import Srl.DictionaryBalance

namespace Srl

open SearchTree

variable {Key Value : Type} {d : Dictionary Key Value} {c : List (Frame Color)} {t : BinTree Color}

namespace Dictionary

/-- The entry at the focus. -/
theorem Focus.entry (hf : Focus d c t) (ht : t ≠ .nil) :
    ∃ e, d.heap t.ptr = some e ∧ e.parent = above c ∧ e.color = rootColor t := by
  obtain ⟨a, k, x, y, rfl⟩ := exists_join .lesser ht
  obtain ⟨_, e, he, hp, hk, _⟩ := hf.node
  exact ⟨e, by simpa using he, hp, by simpa using hk⟩

theorem Focus.ptr_ne_null (hf : Focus d c t) (ht : t ≠ .nil) : t.ptr ≠ NULL :=
  hf.sub.ptr_ne_null ht

theorem Focus.paint (hf : Focus d c t) (ht : t ≠ .nil) (k : Color) :
    ∃ d', d.setColor t.ptr k = some d' ∧ SameData d d' ∧ Focus d' c (paint k t) := by
  obtain ⟨a, k₀, x, y, rfl⟩ := exists_join .lesser ht
  obtain ⟨d', hd, hf', hdata⟩ := hf.setColor k
  exact ⟨d', by simpa using hd, hdata, by simpa using hf'⟩

/-- From a child to its sibling. -/
theorem Focus.sibling {f : Frame Color} (hf : Focus d (f :: c) t) :
    Focus d ({ f with side := f.side.flip, sib := t } :: c) f.sib := by
  rw [focus_cons] at hf ⊢
  simpa only [Frame.fill, join_flip] using hf

theorem Focus.paintParent {f : Frame Color} (hf : Focus d (f :: c) t) (k : Color) :
    ∃ d', d.setColor f.addr k = some d' ∧ SameData d d' ∧ Focus d' ({ f with label := k } :: c) t := by
  obtain ⟨d', hd, hdata, hf'⟩ := (focus_cons.mp hf).paint (by simp [Frame.fill]) k
  refine ⟨d', by simpa using hd, hdata, focus_cons.mpr ?_⟩
  simpa [Frame.fill] using hf'

theorem Focus.paintSibling {f : Frame Color} (hf : Focus d (f :: c) t) (hs : f.sib ≠ .nil)
    (k : Color) : ∃ d', d.setColor f.sib.ptr k = some d' ∧ SameData d d' ∧
      Focus d' ({ f with sib := Dictionary.paint k f.sib } :: c) t := by
  obtain ⟨d', hd, hdata, hf'⟩ := hf.sibling.paint hs k
  exact ⟨d', hd, hdata, by simpa using hf'.sibling⟩

theorem Focus.isRed (hf : Focus d c t) : d.isRed t.ptr = some (decide (rootColor t = .red)) := by
  by_cases ht : t = .nil
  · simp [ht, Dictionary.isRed, rootColor]
  · obtain ⟨e, he, _, hk⟩ := hf.entry ht
    simp [Dictionary.isRed, hf.ptr_ne_null ht, he, hk]

theorem Focus.isBlack (hf : Focus d c t) : d.isBlack t.ptr = some (decide (rootColor t = .black)) := by
  by_cases ht : t = .nil
  · simp [ht, Dictionary.isBlack, rootColor]
  · obtain ⟨e, he, _, hk⟩ := hf.entry ht
    simp [Dictionary.isBlack, hf.ptr_ne_null ht, he, hk]

theorem Focus.grandparent {f : Frame Color} (hf : Focus d (f :: c) t) (ht : t ≠ .nil) :
    d.grandparent t.ptr = some (above c) := by
  obtain ⟨e, he, hp, _⟩ := hf.entry ht
  obtain ⟨hz, p, hpe, hpp, _⟩ := hf.frame
  simp only [above_cons] at hp
  simp [Dictionary.grandparent, he, hp, hz, hpe, hpp]

/-- A child is on the side of its frame and on no other. -/
theorem Focus.child_eq_iff {f : Frame Color} (hf : Focus d (f :: c) t) (ht : t ≠ .nil)
    {p : Entry Key Value} (hp : d.heap f.addr = some p) (s : Side) :
    t.ptr = p.child s ↔ f.side = s := by
  obtain ⟨_, e, he, _, _, hs, hsf⟩ := hf.frame
  cases Option.some.inj (hp.symm.trans he)
  rcases Side.eq_or_flip f.side s with rfl | rfl
  · simp [hs]
  · have hd := (nodup_plug hf.nodup).2.2
    have hne : f.sib.ptr ≠ t.ptr :=
      ptr_ne_of_not_mem (fun hm => hd (ptr_mem ht) (by simp [hm])) (hf.ptr_ne_null ht)
    simp [hsf, Ne.symm hne]

/-- Red uncle: three color writes, and the grandparent is the next entry. -/
theorem validateInsertSide_red {f g : Frame Color} (hf : Focus d (f :: g :: c) t) (ht : t ≠ .nil)
    (hr : rootColor g.sib = .red) :
    ∃ d', d.validateInsertSide g.side t.ptr = some (d', g.addr) ∧ SameData d d' ∧
      Focus d' c (join g.side g.addr .red (join f.side f.addr .black t f.sib) (paint .black g.sib)) := by
  obtain ⟨e, he, hp, _⟩ := hf.entry ht
  have hg := focus_cons.mp hf
  obtain ⟨_, ge, hge, _, _, _, hgs⟩ := hg.frame
  have hsib : g.sib ≠ .nil := by rintro h; simp [h, rootColor] at hr
  have hred := hg.sibling.isRed
  obtain ⟨d₁, hd₁, hdata₁, hf₁⟩ := hf.paintParent .black
  obtain ⟨d₂, hd₂, hdata₂, hf₂⟩ := (focus_cons.mp hf₁).paintSibling hsib .black
  obtain ⟨d₃, hd₃, hdata₃, hf₃⟩ := hf₂.paintParent .red
  simp only [above_cons] at hp
  refine ⟨d₃, ?_, hdata₁.trans (hdata₂.trans hdata₃), by simpa [Frame.fill] using focus_cons.mp hf₃⟩
  simp only [hr, decide_true] at hred
  simp [validateInsertSide, he, hf.grandparent ht, hge, hgs, hred, hp, hd₁, hd₂, hd₃]

theorem rotateGrandparent_spec {f g : Frame Color} (hf : Focus d (f :: g :: c) t) (ht : t ≠ .nil)
    (hs : f.side = g.side) :
    ∃ d', d.rotateGrandparent g.side t.ptr = some d' ∧ SameData d d' ∧
      Focus d' (⟨g.side, f.addr, .black, join g.side g.addr .red f.sib g.sib⟩ :: c) t := by
  obtain ⟨e, he, hp, _⟩ := hf.entry ht
  simp only [above_cons] at hp
  obtain ⟨d₁, hd₁, hdata₁, hf₁⟩ := hf.paintParent .black
  obtain ⟨d₂, hd₂, hdata₂, hf₂⟩ := (focus_cons.mp hf₁).paintParent .red
  have hf₂ := focus_cons.mp hf₂
  simp only [Frame.fill, hs] at hf₂
  obtain ⟨d₃, hd₃, hdata₃, hf₃⟩ := hf₂.rotate
  refine ⟨d₃, ?_, hdata₁.trans (hdata₂.trans hdata₃), focus_cons.mpr hf₃⟩
  simp [rotateGrandparent, blacken, he, hp, hf.frame.1, hd₁, hf₁.grandparent ht, (focus_cons.mp hf).frame.1,
    hd₂, hd₃]

/-- Black uncle: after one or two rotations the parent of the next entry is black. -/
theorem validateInsertSide_black {f g : Frame Color} (hf : Focus d (f :: g :: c) t) (ht : t ≠ .nil)
    (hb : f.label ≠ .black) (hr : rootColor g.sib ≠ .red) :
    ∃ d' f' t', d.validateInsertSide g.side t.ptr = some (d', t'.ptr) ∧ SameData d d' ∧
      Focus d' (f' :: c) t' ∧ t' ≠ .nil ∧ f'.label = .black ∧
      plug (f' :: c) t' = fixInsert (f :: g :: c) t := by
  obtain ⟨e, he, hp, _⟩ := hf.entry ht
  simp only [above_cons] at hp
  have hg := focus_cons.mp hf
  obtain ⟨_, ge, hge, _, _, _, hgs⟩ := hg.frame
  obtain ⟨_, p, hpe, _⟩ := hf.frame
  have hred := hg.sibling.isRed
  simp only [hr, decide_false] at hred
  have hinner := hf.child_eq_iff ht hpe g.side.flip
  by_cases hs : f.side = g.side
  · obtain ⟨d', hd, hdata, hf'⟩ := rotateGrandparent_spec hf ht hs
    refine ⟨d', _, t, ?_, hdata, hf', ht, rfl, ?_⟩
    · simp [validateInsertSide, he, hf.grandparent ht, hge, hgs, hred, hp, hpe, hinner, hs, hd]
    · simp [fixInsert, hb, hr, hs, Frame.fill]
  · have hs' : f.side = g.side.flip := (Side.eq_or_flip g.side f.side).resolve_left hs
    obtain ⟨x, kx, ta, tb, rfl⟩ := exists_join g.side.flip ht
    simp only [Frame.fill, hs'] at hg
    obtain ⟨d₁, hd₁, hdata₁, hf₁⟩ := hg.rotate
    rw [join_flip g.side x] at hf₁
    have hf₁ : Focus d₁ (⟨g.side, x, kx, ta⟩ :: g :: c) (join g.side.flip f.addr f.label tb f.sib) :=
      focus_cons.mpr hf₁
    obtain ⟨d₂, hd₂, hdata₂, hf₂⟩ := rotateGrandparent_spec hf₁ (by simp) rfl
    have hgp := hf.grandparent ht
    simp only [ptr_join] at hd₂ he hinner hgp
    refine ⟨d₂, _, _, ?_, hdata₁.trans hdata₂, hf₂, by simp, rfl, ?_⟩
    · simp [validateInsertSide, he, hgp, hge, hgs, hred, hp, hpe, hinner, hs', hd₁, hd₂]
    · have hk : f.label = .red := by cases hk : f.label <;> simp_all
      have hta : (join g.side.flip x kx ta tb).child g.side = tb := by
        simpa using child_flip_join g.side.flip x kx ta tb
      simp [fixInsert, hr, hs', hta, Frame.fill, hk]

theorem validateInsertLoop_black {fuel : Nat} {f : Frame Color} (hf : Focus d (f :: c) t)
    (ht : t ≠ .nil) (hb : f.label = .black) :
    validateInsertLoop (fuel + 1) d t.ptr = some d := by
  obtain ⟨e, he, hp, _⟩ := hf.entry ht
  obtain ⟨_, p, hpe, _, hpk, _⟩ := hf.frame
  simp only [above_cons] at hp
  simp [validateInsertLoop, hf.ne_root ht, he, hp, hpe, hpk, hb]

theorem validateInsertLoop_red {fuel : Nat} {f g : Frame Color} (hf : Focus d (f :: g :: c) t)
    (ht : t ≠ .nil) (hb : f.label ≠ .black) :
    validateInsertLoop (fuel + 1) d t.ptr =
      (d.validateInsertSide g.side t.ptr).bind fun r => validateInsertLoop fuel r.1 r.2 := by
  obtain ⟨e, he, hp, _⟩ := hf.entry ht
  obtain ⟨_, p, hpe, _, hpk, _⟩ := hf.frame
  have hg := focus_cons.mp hf
  obtain ⟨hgz, ge, hge, _⟩ := hg.frame
  have hside : f.addr = ge.lesser ↔ g.side = .lesser := by
    simpa [Entry.child] using hg.child_eq_iff (by simp [Frame.fill]) hge .lesser
  have hgp := hf.grandparent ht
  have hk : f.label = .red := by cases hk : f.label <;> simp_all
  simp only [above_cons] at hp hgp
  cases hl : g.side <;>
    simp [validateInsertLoop, hf.ne_root ht, he, hp, hpe, hpk, hk, hgp, hgz, hge, hside, hl]

/-- A round without a red uncle is the last one. -/
theorem validateInsertLoop_last {fuel : Nat} {f g : Frame Color} (hf : Focus d (f :: g :: c) t)
    (ht : t ≠ .nil) (hb : f.label ≠ .black) (hr : rootColor g.sib ≠ .red) :
    ∃ d', validateInsertLoop (fuel + 2) d t.ptr = some d' ∧ SameData d d' ∧
      Focus d' [] (fixInsert (f :: g :: c) t) := by
  obtain ⟨d', f', t', hd, hdata, hf', ht', hk, hplug⟩ := validateInsertSide_black hf ht hb hr
  refine ⟨d', ?_, hdata, hplug ▸ focus_root.mp hf'⟩
  rw [validateInsertLoop_red hf ht hb, hd]
  exact validateInsertLoop_black hf' ht' hk

/-- The loop of `_validateInsert` does to the heap what `fixInsert` does to the tree. -/
theorem validateInsertLoop_spec {fuel : Nat} (hf : Focus d c t) (ht : t ≠ .nil)
    (hfuel : c.length < fuel) :
    ∃ d', validateInsertLoop fuel d t.ptr = some d' ∧ SameData d d' ∧ Focus d' [] (fixInsert c t) := by
  induction c, t using fixInsert.induct generalizing d fuel with
  | case1 t =>
    obtain ⟨fuel, rfl⟩ := Nat.exists_eq_add_of_lt hfuel
    exact ⟨d, by simp [validateInsertLoop, hf.root], .refl d, hf⟩
  | case2 f t =>
    obtain ⟨fuel, rfl⟩ := Nat.exists_eq_add_of_lt hfuel
    obtain ⟨e, he, hp, _⟩ := hf.entry ht
    obtain ⟨_, p, hpe, _⟩ := hf.frame
    have hgp := hf.grandparent ht
    simp only [above_cons] at hp
    refine ⟨d, ?_, .refl d, focus_cons.mp hf⟩
    simp [validateInsertLoop, hf.ne_root ht, he, hp, hpe, hgp]
  | case3 f g c t hb =>
    obtain ⟨fuel, rfl⟩ := Nat.exists_eq_add_of_lt hfuel
    exact ⟨d, validateInsertLoop_black hf ht hb, .refl d, by simpa [fixInsert, hb] using focus_root.mp hf⟩
  | case4 f g c t hb hr ih =>
    obtain ⟨fuel, rfl⟩ := Nat.exists_eq_add_of_lt hfuel
    obtain ⟨d₁, hd₁, hdata₁, hf₁⟩ := validateInsertSide_red hf ht hr
    obtain ⟨d₂, hd₂, hdata₂, hf₂⟩ := ih hf₁ (by simp)
      (show c.length < (f :: g :: c).length + fuel by simp; omega)
    refine ⟨d₂, ?_, hdata₁.trans hdata₂, by simpa [fixInsert, hb, hr] using hf₂⟩
    rw [validateInsertLoop_red hf ht hb, hd₁]
    simpa using hd₂
  | case5 f g c t hb hr hs =>
    obtain ⟨fuel, rfl⟩ : ∃ n, fuel = n + 2 := ⟨fuel - 2, by simp at hfuel; omega⟩
    exact validateInsertLoop_last hf ht hb hr
  | case6 f g c t hb hr hs =>
    obtain ⟨fuel, rfl⟩ : ∃ n, fuel = n + 2 := ⟨fuel - 2, by simp at hfuel; omega⟩
    exact validateInsertLoop_last hf ht hb hr

theorem validateInsert_spec (hf : Focus d c t) (ht : t ≠ .nil) (hbrk : c.length < d.brk) :
    ∃ d', d.validateInsert t.ptr = some d' ∧ SameData d d' ∧
      Focus d' [] (Dictionary.paint .black (fixInsert c t)) := by
  obtain ⟨d₁, hd₁, hdata₁, hf₁⟩ := validateInsertLoop_spec hf ht hbrk
  have hne : fixInsert c t ≠ .nil := by
    intro h
    have hm : t.ptr ∈ (fixInsert c t).inorder := by simp [inorder_fixInsert ht, ptr_mem ht]
    simp [h] at hm
  obtain ⟨d₂, hd₂, hdata₂, hf₂⟩ := hf₁.paint hne .black
  refine ⟨d₂, ?_, hdata₁.trans hdata₂, hf₂⟩
  have hroot : d₁.root = (fixInsert c t).ptr := hf₁.root
  simp [validateInsert, hd₁, hroot, hd₂]

/-- Where `_insert` turns at the entry `a` for the hash `h`. -/
def turn (d : Dictionary Key Value) (h : Int) (a : Ptr) : Side :=
  match d.heap a with
  | some e => if h ≥ e.hash then .greater else .lesser
  | none => .lesser

/-- Hanging an entry without children below an ancestor that has room for it. -/
theorem Focus.attach {f : Frame Color} {entry : Ptr} {e : Entry Key Value}
    (hf : Focus d (f :: c) .nil) (he : d.heap entry = some e) (hz : entry ≠ NULL)
    (hnew : entry ∉ (plug (f :: c) .nil).inorder) (hl : e.lesser = NULL) (hg : e.greater = NULL)
    (hk : e.color = .red) :
    ∃ d', d.setChild f.side f.addr entry = some d' ∧ SameData d d' ∧
      Focus d' (f :: c) (.node .nil entry .red .nil) := by
  obtain ⟨hfz, p, hp, hpp, hpk, hps, hpf⟩ := hf.frame
  obtain ⟨-, hnc, -⟩ := nodup_plug hf.nodup
  obtain ⟨hfs, hfc, -, -, -⟩ := nodup_pathAddrs_cons.mp hnc
  simp only [mem_plug, inorder_nil, List.not_mem_nil, false_or, mem_pathAddrs_cons, not_or] at hnew
  obtain ⟨d', hd, hdata, hroot, hdp, hde, hsame⟩ :=
    setChild_spec (s := f.side) hp (fun _ => ⟨e, he⟩) hnew.1
  refine ⟨d', hd, hdata, ⟨⟨⟨hfz, _, hdp, ?_⟩, ?_, ?_⟩, ?_, ?_, ?_⟩⟩
  · simp [hpp, hpk, hpf]
  · exact hf.path.2.1.congr fun a ha =>
      hsame a (by rintro rfl; exact hfs ha) (by rintro - rfl; exact hnew.2.1 ha)
  · exact hf.path.2.2.congr fun a ha =>
      hsame a (by rintro rfl; exact hfc ha) (by rintro - rfl; exact hnew.2.2 ha)
  · exact ⟨⟨hz, e.withParent f.addr, by simpa [he] using hde hz, rfl, hk, hl, hg⟩, trivial, trivial⟩
  · rw [hroot, hf.root]
    exact ptr_plug_congr c (by simp)
  · have hn := hf.nodup
    rw [inorder_plug] at hn ⊢
    have hmem : entry ∉ before (f :: c) ++ after (f :: c) := by
      rw [← pathAddrs]; simpa [not_or] using hnew
    simp only [inorder_nil, List.append_nil, inorder_node, List.nil_append] at hn ⊢
    grind

theorem insertLoop_step {entry a : Ptr} {e p : Entry Key Value} (fuel : Nat)
    (he : d.heap entry = some e) (hp : d.heap a = some p) (hz : a ≠ NULL) :
    d.insertLoop entry (fuel + 1) a =
      if p.child (d.turn e.hash a) = NULL then d.setChild (d.turn e.hash a) a entry
      else d.insertLoop entry fuel (p.child (d.turn e.hash a)) := by
  by_cases hh : e.hash ≥ p.hash
  · simp [insertLoop, hz, he, hp, turn, hh, Entry.child, setGreater]
  · simp [insertLoop, hz, he, hp, turn, hh, Entry.child, setLesser]

/-- The descent of `_insert` ends below the last node of the search path. -/
theorem insertLoop_spec {entry : Ptr} {e : Entry Key Value} {fuel : Nat} (hf : Focus d c t)
    (ht : t ≠ .nil) (he : d.heap entry = some e) (hz : entry ≠ NULL)
    (hnew : entry ∉ (plug c t).inorder) (hl : e.lesser = NULL) (hg : e.greater = NULL)
    (hk : e.color = .red) (hfuel : t.inorder.length < fuel) :
    ∃ d', d.insertLoop entry fuel t.ptr = some d' ∧ SameData d d' ∧
      Focus d' (descend (d.turn e.hash) t c) (.node .nil entry .red .nil) := by
  induction t generalizing c fuel with
  | nil => exact absurd rfl ht
  | node l a k r ihl ihr =>
    obtain ⟨fuel, rfl⟩ := Nat.exists_eq_add_of_lt hfuel
    obtain ⟨⟨haz, p, hp, _, _, hpl, hpr⟩, hsl, hsr⟩ := hf.sub
    rw [ptr_node, insertLoop_step _ he hp haz, descend]
    cases hs : d.turn e.hash a with
    | lesser =>
      have hf' : Focus d (⟨.lesser, a, k, r⟩ :: c) l := focus_cons.mpr hf
      rw [hpl]
      by_cases hnil : l = .nil
      · subst hnil
        exact hf'.attach he hz hnew hl hg hk
      · rw [if_neg (hf'.ptr_ne_null hnil)]
        exact ihl hf' hnil hnew (by simp; omega)
    | greater =>
      have hf' : Focus d (⟨.greater, a, k, l⟩ :: c) r := focus_cons.mpr hf
      have hpr : p.child .greater = r.ptr := hpr
      rw [hpr]
      by_cases hnil : r = .nil
      · subst hnil
        exact hf'.attach he hz hnew hl hg hk
      · rw [if_neg (hf'.ptr_ne_null hnil)]
        exact ihr hf' hnil hnew (by simp; omega)

/-- The tree after `_insert`: the new red leaf, repaired upwards, under a black root. -/
def insertTree (go : Ptr → Side) (t : BinTree Color) (entry : Ptr) : BinTree Color :=
  match t with
  | .nil => .node .nil entry .red .nil
  | t => paint .black (fixInsert (descend go t []) (.node .nil entry .red .nil))

theorem insertEntry_spec {entry : Ptr} {e : Entry Key Value} (hf : Focus d [] t)
    (he : d.heap entry = some e) (hz : entry ≠ NULL) (hnew : entry ∉ t.inorder)
    (hl : e.lesser = NULL) (hg : e.greater = NULL) (hp : e.parent = NULL) (hk : e.color = .red)
    (hbrk : t.inorder.length < d.brk) :
    ∃ d', d.insertEntry entry = some d' ∧ SameData d d' ∧
      Focus d' [] (insertTree (d.turn e.hash) t entry) := by
  by_cases ht : t = .nil
  · subst ht
    have hr : d.root = NULL := hf.root
    refine ⟨{ d with root := entry }, by simp [insertEntry, hr], ⟨fun _ => rfl, rfl, rfl, rfl, rfl⟩,
      ⟨trivial, ⟨⟨hz, e, he, hp, hk, hl, hg⟩, trivial, trivial⟩, rfl, by simp [insertTree]⟩⟩
  · have hr : d.root = t.ptr := hf.root
    obtain ⟨d₁, hd₁, hdata₁, hf₁⟩ := insertLoop_spec hf ht he hz hnew hl hg hk hbrk
    have hlen := length_descend_le (d.turn e.hash) t []
    obtain ⟨d₂, hd₂, hdata₂, hf₂⟩ := validateInsert_spec hf₁ (by simp)
      (by rw [hdata₁.brk]; simp at hlen; omega)
    refine ⟨d₂, ?_, hdata₁.trans hdata₂, ?_⟩
    · simp only [ptr_node] at hd₂
      simp [insertEntry, hr, hf.ptr_ne_null ht, hd₁, hd₂]
    · cases t with
      | nil => exact absurd rfl ht
      | node l a k r => exact hf₂

end Dictionary

end Srl
