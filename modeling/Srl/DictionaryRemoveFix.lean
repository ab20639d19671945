import Srl.DictionaryRemove

namespace Srl

open SearchTree

variable {Key Value : Type} {d : Dictionary Key Value} {c : List (Frame Color)} {t : BinTree Color}

namespace Dictionary

theorem Focus.blacken (hf : Focus d c t) :
    ∃ d', d.blacken t.ptr = some d' ∧ SameData d d' ∧ Focus d' c (Dictionary.paint .black t) := by
  by_cases ht : t = .nil
  · subst ht
    exact ⟨d, rfl, .refl d, hf⟩
  · obtain ⟨d', hd, hdata, hf'⟩ := hf.paint ht .black
    exact ⟨d', by simpa [Dictionary.blacken, hf.ptr_ne_null ht] using hd, hdata, hf'⟩

theorem raiseRedSibling_red {f : Frame Color} (hf : Focus d (f :: c) t) (ht : t ≠ .nil)
    (hr : rootColor f.sib = .red) :
    ∃ d', d.raiseRedSibling f.side t.ptr f.sib.ptr = some (d', (lowered f).sib.ptr) ∧
      SameData d d' ∧ Focus d' (lowered f :: raised f :: c) t := by
  have hsib : f.sib ≠ .nil := by rintro h; simp [h, rootColor] at hr
  have hred := hf.sibling.isRed
  obtain ⟨d₁, hd₁, hdata₁, hf₁⟩ := hf.paintSibling hsib .black
  obtain ⟨e, he, hp, _⟩ := hf₁.entry ht
  obtain ⟨d₂, hd₂, hdata₂, hf₂⟩ := hf₁.paintParent .red
  have hf₂ := focus_cons.mp hf₂
  obtain ⟨w, kw, wo, wi, hw⟩ := exists_join f.side.flip hsib
  simp only [Frame.fill, hw, paint_join, ← join_flip f.side f.addr] at hf₂
  obtain ⟨d₃, hd₃, hdata₃, hf₃⟩ := hf₂.rotate
  have hwi := child_flip_join f.side.flip w kw wo wi
  rw [Side.flip_flip] at hwi
  have hf₃ : Focus d₃ (lowered f :: raised f :: c) t := by
    refine focus_cons.mpr (focus_cons.mpr ?_)
    simpa [Frame.fill, lowered, raised, hwi, hw, ← join_flip f.side] using hf₃
  obtain ⟨e', he', hp', _⟩ := hf₃.entry ht
  obtain ⟨_, p, hpe, _, _, _, hps⟩ := hf₃.frame
  simp only [hr, decide_true] at hred
  simp only [above_cons] at hp hp'
  refine ⟨d₃, ?_, hdata₁.trans (hdata₂.trans hdata₃), hf₃⟩
  have hpa : (lowered f).addr = f.addr := rfl
  have hside : (lowered f).side = f.side := rfl
  rw [hpa] at hp' hpe
  rw [hside] at hps
  simp [raiseRedSibling, hred, hd₁, he, hp, hd₂, hd₃, he', hp', hpe, hps]

theorem raiseRedSibling_black {f : Frame Color} (hf : Focus d (f :: c) t)
    (hr : rootColor f.sib ≠ .red) :
    d.raiseRedSibling f.side t.ptr f.sib.ptr = some (d, f.sib.ptr) := by
  have hred := hf.sibling.isRed
  simp only [hr, decide_false] at hred
  simp [raiseRedSibling, hred]

/-- A frame with another sibling. -/
def withSib (f : Frame Color) (w : BinTree Color) : Frame Color := { f with sib := w }

theorem raiseInner_black {f : Frame Color} {w i : Ptr} {kw ki : Color} {u v outer : BinTree Color}
    (hf : Focus d (f :: c) t) (ht : t ≠ .nil)
    (hw : f.sib = join f.side w kw (join f.side i ki u v) outer) (ho : rootColor outer = .black) :
    ∃ d', d.raiseInner f.side t.ptr w = some (d', i) ∧ SameData d d' ∧
      Focus d' (withSib f (join f.side i .black u (join f.side w .red v outer)) :: c) t := by
  have hs := hf.sibling
  rw [hw] at hs
  obtain ⟨_, n, hn, _, _, hni, hno⟩ := hs.node
  have hinner : Focus d (⟨f.side, w, kw, outer⟩ :: _) (join f.side i ki u v) := focus_cons.mpr hs
  have hblack := hinner.sibling.isBlack
  obtain ⟨d₁, hd₁, hdata₁, hf₁⟩ := hinner.blacken
  obtain ⟨d₂, hd₂, hdata₂, hf₂⟩ := hf₁.paintParent .red
  have hf₂ := focus_cons.mp hf₂
  simp only [paint_join, Frame.fill] at hf₂
  obtain ⟨d₃, hd₃, hdata₃, hf₃⟩ := hf₂.rotate
  have hf₃ : Focus d₃ (withSib f (join f.side i .black u (join f.side w .red v outer)) :: c) t := by
    simpa [withSib] using hf₃.sibling
  obtain ⟨e, he, hp, _⟩ := hf₃.entry ht
  obtain ⟨_, p, hpe, _, _, _, hps⟩ := hf₃.frame
  refine ⟨d₃, ?_, hdata₁.trans (hdata₂.trans hdata₃), hf₃⟩
  have hpa : (withSib f (join f.side i .black u (join f.side w .red v outer))).addr = f.addr := rfl
  have hsib : p.child f.side.flip = i := by simpa [withSib] using hps
  simp only [above_cons, hpa] at hp hpe
  simp only [ho, decide_true, ptr_join] at hblack hd₁ hni
  simp [raiseInner, hn, hno, hblack, hni, hd₁, hd₂, hd₃, he, hp, hpe, hsib]

theorem raiseInner_red {f : Frame Color} {w : Ptr} {kw : Color} {inner outer : BinTree Color}
    (hf : Focus d (f :: c) t) (hw : f.sib = join f.side w kw inner outer)
    (ho : rootColor outer ≠ .black) : d.raiseInner f.side t.ptr w = some (d, w) := by
  have hs := hf.sibling
  rw [hw] at hs
  obtain ⟨_, n, hn, _, _, hni, hno⟩ := hs.node
  have hinner : Focus d (⟨f.side, w, kw, outer⟩ :: _) inner := focus_cons.mpr hs
  have hblack := hinner.sibling.isBlack
  simp only [ho, decide_false] at hblack
  simp [raiseInner, hn, hno, hblack]

theorem raiseSibling_spec {f : Frame Color} {w : Ptr} {kw : Color} {inner outer : BinTree Color}
    (hf : Focus d (f :: c) t) (ht : t ≠ .nil) (hw : f.sib = join f.side w kw inner outer) :
    ∃ d', d.raiseSibling f.side t.ptr w = some (d', d'.root) ∧ SameData d d' ∧
      Focus d' c (join f.side.flip w f.label (paint .black outer)
        (join f.side.flip f.addr .black inner t)) := by
  obtain ⟨e, he, hp, _⟩ := hf.entry ht
  obtain ⟨_, p, hpe, _, hpk, _⟩ := hf.frame
  obtain ⟨d₁, hd₁, hdata₁, hf₁⟩ := hf.paintSibling (by simp [hw]) f.label
  rw [hw, paint_join] at hf₁
  obtain ⟨_, n, hn, hnp, _, _, hno⟩ := hf₁.sibling.node
  obtain ⟨d₂, hd₂, hdata₂, hf₂⟩ := hf₁.paintParent .black
  have hout : Focus d₂ (⟨f.side.flip, w, f.label, inner⟩ :: _) outer :=
    focus_cons.mpr (by simpa only [Frame.fill, join_flip] using hf₂.sibling)
  obtain ⟨d₃, hd₃, hdata₃, hf₃⟩ := hout.blacken
  have hf₃ := focus_cons.mp (focus_cons.mp hf₃)
  simp only [Frame.fill] at hf₃
  obtain ⟨d₄, hd₄, hdata₄, hf₄⟩ := hf₃.rotate
  simp only [above_cons] at hp hnp
  refine ⟨d₄, ?_, hdata₁.trans (hdata₂.trans (hdata₃.trans hdata₄)), hf₄⟩
  have hfz := hf.frame.1
  simp only [hw, ptr_join] at hd₁
  simp [raiseSibling, he, hp, hpe, hpk, hd₁, hn, hnp, hno, hfz, hd₂, hd₃, hd₄]

/-- A run of the loop ends at an entry whose black painting leaves the tree `t'`. -/
def Settles (d : Dictionary Key Value) (run : Option (Dictionary Key Value × Ptr)) (t' : BinTree Color) :
    Prop :=
  ∃ d' c t, run = some (d', t.ptr) ∧ SameData d d' ∧ t ≠ .nil ∧ Focus d' c t ∧
    plug c (paint .black t) = t'

theorem Settles.trans {d d' : Dictionary Key Value} {run : Option (Dictionary Key Value × Ptr)}
    {t' : BinTree Color} (hdata : SameData d d') (h : Settles d' run t') : Settles d run t' := by
  obtain ⟨d₁, c, t, hrun, hdata₁, hrest⟩ := h
  exact ⟨d₁, c, t, hrun, hdata.trans hdata₁, hrest⟩

/-- What `removeFix` reads of a sibling that is there: its children and their colours. -/
theorem Focus.nephews {f : Frame Color} {l r : BinTree Color} {w : Ptr} {k : Color} (hf : Focus d (f :: c) t)
    (hw : f.sib = .node l w k r) :
    w ≠ NULL ∧ ∃ n, d.heap w = some n ∧ n.lesser = l.ptr ∧ n.greater = r.ptr ∧
      d.isBlack l.ptr = some (decide (rootColor l = .black)) ∧
      d.isBlack r.ptr = some (decide (rootColor r = .black)) := by
  have hs := hf.sibling
  rw [hw] at hs
  obtain ⟨hwz, n, hn, _, _, hnl, hnr⟩ := hs.sub.1
  have hlf : Focus d (⟨.lesser, w, k, r⟩ :: _) l := focus_cons.mpr hs
  have hrf : Focus d (⟨.greater, w, k, l⟩ :: _) r := focus_cons.mpr hs
  exact ⟨hwz, n, hn, hnl, hnr, hlf.isBlack, hrf.isBlack⟩

theorem removeFixRest_black {f : Frame Color} {l r : BinTree Color} {w : Ptr} {k : Color}
    (hf : Focus d (f :: c) t) (ht : t ≠ .nil) (hw : f.sib = .node l w k r)
    (hl : rootColor l = .black) (hr : rootColor r = .black) :
    ∃ d', d.removeFixRest f.side t.ptr w = some (d', f.addr, true) ∧ SameData d d' ∧
      Focus d' c (join f.side f.addr f.label t (paint .red f.sib)) := by
  obtain ⟨hwz, n, hn, hnl, hnr, hlb, hrb⟩ := hf.nephews hw
  obtain ⟨e, he, hp, _⟩ := hf.entry ht
  obtain ⟨d', hd, hdata, hf'⟩ := hf.paintSibling (by simp [hw]) .red
  obtain ⟨e, he, hp, _⟩ := hf'.entry ht
  refine ⟨d', ?_, hdata, focus_cons.mp hf'⟩
  have hd : d.setColor w .red = some d' := by simpa [hw] using hd
  have hp : e.parent = f.addr := hp
  simp [removeFixRest, hwz, hn, hnl, hnr, hlb, hrb, hl, hr, hd, he, hp]

theorem removeFixRest_red {f : Frame Color} {l r : BinTree Color} {w : Ptr} {k : Color}
    (hf : Focus d (f :: c) t) (ht : t ≠ .nil) (hw : f.sib = .node l w k r)
    (hlr : ¬(rootColor l = .black ∧ rootColor r = .black)) :
    ∃ d', d.removeFixRest f.side t.ptr w = some (d', d'.root, true) ∧ SameData d d' ∧
      Focus d' c (finishRemove f.side f.addr f.label t f.sib) := by
  obtain ⟨hwz, n, hn, hnl, hnr, hlb, hrb⟩ := hf.nephews hw
  obtain ⟨w', k', inner, outer, hw'⟩ := exists_join f.side (t := f.sib) (by simp [hw])
  obtain rfl : w' = w := by simpa [hw] using congrArg BinTree.ptr hw'.symm
  by_cases ho : rootColor outer = .black
  · have hi : inner ≠ .nil := by
      rintro rfl
      apply hlr
      cases hs : f.side <;> rw [hs, hw] at hw' <;> simp only [join, BinTree.node.injEq] at hw' <;>
        simp [hw', ho, show rootColor .nil = .black from rfl]
    obtain ⟨i, ki, u, v, rfl⟩ := exists_join f.side hi
    obtain ⟨d₁, hd₁, hdata₁, hf₁⟩ := raiseInner_black hf ht hw' ho
    obtain ⟨d₂, hd₂, hdata₂, hf₂⟩ := raiseSibling_spec hf₁ ht (by rfl)
    have hiz := hf₁.sibling.ptr_ne_null (by simp [withSib])
    refine ⟨d₂, ?_, hdata₁.trans hdata₂, ?_⟩
    · have hd₂ : d₁.raiseSibling f.side t.ptr i = some (d₂, d₂.root) := hd₂
      have hiz : i ≠ NULL := by simpa [withSib] using hiz
      simp [removeFixRest, hwz, hn, hnl, hnr, hlb, hrb, hlr, hd₁, hiz, hd₂]
    · simpa [finishRemove, hw', ho, withSib] using hf₂
  · obtain ⟨d₂, hd₂, hdata₂, hf₂⟩ := raiseSibling_spec hf ht hw'
    refine ⟨d₂, ?_, hdata₂, by simpa [finishRemove, hw', ho] using hf₂⟩
    simp [removeFixRest, hwz, hn, hnl, hnr, hlb, hrb, hlr, raiseInner_red hf hw' ho, hd₂]

/-- What is left of a round, and the rounds after it. -/
theorem settles_rest {f : Frame Color} {up : BinTree Color → BinTree Color}
    {next : Dictionary Key Value → Ptr → Option (Dictionary Key Value × Ptr)}
    (hf : Focus d (f :: c) t) (ht : t ≠ .nil)
    (hup : ∀ d', Focus d' c (join f.side f.addr f.label t (paint .red f.sib)) →
      Settles d' (next d' f.addr) (up (join f.side f.addr f.label t (paint .red f.sib))))
    (hroot : ∀ d', next d' d'.root = some (d', d'.root)) :
    Settles d ((d.removeFixRest f.side t.ptr f.sib.ptr).bind fun r =>
      if r.2.2 then next r.1 r.2.1 else some (r.1, r.2.1)) (removeFixNear f c t up) := by
  cases hw : f.sib with
  | nil =>
    refine ⟨d, f :: c, t, ?_, .refl d, ht, hf, by simp [removeFixNear, hw]⟩
    simp [removeFixRest]
  | node l w k r =>
    rw [ptr_node]
    by_cases hlr : rootColor l = .black ∧ rootColor r = .black
    · obtain ⟨d', hd, hdata, hf'⟩ := removeFixRest_black hf ht hw hlr.1 hlr.2
      simpa [removeFixNear, hw, hlr, hd] using (hup d' hf').trans hdata
    · obtain ⟨d', hd, hdata, hf'⟩ := removeFixRest_red hf ht hw hlr
      have hne : plug c (finishRemove f.side f.addr f.label t f.sib) ≠ .nil := by
        intro h
        have hm : t.ptr ∈ (plug c (finishRemove f.side f.addr f.label t f.sib)).inorder := by
          simp only [finishRemove]
          split <;> simp [ptr_mem ht]
        simp [h] at hm
      refine ⟨d', [], _, ?_, hdata, hne, focus_root.mp hf', by simp [removeFixNear, hw, hlr]⟩
      rw [hd, Option.bind_some, if_pos rfl, hroot, hf'.root]

theorem removeFixLoop_step {fuel : Nat} {f : Frame Color} (hf : Focus d (f :: c) t) (ht : t ≠ .nil)
    (hk : rootColor t ≠ .red) :
    removeFixLoop (fuel + 1) d t.ptr =
      ((d.raiseRedSibling f.side t.ptr f.sib.ptr).bind fun r =>
        r.1.removeFixRest f.side t.ptr r.2).bind fun r =>
          if r.2.2 then removeFixLoop fuel r.1 r.2.1 else some (r.1, r.2.1) := by
  obtain ⟨e, he, hp, hek⟩ := hf.entry ht
  obtain ⟨_, p, hpe, _, _, hps, hpf⟩ := hf.frame
  have hside := hf.child_eq_iff ht hpe .lesser
  have hblack : e.color = .black := by cases h : e.color <;> simp_all
  have hp : e.parent = f.addr := hp
  cases hs : f.side with
  | lesser =>
    simp only [hs, Side.flip, Entry.child] at hside hpf
    simp [removeFixLoop, hf.ne_root ht, he, hblack, hp, hpe, hside, removeFixSide, Entry.child, Side.flip,
      hpf]
  | greater =>
    simp only [hs, Side.flip, Entry.child] at hside hpf
    rw [hpf] at hside
    simp [removeFixLoop, hf.ne_root ht, he, hblack, hp, hpe, hside, removeFixSide, Entry.child, Side.flip,
      hpf]

/-- The loop of `_removeFixTree` does to the heap what `removeFix` does to the tree. -/
theorem removeFixLoop_spec {fuel : Nat} (hf : Focus d c t) (ht : t ≠ .nil)
    (hfuel : c.length + 2 ≤ fuel) : Settles d (removeFixLoop fuel d t.ptr) (removeFix c t) := by
  induction c generalizing d t fuel with
  | nil =>
    obtain ⟨fuel, rfl⟩ : ∃ n, fuel = n + 1 := ⟨fuel - 1, by simp at hfuel; omega⟩
    exact ⟨d, [], t, by simp [removeFixLoop, hf.root], .refl d, ht, hf, rfl⟩
  | cons f c ih =>
    obtain ⟨fuel, rfl⟩ : ∃ n, fuel = n + 2 := ⟨fuel - 2, by simp at hfuel; omega⟩
    have hroot (d' : Dictionary Key Value) :
        removeFixLoop (fuel + 1) d' d'.root = some (d', d'.root) := by simp [removeFixLoop]
    by_cases hk : rootColor t = .red
    · obtain ⟨e, he, _, hek⟩ := hf.entry ht
      refine ⟨d, f :: c, t, ?_, .refl d, ht, hf, by simp [removeFix, hk]⟩
      simp [removeFixLoop, hf.ne_root ht, he, hek, hk]
    · rw [removeFixLoop_step hf ht hk]
      by_cases hr : rootColor f.sib = .red
      · obtain ⟨d₁, hd₁, hdata₁, hf₁⟩ := raiseRedSibling_red hf ht hr
        rw [hd₁, removeFix, if_neg hk, if_pos hr]
        refine Settles.trans hdata₁ (settles_rest hf₁ ht (fun d' hf' => ?_) hroot)
        obtain ⟨e, he, _, hek⟩ := hf'.entry (by simp)
        have hek : e.color = .red := by simpa [lowered] using hek
        have hne := hf'.ne_root (by simp)
        simp only [ptr_join] at he hne
        exact ⟨d', _, _, by simp [removeFixLoop, hne, he, hek], .refl d', by simp, hf', rfl⟩
      · rw [raiseRedSibling_black hf hr, removeFix, if_neg hk, if_neg hr]
        refine settles_rest hf ht (fun d' hf' => ?_) hroot
        simpa using ih hf' (by simp) (show c.length + 2 ≤ fuel + 1 by simp at hfuel; omega)

theorem removeFixTree_spec (hf : Focus d c t) (ht : t ≠ .nil) (hbrk : c.length ≤ d.brk) :
    ∃ d', d.removeFixTree t.ptr = some d' ∧ SameData d d' ∧ Focus d' [] (removeFix c t) := by
  obtain ⟨d₁, c₁, t₁, hd₁, hdata₁, ht₁, hf₁, hplug⟩ :=
    removeFixLoop_spec hf ht (show c.length + 2 ≤ d.brk + 2 by omega)
  obtain ⟨d₂, hd₂, hdata₂, hf₂⟩ := hf₁.paint ht₁ .black
  exact ⟨d₂, by simp [removeFixTree, hd₁, hd₂], hdata₁.trans hdata₂, hplug ▸ focus_root.mp hf₂⟩

end Dictionary

end Srl
