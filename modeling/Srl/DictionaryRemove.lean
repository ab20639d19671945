import Srl.DictionaryInsert

namespace Srl

open SearchTree

variable {Key Value : Type} {d : Dictionary Key Value} {c : List (Frame Color)} {t : BinTree Color}

namespace Dictionary

theorem store_spec {p : Ptr} {e : Entry Key Value} (f : Entry Key Value → Entry Key Value)
    (hf : ∀ e, (f e).data = e.data) (hp : d.heap p = some e) :
    ∃ d', d.store p f = some d' ∧ SameData d d' ∧ d'.root = d.root ∧ d'.heap p = some (f e) ∧
      ∀ a, a ≠ p → d'.heap a = d.heap a := by
  have h := store_eq f hp
  exact ⟨_, h, sameData_store hf h, rfl, by simp, fun a ha => by simp [Function.update_of_ne ha]⟩

/-- First writes of `splice`: the only child of `y` gets the parent of `y`. -/
theorem adopt_spec {q : Ptr} (hs : Stored d.heap t q) (p : Ptr) (hn : t.inorder.Nodup) :
    ∃ d', d.adopt t.ptr p = some d' ∧
      SameData d d' ∧ d'.root = d.root ∧ Stored d'.heap t p ∧
      ∀ a, a ∉ t.inorder → d'.heap a = d.heap a := by
  by_cases hz : t.ptr = NULL
  · refine ⟨d, by simp [adopt, hz], .refl d, rfl, ?_, fun _ _ => rfl⟩
    exact hs.reparent hn (fun h => absurd hz h) fun _ _ _ => rfl
  · have hm := ptr_mem_of_ne_zero hz
    obtain ⟨e, he⟩ := (hs.live hm).2
    obtain ⟨d', hd, hdata, hroot, hp, hsame⟩ := store_spec (fun e => e.withParent p) (by simp) he
    refine ⟨d', by simpa [adopt, hz] using hd, hdata, hroot, ?_, ?_⟩
    · exact hs.reparent hn (fun _ => by simp [hp, he]) fun a _ ha => hsame a ha
    · exact fun a ha => hsame a (by rintro rfl; exact ha hm)

/-- Taking out a node with at most one child. -/
theorem splice_spec {s : Side} {y : Ptr} {k : Color} {x : BinTree Color}
    (hf : Focus d c (join s y k x .nil)) :
    ∃ d', d.splice y x.ptr = some d' ∧ SameData d d' ∧ Focus d' c x ∧ d'.heap y = d.heap y := by
  obtain ⟨hyz, e, he, hp, hk, hx, hnil⟩ := hf.node
  obtain ⟨-, hsx, -⟩ := stored_join.mp hf.sub
  obtain ⟨hnode, hnc, hdis⟩ := nodup_plug hf.nodup
  obtain ⟨hyx, -, hnx, -, -⟩ := nodup_join.mp hnode
  obtain ⟨d₁, hd₁, hdata₁, hroot₁, hsx₁, hsame₁⟩ := adopt_spec hsx (above c) hnx
  have hy₁ : d₁.heap y = some e := (hsame₁ y hyx).trans he
  have hnodup : (plug c x).inorder.Nodup := by
    have := hf.nodup
    rw [inorder_plug] at this ⊢
    have hsub : x.inorder.Sublist (join s y k x .nil).inorder := by cases s <;> simp [join]
    exact this.sublist ((List.Sublist.refl _).append hsub |>.append (List.Sublist.refl _))
  have hpath₁ : StoredPath d₁.heap c y := by
    have hq : StoredPath d.heap c y := by simpa using hf.path
    exact hq.congr fun a ha => hsame₁ a fun hm => hdis (by simp [hm]) ha
  cases c with
  | nil =>
    refine ⟨{ d₁ with root := x.ptr }, ?_, ⟨hdata₁.data, hdata₁.brk, hdata₁.size, hdata₁.first,
      hdata₁.last⟩, ⟨trivial, hsx₁, rfl, hnodup⟩, hy₁.trans he.symm⟩
    simp only [above_nil] at hp hd₁
    simp [splice, he, hp, hd₁, hy₁]
  | cons f c =>
    simp only [above_cons] at hp hd₁ hsx₁
    obtain ⟨⟨hfz, p, hpe, hpp, hpk, hps, hpf⟩, hsib, hup⟩ := hpath₁
    obtain ⟨hfs, hfc, -, -, -⟩ := nodup_pathAddrs_cons.mp hnc
    obtain ⟨d₂, hd₂, hdata₂, hroot₂, hf₂, hsame₂⟩ :=
      store_spec (fun p => p.withChild f.side x.ptr) (by simp) hpe
    have hyc : y ∉ pathAddrs (f :: c) := hdis (by simp)
    have hxc : ∀ a ∈ x.inorder, a ∉ pathAddrs (f :: c) := fun a ha => hdis (by simp [ha])
    simp only [mem_pathAddrs_cons, not_or] at hyc hxc
    have hsy := ptr_ne_of_not_mem hyc.2.1 hyz
    have hside : (if y = p.lesser then d₁.store f.addr fun p => p.withChild .lesser x.ptr
        else d₁.store f.addr fun p => p.withChild .greater x.ptr) = some d₂ := by
      cases hs : f.side <;> simp_all [Entry.child, Side.flip, eq_comm]
    refine ⟨d₂, ?_, hdata₁.trans hdata₂, ⟨⟨⟨hfz, _, hf₂, ?_⟩, ?_, ?_⟩, ?_, ?_, hnodup⟩, ?_⟩
    · simpa [splice, he, hp, hd₁, hy₁, hfz, hpe] using hside
    · simp [hpp, hpk, hpf]
    · exact hsib.congr fun a ha => hsame₂ a (by rintro rfl; exact hfs ha)
    · exact hup.congr fun a ha => hsame₂ a (by rintro rfl; exact hfc ha)
    · exact hsx₁.congr fun a ha => hsame₂ a (hxc a ha).1
    · rw [hroot₂, hroot₁, hf.root]
      exact ptr_plug_congr c (by simp)
    · rw [hsame₂ y hyc.1, hy₁, he]

theorem replaceChild_spec {f : Frame Color} {y : Ptr} {n : Entry Key Value}
    (hpath : StoredPath d.heap (f :: c) t.ptr) (hnc : (pathAddrs (f :: c)).Nodup)
    (hz : t.ptr ≠ NULL) (hs : t.ptr ∉ f.sib.inorder)
    (hy : d.heap y = some n) (hyz : y ≠ NULL) (hyc : y ∉ pathAddrs (f :: c)) :
    ∃ d', d.replaceChild f.addr t.ptr y = some d' ∧ SameData d d' ∧ d'.root = d.root ∧
      StoredPath d'.heap (f :: c) y ∧ d'.heap y = some (n.withParent f.addr) ∧
      ∀ a, a ≠ y → a ∉ pathAddrs (f :: c) → d'.heap a = d.heap a := by
  obtain ⟨⟨hfz, p, hpe, hpp, hpk, hps, hpf⟩, hsib, hup⟩ := hpath
  obtain ⟨hfs, hfc, -, -, -⟩ := nodup_pathAddrs_cons.mp hnc
  simp only [mem_pathAddrs_cons, not_or] at hyc
  obtain ⟨d', hd, hdata, hroot, hdp, hdy, hsame⟩ :=
    setChild_spec (s := f.side) hpe (fun _ => ⟨n, hy⟩) hyc.1
  have hsib' := ptr_ne_of_not_mem hs hz
  have hside : (if p.lesser = t.ptr then d.setLesser f.addr y else d.setGreater f.addr y) = some d' := by
    cases hfs : f.side <;> simp_all [Entry.child, Side.flip, setLesser, setGreater]
  refine ⟨d', by simpa [replaceChild, hpe] using hside, hdata, hroot,
    ⟨⟨hfz, _, hdp, by simp [hpp, hpk, hpf]⟩, ?_, ?_⟩, by simpa [hy] using hdy hyz, ?_⟩
  · exact hsib.congr fun a ha =>
      hsame a (by rintro rfl; exact hfs ha) (by rintro - rfl; exact hyc.2.1 ha)
  · exact hup.congr fun a ha =>
      hsame a (by rintro rfl; exact hfc ha) (by rintro - rfl; exact hyc.2.2 ha)
  · intro a hay ha
    simp only [mem_pathAddrs_cons, not_or] at ha
    exact hsame a ha.1 fun _ => hay

/-- An entry outside the tree takes over the links and the color of the focused node. -/
theorem replaceEntry_links {l r : BinTree Color} {a y : Ptr} {k : Color} {n : Entry Key Value}
    (hf : Focus d c (.node l a k r)) (hy : d.heap y = some n) (hyz : y ≠ NULL)
    (hnew : y ∉ (plug c (.node l a k r)).inorder) :
    ∃ d', d.replaceEntry a y = ((d'.replaceBelow (above c) a y).bind fun d =>
        if a = d.root then some { d with root := y } else some d) ∧
      SameData d d' ∧ d'.root = d.root ∧ NodeAt d'.heap y (above c) k .lesser l.ptr r.ptr ∧
      Stored d'.heap l y ∧ Stored d'.heap r y ∧ StoredPath d'.heap c a := by
  obtain ⟨⟨haz, e, he, hp, hk, hl, hr⟩, hsl, hsr⟩ := hf.sub
  obtain ⟨hnode, hnc, hdis⟩ := nodup_plug hf.nodup
  simp only [mem_plug, inorder_node, List.mem_append, List.mem_cons, not_or] at hnew
  obtain ⟨⟨hyl, hya, hyr⟩, hyc⟩ := hnew
  simp only [inorder_node, List.nodup_append', List.nodup_cons, List.disjoint_cons_right] at hnode
  obtain ⟨hnl, ⟨har, hnr⟩, hal, hlr⟩ := hnode
  have hly := ptr_ne_of_not_mem hyl hyz
  have hry := ptr_ne_of_not_mem hyr hyz
  obtain ⟨d₁, hd₁, hdata₁, hroot₁, hy₁, hl₁, hsame₁⟩ :=
    setChild_spec (s := .lesser) (q := l.ptr) hy (fun hz => (hsl.live (ptr_mem_of_ne_zero hz)).2) hly
  have hr₁ : ∀ b ∈ r.inorder, d₁.heap b = d.heap b := fun b hb =>
    hsame₁ b (by rintro rfl; exact hyr hb) (by rintro hz rfl; exact hlr (ptr_mem_of_ne_zero hz) hb)
  have ha₁ : d₁.heap a = some e := (hsame₁ a (Ne.symm hya)
    (by rintro hz rfl; exact hal (ptr_mem_of_ne_zero hz))).trans he
  obtain ⟨d₂, hd₂, hdata₂, hroot₂, hy₂, hr₂, hsame₂⟩ :=
    setChild_spec (s := .greater) (q := r.ptr) hy₁
      (fun hz => by simpa [hr₁ _ (ptr_mem_of_ne_zero hz)] using (hsr.live (ptr_mem_of_ne_zero hz)).2) hry
  have ha₂ : d₂.heap a = some e := (hsame₂ a (Ne.symm hya)
    (by rintro hz rfl; exact har (ptr_mem_of_ne_zero hz))).trans ha₁
  obtain ⟨d₃, hd₃, hdata₃, hroot₃, hy₃, hsame₃⟩ :=
    store_spec (fun n => (n.withParent e.parent).withColor e.color) (by simp) hy₂
  have hother : ∀ b, b ≠ y → (l.ptr ≠ NULL → b ≠ l.ptr) → (r.ptr ≠ NULL → b ≠ r.ptr) →
      d₃.heap b = d.heap b := fun b hby hbl hbr =>
    (hsame₃ b hby).trans ((hsame₂ b hby hbr).trans (hsame₁ b hby hbl))
  refine ⟨d₃, ?_, hdata₁.trans (hdata₂.trans hdata₃), hroot₃.trans (hroot₂.trans hroot₁),
    ⟨hyz, _, hy₃, by simpa using hp, by simpa using hk, rfl, rfl⟩, ?_, ?_, ?_⟩
  · rw [← hp]
    simp [replaceEntry, hya, he, show e.lesser = l.ptr from hl, setLesser, hd₁, ha₁,
      show e.greater = r.ptr from hr, setGreater, hd₂, ha₂, hd₃]
  · refine hsl.reparent hnl (fun hz => ?_) fun b hb hbl => ?_
    · have hm := ptr_mem_of_ne_zero hz
      rw [hsame₃ _ hly, hsame₂ _ hly (by rintro h h'; exact hlr hm (h' ▸ ptr_mem_of_ne_zero h)), hl₁ hz]
    · exact hother b (by rintro rfl; exact hyl hb) (fun _ => hbl)
        (by rintro h rfl; exact hlr hb (ptr_mem_of_ne_zero h))
  · refine hsr.reparent hnr (fun hz => ?_) fun b hb hbr => ?_
    · rw [hsame₃ _ hry, hr₂ hz, hr₁ _ (ptr_mem_of_ne_zero hz)]
    · exact hother b (by rintro rfl; exact hyr hb)
        (by rintro h rfl; exact hlr (ptr_mem_of_ne_zero h) hb) (fun _ => hbr)
  · exact hf.path.congr fun b hb => hother b (by rintro rfl; exact hyc hb)
      (by rintro h rfl; exact hdis (by simp [ptr_mem_of_ne_zero h]) hb)
      (by rintro h rfl; exact hdis (by simp [ptr_mem_of_ne_zero h]) hb)

/-- It then takes its place too. -/
theorem replaceEntry_spec {l r : BinTree Color} {a y : Ptr} {k : Color} {n : Entry Key Value}
    (hf : Focus d c (.node l a k r)) (hy : d.heap y = some n) (hyz : y ≠ NULL)
    (hnew : y ∉ (plug c (.node l a k r)).inorder) :
    ∃ d', d.replaceEntry a y = some d' ∧ SameData d d' ∧ Focus d' c (.node l y k r) := by
  obtain ⟨d₃, hrun, hdata, hroot₃, hn₃, hl₃, hr₃, hpath₃⟩ := replaceEntry_links hf hy hyz hnew
  obtain ⟨haz, -⟩ := hf.sub.1
  obtain ⟨hnode, hnc, hdis⟩ := nodup_plug hf.nodup
  have hfr := hf.nodup
  simp only [mem_plug, inorder_node, List.mem_append, List.mem_cons, not_or] at hnew
  obtain ⟨⟨hyl, hya, hyr⟩, hyc⟩ := hnew
  rw [hrun]
  cases c with
  | nil =>
    have hroot : a = d₃.root := hf.root.symm.trans hroot₃.symm
    simp only [inorder_node, List.nodup_append', List.nodup_cons, List.disjoint_cons_right] at hnode
    refine ⟨{ d₃ with root := y }, by simp [above, replaceBelow, ← hroot], ⟨hdata.data, hdata.brk, hdata.size,
      hdata.first, hdata.last⟩, ⟨trivial, ⟨hn₃, hl₃, hr₃⟩, rfl, ?_⟩⟩
    simp [List.nodup_append', List.nodup_cons, *]
  | cons f c =>
    obtain ⟨-, n₃, hy₃, -, hk, hl, hr⟩ := hn₃
    have haf : a ∉ pathAddrs (f :: c) := hdis (by simp)
    simp only [mem_pathAddrs_cons, not_or] at haf
    obtain ⟨d₄, hd₄, hdata₄, hroot₄, hpath₄, hy₄, hsame₄⟩ :=
      replaceChild_spec (t := .node l a k r) hpath₃ hnc haz haf.2.1 hy₃ hyz hyc
    have hroot : ¬a = d₄.root := by
      rw [hroot₄, hroot₃]
      exact hf.ne_root (by simp)
    have hfz := hpath₃.1.1
    refine ⟨d₄, ?_, hdata.trans hdata₄, ⟨hpath₄, ⟨?_, ?_, ?_⟩, ?_, ?_⟩⟩
    · simp only [ptr_node] at hd₄
      simp [above, replaceBelow, hfz, hd₄, hroot]
    · exact ⟨hyz, _, hy₄, by simp, by simpa using hk, by simpa using hl, by simpa using hr⟩
    · exact hl₃.congr fun b hb => hsame₄ b (by rintro rfl; exact hyl hb)
        (hdis (by simp [hb]))
    · exact hr₃.congr fun b hb => hsame₄ b (by rintro rfl; exact hyr hb)
        (hdis (by simp [hb]))
    · rw [hroot₄, hroot₃, hf.root]
      exact ptr_plug_congr c (by simp)
    · rw [inorder_plug] at hfr ⊢
      have hyb : y ∉ before (f :: c) ++ after (f :: c) := hyc
      simp only [inorder_node] at hfr ⊢
      grind

end Dictionary

end Srl
