import Srl.DictionaryStored

namespace Srl

open SearchTree

variable {Key Value : Type}

namespace Dictionary

theorem setChild_spec {d : Dictionary Key Value} {s : Side} {p q : Ptr} {e : Entry Key Value}
    (hp : d.heap p = some e) (hq : q ≠ NULL → ∃ n, d.heap q = some n) (hne : q ≠ p) :
    ∃ d', d.setChild s p q = some d' ∧ SameData d d' ∧ d'.root = d.root ∧
      d'.heap p = some (e.withChild s q) ∧
      (q ≠ NULL → d'.heap q = (d.heap q).map fun n => n.withParent p) ∧
      ∀ a, a ≠ p → (q ≠ NULL → a ≠ q) → d'.heap a = d.heap a := by
  have hstore := store_eq (fun e => e.withChild s q) hp
  have hdata := sameData_store (fun e => by simp) hstore
  by_cases hz : q = NULL
  · refine ⟨_, by simp only [setChild, hstore]; simp [adopt, hz], hdata, rfl, by simp,
      fun h => absurd hz h, fun a ha _ => by simp [Function.update_of_ne ha]⟩
  · obtain ⟨n, hn⟩ := hq hz
    let d₁ : Dictionary Key Value := { d with heap := Function.update d.heap p (some (e.withChild s q)) }
    have hn' : d₁.heap q = some n := by simpa [d₁, Function.update_of_ne hne] using hn
    have hstore' := store_eq (fun n => n.withParent p) hn'
    refine ⟨_, by simp only [setChild, hstore]; simpa [adopt, hz] using hstore', hdata.trans
      (sameData_store (fun e => by simp) hstore'), rfl, ?_, fun _ => by simp [hn], ?_⟩
    · simp [d₁, Function.update_of_ne (Ne.symm hne)]
    · intro a ha haq
      simp [d₁, Function.update_of_ne ha, Function.update_of_ne (haq hz)]

/-- The parent of the focused node, or the root pointer, is made to point to `q`. -/
theorem relink_spec {d : Dictionary Key Value} {c : List (Frame Color)} {t : BinTree Color} (s : Side)
    {q : Ptr} {e : Entry Key Value} (hf : Focus d c t) (ht : t ≠ .nil) (hq : d.heap q = some e)
    (hqz : q ≠ NULL) (hqc : q ∉ pathAddrs c) :
    ∃ d', d.relink s t.ptr (above c) q = some d' ∧ SameData d d' ∧ StoredPath d'.heap c q ∧
      d'.heap q = some (e.withParent (above c)) ∧
      (∀ a ∈ t.inorder, a ≠ q → d'.heap a = d.heap a) ∧
      (∀ t' : BinTree Color, t'.ptr = q → d'.root = (plug c t').ptr) := by
  cases c with
  | nil =>
    have hr : t.ptr = d.root := hf.root.symm
    have hstore := store_eq (d := { d with root := q }) (fun e => e.withParent NULL) hq
    refine ⟨_, by simp only [relink, if_pos hr]; exact hstore,
      (sameData_store (fun e => by simp) hstore).of_root, trivial, by simp, ?_, ?_⟩
    · intro a _ ha
      simp [Function.update_of_ne ha]
    · intro t' h
      simp [h]
  | cons f c =>
    obtain ⟨hz, p, hp, hpp, hpc, hps, hpf⟩ := hf.frame
    obtain ⟨-, hnc, hdis⟩ := nodup_plug hf.nodup
    obtain ⟨hfs, hfc, -, -, -⟩ := nodup_pathAddrs_cons.mp hnc
    simp only [mem_pathAddrs_cons, not_or] at hqc
    have hside : ∀ s', (if p.child s' = t.ptr then d.setChild s' f.addr q
        else d.setChild s'.flip f.addr q) = d.setChild f.side f.addr q := by
      intro s'
      rcases Side.eq_or_flip f.side s' with rfl | rfl
      · simp [hps]
      · have : f.sib.ptr ≠ t.ptr :=
          ptr_ne_of_not_mem (t := f.sib) (fun hm => hdis (ptr_mem ht) (by simp [hm]))
            (hf.sub.ptr_ne_null ht)
        simp [hpf, this]
    obtain ⟨d', hd, hdata, hroot, hdp, hdq, hsame⟩ :=
      setChild_spec (s := f.side) hp (fun _ => ⟨e, hq⟩) hqc.1
    refine ⟨d', ?_, hdata, ⟨⟨hz, p.withChild f.side q, hdp, ?_, ?_, ?_, ?_⟩, ?_, ?_⟩, ?_, ?_, ?_⟩
    · simp only [relink, if_neg (hf.ne_root ht), above_cons, hp]
      exact (hside s).trans hd
    · simpa using hpp
    · simpa using hpc
    · simp
    · simpa using hpf
    · exact hf.path.2.1.congr fun a ha =>
        hsame a (by rintro rfl; exact hfs ha) (by rintro - rfl; exact hqc.2.1 ha)
    · exact hf.path.2.2.congr fun a ha =>
        hsame a (by rintro rfl; exact hfc ha) (by rintro - rfl; exact hqc.2.2 ha)
    · simpa [hq] using hdq hqz
    · intro a ha haq
      exact hsame a (by rintro rfl; exact hdis ha (by simp)) fun _ => haq
    · intro t' ht'
      rw [hroot, hf.root]
      exact ptr_plug_congr c (by simp)

/-- A rotation at the focused node takes its child on side `s` up. -/
theorem Focus.rotate {d : Dictionary Key Value} {c : List (Frame Color)} {s : Side} {r x : Ptr}
    {kr kx : Color} {ta tb tc : BinTree Color}
    (hf : Focus d c (join s r kr (join s x kx ta tb) tc)) :
    ∃ d', d.rotate s r = some d' ∧ SameData d d' ∧
      Focus d' c (join s x kx ta (join s r kr tb tc)) := by
  obtain ⟨hrz, er, her, hrp, hrc, hrs, hrf⟩ := hf.node
  obtain ⟨-, hsx, hsc⟩ := stored_join.mp hf.sub
  obtain ⟨⟨hxz, ex, hex, hxp, hxc, hxs, hxf⟩, hsa, hsb⟩ := stored_join.mp hsx
  obtain ⟨hnode, hnc, hdis⟩ := nodup_plug hf.nodup
  obtain ⟨hrx, hrtc, hnx, hntc, hxtc⟩ := nodup_join.mp hnode
  obtain ⟨hxa, hxb, hna, hnb, hab⟩ := nodup_join.mp hnx
  simp only [mem_join, not_or] at hrx
  have hxpath : x ∉ pathAddrs c := hdis (by simp)
  obtain ⟨d₁, hd₁, hdata₁, hpath₁, hx₁, hsame₁, hroot₁⟩ :=
    relink_spec s hf (by cases s <;> simp [join]) hex hxz hxpath
  simp only [ptr_join] at hd₁ hrs
  have hr₁ : d₁.heap r = some er := (hsame₁ r (by simp) hrx.1).trans her
  have hbr : tb.ptr ≠ r := ptr_ne_of_not_mem hrx.2.2 hrz
  have hbx : tb.ptr ≠ x := ptr_ne_of_not_mem hxb hxz
  have hb₁ : ∀ a ∈ tb.inorder, d₁.heap a = d.heap a :=
    fun a ha => hsame₁ a (by simp [ha]) (by rintro rfl; exact hxb ha)
  obtain ⟨d₂, hd₂, hdata₂, hroot₂, hr₂, hb₂, hsame₂⟩ :=
    setChild_spec (s := s) (q := tb.ptr) hr₁ (fun hz => by
      have hm := ptr_mem_of_ne_zero hz
      simpa [hb₁ _ hm] using (hsb.live hm).2) hbr
  have hx₂ := (hsame₂ x (Ne.symm hrx.1) fun _ => Ne.symm hbx).trans hx₁
  obtain ⟨d₃, hd₃, hdata₃, hroot₃, hx₃, hr₃, hsame₃⟩ :=
    setChild_spec (s := s.flip) hx₂ (fun _ => ⟨_, hr₂⟩) hrx.1
  have hother : ∀ a, a ≠ r → a ≠ x → (tb.ptr ≠ NULL → a ≠ tb.ptr) → d₃.heap a = d₁.heap a :=
    fun a har hax hab => (hsame₃ a hax fun _ => har).trans (hsame₂ a har hab)
  have htop : NodeAt d₃.heap x (above c) kx s ta.ptr r :=
    ⟨hxz, _, hx₃, by simp, by simpa using hxc, by simpa using hxs, by simp⟩
  have hlow : NodeAt d₃.heap r x kr s tb.ptr tc.ptr :=
    ⟨hrz, _, by rw [hr₃ hrz, hr₂]; rfl, by simp, by simpa using hrc, by simp, by simpa using hrf⟩
  refine ⟨d₃, ?_, hdata₁.trans (hdata₂.trans hdata₃), ⟨?_, ?_, ?_, ?_⟩⟩
  · simp [Dictionary.rotate, her, hrs, hxz, hrp, hd₁, hx₁, hxf, hd₂, hd₃]
  · simp only [ptr_join]
    exact hpath₁.congr fun a ha => hother a (by rintro rfl; exact hdis (by simp) ha)
      (by rintro rfl; exact hxpath ha)
      (by rintro hz rfl; exact hdis (by simp [ptr_mem_of_ne_zero hz]) ha)
  · refine stored_join.mpr ⟨by simpa using htop, ?_, stored_join.mpr ⟨hlow, ?_, ?_⟩⟩
    · refine hsa.congr fun a ha => ?_
      have har : a ≠ r := by rintro rfl; exact hrx.2.1 ha
      have hax : a ≠ x := by rintro rfl; exact hxa ha
      rw [hother a har hax (by rintro hz rfl; exact hab ha (ptr_mem_of_ne_zero hz))]
      exact hsame₁ a (by simp [ha]) hax
    · refine hsb.reparent hnb ?_ fun a ha hne => ?_
      · intro hz
        rw [hsame₃ _ hbx fun _ => hbr, hb₂ hz, hb₁ _ (ptr_mem_of_ne_zero hz)]
      · have har : a ≠ r := by rintro rfl; exact hrx.2.2 ha
        have hax : a ≠ x := by rintro rfl; exact hxb ha
        rw [hother a har hax fun _ => hne, hb₁ a ha]
    · refine hsc.congr fun a ha => ?_
      have har : a ≠ r := by rintro rfl; exact hrtc ha
      have hax : a ≠ x := by rintro rfl; exact hxtc (by simp) ha
      rw [hother a har hax (by rintro hz rfl; exact hxtc (by simp [ptr_mem_of_ne_zero hz]) ha)]
      exact hsame₁ a (by simp [ha]) hax
  · rw [hroot₃, hroot₂]
    exact hroot₁ _ (by simp)
  · rw [inorder_plug_congr c (inorder_rotate s r x kr kx ta tb tc)]
    exact hf.nodup

end Dictionary

end Srl
