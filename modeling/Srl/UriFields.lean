import Srl.Uri

namespace Srl

open Bytes

namespace URI

/-- Texts with `&` between them. -/
def joined (fs : List Bytes) : Bytes := [38].intercalate fs

abbrev Field := Bytes × Bytes

def fieldText (f : Field) : Bytes := f.1 ++ 61 :: f.2

/-- A text without `NUL` and `&`. -/
def Clear (s : Bytes) : Prop := ∀ c ∈ s, c ≠ 0 ∧ c ≠ 38

/-- A key that can stand in a query. -/
def Key (k : Bytes) : Prop := k ≠ [] ∧ Clear k ∧ 61 ∉ k

/-- Texts that can be told apart when they are joined: `mid` reads an empty one only at the end. -/
structure Values (fs : List Bytes) : Prop where
  clear : ∀ f ∈ fs, Clear f
  filled : ∀ f ∈ fs.dropLast, f ≠ []

instance : DecidablePred Clear := fun s => inferInstanceAs (Decidable (∀ c ∈ s, c ≠ 0 ∧ c ≠ 38))
instance : DecidablePred Key := fun k => inferInstanceAs (Decidable (k ≠ [] ∧ Clear k ∧ 61 ∉ k))

@[simp] theorem joined_nil : joined [] = [] := rfl

@[simp] theorem joined_singleton (f : Bytes) : joined [f] = f := List.intercalate_singleton

theorem joined_cons (f : Bytes) {fs : List Bytes} (h : fs ≠ []) :
    joined (f :: fs) = f ++ 38 :: joined fs := by
  rw [joined, List.intercalate_cons_of_ne_nil h, List.append_assoc]
  rfl

theorem joined_append {fs gs : List Bytes} (hf : fs ≠ []) (hg : gs ≠ []) :
    joined (fs ++ gs) = joined fs ++ 38 :: joined gs := by
  induction fs with
  | nil => exact absurd rfl hf
  | cons f fs ih =>
    by_cases h : fs = []
    · rw [h, List.singleton_append, joined_cons f hg, joined_singleton]
    · rw [List.cons_append, joined_cons f (by simp [h]), ih h, joined_cons f h, List.append_assoc,
        List.cons_append]

theorem joined_ne_nil {f : Bytes} {fs : List Bytes} (hf : f ≠ []) : joined (f :: fs) ≠ [] := by
  by_cases h : fs = []
  · simpa [h] using hf
  · simp [joined_cons f h]

theorem countChar_joined {fs : List Bytes} (hfs : ∀ f ∈ fs, Clear f) :
    (joined fs).countChar 38 = fs.length - 1 := by
  have hne : ∀ c ∈ joined fs, c ≠ 0 := by
    induction fs with
    | nil => simp
    | cons f fs ih =>
      have hf := hfs f (by simp)
      have ih := ih fun g hg => hfs g (by simp [hg])
      by_cases h : fs = []
      · rw [h, joined_singleton]
        exact fun c hc => (hf c hc).1
      · rw [joined_cons f h]
        intro c hc
        obtain hc | rfl | hc : c ∈ f ∨ c = 38 ∨ c ∈ joined fs := by simpa using hc
        · exact (hf c hc).1
        · decide
        · exact ih c hc
  rw [countChar, cstr_of_ne hne]
  clear hne
  induction fs with
  | nil => rfl
  | cons f fs ih =>
    have hzero : f.count 38 = 0 := List.count_eq_zero.mpr fun h => (hfs f (by simp) 38 h).2 rfl
    by_cases h : fs = []
    · simp [h, hzero]
    · have hpos := List.length_pos_of_ne_nil h
      rw [joined_cons f h, List.count_append, List.count_cons_self, hzero, ih fun g hg => hfs g (by simp [hg]),
        List.length_cons]
      omega

theorem Values.tail {f : Bytes} {fs : List Bytes} (h : Values (f :: fs)) : Values fs := by
  refine ⟨fun g hg => h.clear g (by simp [hg]), fun g hg => h.filled g ?_⟩
  obtain _ | ⟨x, xs⟩ := fs
  · simp at hg
  · rw [List.dropLast_cons_cons]
    simp [hg]

theorem Values.head {f : Bytes} {fs : List Bytes} (h : Values (f :: fs)) (hfs : fs ≠ []) : f ≠ [] := by
  obtain _ | ⟨x, xs⟩ := fs
  · exact absurd rfl hfs
  · exact h.filled f (by rw [List.dropLast_cons_cons]; simp)

/-- `find` stops behind the first of the joined texts, or at the end. -/
theorem find_joined {s f : Bytes} {fs : List Bytes} {pos : Nat} (hs : s.drop pos = joined (f :: fs))
    (hf : Clear f) : s.find 38 pos = if fs = [] then none else some (pos + f.length) := by
  split
  next h =>
    rw [h, joined_singleton] at hs
    apply find_eq_none (by decide)
    rw [hs]
    exact fun c hc => (hf c hc).2
  next h =>
    rw [joined_cons f h] at hs
    exact find_eq hs (by decide) fun c hc => ⟨(hf c hc).2, (hf c hc).1⟩

theorem length_of_drop {s f : Bytes} {fs : List Bytes} {pos : Nat} (hs : s.drop pos = joined (f :: fs))
    (hpos : pos ≤ s.length) : if fs = [] then s.length = pos + f.length else pos + f.length + 1 ≤ s.length := by
  have hlen := congrArg List.length hs
  rw [List.length_drop] at hlen
  split
  next h =>
    rw [h, joined_singleton] at hlen
    omega
  next h =>
    rw [joined_cons f h, List.length_append, List.length_cons] at hlen
    omega

theorem drop_rest {s f : Bytes} {fs : List Bytes} {pos : Nat} (hs : s.drop pos = joined (f :: fs))
    (h : fs ≠ []) : s.drop (pos + f.length + 1) = joined fs := by
  rw [Nat.add_assoc, ← List.drop_drop, hs, joined_cons f h, ← List.drop_drop, List.drop_left]
  rfl

/-- `mid` reads the first of the joined texts. -/
theorem mid_joined {s f : Bytes} {fs : List Bytes} {pos : Nat} (hs : s.drop pos = joined (f :: fs))
    (hpos : pos ≤ s.length) (hf : f = [] → fs = []) : mid s pos f.length = f := by
  have hlen := length_of_drop hs hpos
  by_cases h : f = []
  · rw [hf h, h, joined_singleton] at hs
    rw [h, mid, List.length_nil, Nat.add_zero, if_pos hpos, hs]
    rfl
  · have hpre : s.drop pos = f ++ (joined (f :: fs)).drop f.length := by
      by_cases hfs : fs = []
      · rw [hs, hfs, joined_singleton, List.drop_length, List.append_nil]
      · rw [hs, joined_cons f hfs, List.drop_left]
    exact substr_eq hpre h

theorem sectionFrom_joined {s : Bytes} {fs : List Bytes} {pos n : Nat} (hs : s.drop pos = joined fs)
    (hpos : pos ≤ s.length) (hfs : Values fs) (hn : n < fs.length) : sectionFrom s 38 n pos = fs[n] := by
  induction n generalizing fs pos with
  | zero =>
    obtain ⟨f, fs, rfl⟩ := List.exists_cons_of_length_pos hn
    have hlen := length_of_drop hs hpos
    have hstop : (s.find 38 pos).getD s.length - pos = f.length := by
      rw [find_joined hs (hfs.clear f (by simp))]
      split
      next h =>
        rw [if_pos h] at hlen
        rw [Option.getD_none]
        omega
      next => rw [Option.getD_some, Nat.add_sub_cancel_left]
    rw [sectionFrom, hstop]
    exact mid_joined hs hpos fun h => by_contra fun hne => hfs.head hne h
  | succ n ih =>
    obtain ⟨f, fs, rfl⟩ := List.exists_cons_of_length_pos (Nat.zero_lt_of_lt hn)
    have hne : fs ≠ [] := by
      rintro rfl
      simp at hn
    have hlen := length_of_drop hs hpos
    rw [if_neg hne] at hlen
    rw [sectionFrom, find_joined hs (hfs.clear f (by simp)), if_neg hne]
    exact ih (drop_rest hs hne) hlen hfs.tail (by simpa using hn)

theorem section_joined {fs : List Bytes} {n : Nat} (hfs : Values fs) (hn : n < fs.length) :
    (joined fs).section 38 n = fs[n] :=
  sectionFrom_joined rfl (Nat.zero_le _) hfs hn

theorem valuesLoop_joined {key : Bytes} {vs : List Bytes} (hvs : Values vs) (n v : Nat) (query : Bytes)
    (hn : v + n = vs.length) :
    valuesLoop key (joined vs) n v query =
      query ++ (vs.drop v).flatMap fun w => 38 :: fieldText (key, w) := by
  induction n generalizing v query with
  | zero =>
    have hdrop : vs.drop v = [] := List.drop_eq_nil_of_le (by omega)
    simp [valuesLoop, hdrop]
  | succ n ih =>
    have hv : v < vs.length := by omega
    rw [valuesLoop, ih (v + 1) _ (by omega), section_joined hvs hv, List.drop_eq_getElem_cons hv,
      List.flatMap_cons, fieldText]
    simp

theorem joined_map {α : Type} (text : α → Bytes) (x : α) (xs : List α) :
    joined ((x :: xs).map text) = text x ++ xs.flatMap fun y => 38 :: text y := by
  induction xs generalizing x with
  | nil => simp
  | cons y ys ih => rw [List.map_cons, joined_cons _ (by simp), ih, List.flatMap_cons, List.cons_append]

/-- A round of `asString` writes one field for every value of its entry. -/
theorem addField_joined {key : Bytes} {vs : List Bytes} (hvs : Values vs) (hne : vs ≠ []) (query : Bytes) :
    addField key (joined vs) query = query ++ joined (vs.map fun v => fieldText (key, v)) := by
  have hcount := countChar_joined hvs.clear
  obtain ⟨v, vs, rfl⟩ := List.exists_cons_of_ne_nil hne
  rw [List.length_cons, Nat.add_sub_cancel] at hcount
  rw [addField, hcount, joined_map]
  split
  next h =>
    rw [section_joined hvs (by simp), valuesLoop_joined hvs _ _ _ (by rw [List.length_cons]; omega)]
    simp [fieldText]
  next h =>
    obtain rfl : vs = [] := List.eq_nil_of_length_eq_zero (by omega)
    simp [fieldText]

end URI

end Srl
