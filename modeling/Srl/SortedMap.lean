import Mathlib.Data.List.Induction
import Mathlib.Order.Lattice

namespace SortedMap

variable {K V O : Type*} [LinearOrder O] {rank : K → O}

/-- `map[k] = v` on the bindings of a map in the order of their keys. -/
def put (rank : K → O) (k : K) (v : V) : List (K × V) → List (K × V)
  | [] => [(k, v)]
  | b :: m =>
    if rank k < rank b.1 then (k, v) :: b :: m
    else if rank b.1 < rank k then b :: put rank k v m
    else (b.1, v) :: m

/-- The bindings are in the order of their keys, and no key has two. -/
def Sorted (rank : K → O) (m : List (K × V)) : Prop := m.Pairwise fun a b => rank a.1 < rank b.1

variable {k : K} {v : V} {m : List (K × V)}

theorem mem_put {b : K × V} (h : b ∈ put rank k v m) : rank b.1 = rank k ∧ b.2 = v ∨ b ∈ m := by
  induction m with
  | nil =>
    rw [List.mem_singleton.mp h]
    exact Or.inl ⟨rfl, rfl⟩
  | cons a m ih =>
    unfold put at h
    split at h
    · obtain rfl | h := List.mem_cons.mp h
      · exact Or.inl ⟨rfl, rfl⟩
      · exact Or.inr h
    · split at h
      · obtain rfl | h := List.mem_cons.mp h
        · exact Or.inr List.mem_cons_self
        · exact (ih h).imp_right (List.mem_cons_of_mem a)
      · next h₁ h₂ =>
        obtain rfl | h := List.mem_cons.mp h
        · exact Or.inl ⟨le_antisymm (not_lt.mp h₁) (not_lt.mp h₂), rfl⟩
        · exact Or.inr (List.mem_cons_of_mem a h)

theorem put_sorted (h : Sorted rank m) : Sorted rank (put rank k v m) := by
  induction m with
  | nil => exact List.pairwise_singleton _ _
  | cons b m ih =>
    obtain ⟨hb, hm⟩ := List.pairwise_cons.mp h
    unfold put
    split
    · next hlt =>
      refine List.pairwise_cons.mpr ⟨?_, h⟩
      intro a ha
      obtain rfl | ha := List.mem_cons.mp ha
      · exact hlt
      · exact lt_trans hlt (hb a ha)
    · split
      · next hlt =>
        refine List.pairwise_cons.mpr ⟨?_, ih hm⟩
        intro a ha
        obtain ⟨hrank, -⟩ | ha := mem_put ha
        · rw [hrank]
          exact hlt
        · exact hb a ha
      · exact List.pairwise_cons.mpr ⟨hb, hm⟩

/-- A key behind all the others is put at the end. -/
theorem put_last (h : ∀ b ∈ m, rank b.1 < rank k) : put rank k v m = m ++ [(k, v)] := by
  induction m with
  | nil => rfl
  | cons b m ih =>
    have hb := h b List.mem_cons_self
    rw [put, if_neg (not_lt.mpr hb.le), if_pos hb, ih fun a ha => h a (List.mem_cons_of_mem b ha), List.cons_append]

/-- `map[k] = v` for one binding after the other. -/
def ofList (rank : K → O) (bs : List (K × V)) : List (K × V) := bs.foldl (fun m b => put rank b.1 b.2 m) []

theorem ofList_concat (bs : List (K × V)) (b : K × V) :
    ofList rank (bs ++ [b]) = put rank b.1 b.2 (ofList rank bs) := by
  rw [ofList, List.foldl_append]
  rfl

/-- Bindings in the order of their keys make a map that lists them as they stand. -/
theorem ofList_of_sorted {bs : List (K × V)} (h : Sorted rank bs) : ofList rank bs = bs := by
  induction bs using List.reverseRecOn with
  | nil => rfl
  | append_singleton bs b ih =>
    obtain ⟨hbs, -, hlast⟩ := List.pairwise_append.mp h
    rw [ofList_concat, ih hbs, put_last fun a ha => hlast a ha b (by simp)]

end SortedMap
