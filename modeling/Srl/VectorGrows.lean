import Srl.VectorValues

namespace Srl

open Cells Session

namespace Vector

variable {α : Type} {v v' w : Vector α} {l : List α} {a : α} {n : Nat}

/-- The elements, in their order. -/
def values (v : Vector α) : List α := v.cells.take v.size

/-- A vector of the default initial size whose array is no larger than the next `add` asks for. -/
structure Grows (v : Vector α) (l : List α) : Prop where
  holds : Holds v l
  init_size_eq : v.init_size = 32
  array_size_le : v.array_size ≤ v.rounded (l.length + 1) 32

theorem rounded_mono {m : Nat} (h : n ≤ m) (hfew : max m v.init_size + 32 < 2 ^ 32) :
    v.rounded n 32 ≤ v.rounded m 32 := by
  have hround : ∀ k, max k v.init_size + 32 < 2 ^ 32 → v.rounded k 32 = (max k v.init_size + 32) / 32 * 32 := by
    intro k hk
    have hmax : (if k < v.init_size then v.init_size else k) = max k v.init_size := by
      split <;> omega
    rw [rounded, hmax]
    exact @roundup_pow (max k v.init_size + 1) 5 (by decide) (by omega)
  rw [hround n (by omega), hround m hfew]
  exact Nat.mul_le_mul_right 32 (Nat.div_le_div_right (by omega))

theorem add_array_size {resize : Nat → Call α Unit} (hw : resize ((v.size + 1) % 2 ^ 32) v = (.ok (), w))
    (h : add resize a v = (.ok (), v')) : v'.array_size = w.array_size := by
  unfold add at h
  rw [get_bind, bind_ok hw, get_bind] at h
  by_cases hroom : w.size < w.cells.length
  · rw [bind_ok (write_eq hroom)] at h
    cases h
    rfl
  · have hfault : write w.size a w = (.error .fault, w) := by
      unfold write
      rw [get_bind, if_neg hroom]
      rfl
    rw [bind_error hfault] at h
    cases h

namespace Grows

variable (fresh : Nat → α)

theorem add_spec (h : Grows v l) (hfew : l.length + 2 + 32 < 2 ^ 32) (a : α) :
    ∃ v', add (resizeValues fresh) a v = (.ok (), v') ∧ Grows v' (l ++ [a]) := by
  have hinit := h.init_size_eq
  have hsize : (v.size + 1) % 2 ^ 32 = l.length + 1 := by
    rw [h.holds.size_eq, Nat.mod_eq_of_lt (by omega)]
  obtain ⟨v', hv', hholds, hi⟩ := addValues_spec fresh h.holds (by omega) (by omega) a
  rw [kept_eq h.array_size_le] at hholds
  refine ⟨v', hv', hholds, hi.trans hinit, ?_⟩
  have hresize := resizeValues_eq fresh h.holds.toStores (by omega : 0 < l.length + 1)
  rw [← hsize] at hresize
  rw [add_array_size hresize hv', (resized_array_size fresh h.holds.toStores _).1, hsize, List.length_append,
    List.length_singleton, rounded, rounded, hi]
  exact rounded_mono (Nat.le_succ _) (by omega)

end Grows

/-- However large the array was, it is of the initial size after a `clear`. -/
theorem Holds.clear_grows (fresh : Nat → α) (h : Holds v l) (hinit : v.init_size = 32) :
    ∃ v', clearValues fresh v = (.ok (), v') ∧ Grows v' [] := by
  obtain ⟨v', hv', hholds, hi⟩ := clearValues_spec fresh h (by omega)
  refine ⟨v', hv', hholds, hi.trans hinit, ?_⟩
  have hresize := resizeValues_eq fresh h.toStores (by omega : 0 < v.init_size)
  have hclear := hv'
  unfold clearValues at hclear
  rw [get_bind, bind_ok hresize] at hclear
  cases hclear
  show (v.resized fresh v.init_size).array_size ≤ _
  rw [(resized_array_size fresh h.toStores _).1, rounded, rounded, hinit]
  show roundup 33 32 ≤ roundup _ 32
  rw [show (v.resized fresh 32).init_size = 32 from (resized_fields fresh v 32).2.1.trans hinit]
  exact Nat.le_refl _

end Vector

end Srl
