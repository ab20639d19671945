import Mathlib.Algebra.Order.Ring.Int

namespace CheckedInt

variable {α : Type} {n k d : Int}

/-- The values of an `int`. -/
def Fits (n : Int) : Prop := -2147483648 ≤ n ∧ n ≤ 2147483647

instance (n : Int) : Decidable (Fits n) := inferInstanceAs (Decidable (_ ∧ _))

/-- The value of an expression in `int`; an overflow has none. -/
def int (n : Int) : Option Int := if Fits n then some n else none

theorem int_eq (h : Fits n) : int n = some n := if_pos h

theorem int_inv (h : int n = some k) : k = n ∧ Fits n := by
  unfold int at h
  split at h
  next hfits => exact ⟨(Option.some.inj h).symm, hfits⟩
  next => cases h

theorem int_bind (h : Fits n) (f : Int → Option α) : int n >>= f = f n := by
  rw [int_eq h]
  rfl

/-- A computation that goes through an `int` has a value that fits. -/
theorem bind_inv {f : Int → Option α} {a : α} (h : int n >>= f = some a) : Fits n ∧ f n = some a := by
  obtain ⟨k, hk, hf⟩ := Option.bind_eq_some_iff.mp h
  obtain ⟨rfl, hfits⟩ := int_inv hk
  exact ⟨hfits, hf⟩

/-- The division of the language, which drops the fraction. -/
theorem tdiv_eq_ite (hd : 0 < d) (n : Int) : n.tdiv d = if 0 ≤ n ∨ d ∣ n then n / d else n / d + 1 := by
  rw [Int.tdiv_eq_ediv, Int.sign_eq_one_of_pos hd]
  split
  next => exact Int.add_zero _
  next => rfl

theorem tdiv_bounds (hd : 0 < d) (hlow : -(d * k) ≤ n) (hhigh : n ≤ d * k) : -k ≤ n.tdiv d ∧ n.tdiv d ≤ k := by
  have hmul := Int.mul_tdiv_cancel_left k hd.ne'
  have hle := Int.tdiv_le_tdiv hd hlow
  have hge := Int.tdiv_le_tdiv hd hhigh
  rw [Int.neg_tdiv, hmul] at hle
  rw [hmul] at hge
  exact ⟨hle, hge⟩

end CheckedInt
