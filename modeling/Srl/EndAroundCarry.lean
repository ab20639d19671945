import Mathlib.Algebra.Order.Ring.Int

namespace EndAroundCarry

variable {B n : Nat}

/-- A number whose digits above the first, in base `B`, are added to the first one. -/
def carry (B n : Nat) : Nat := n / B + n % B

/-- `B` is the base, plus one: with `carry` one unit of the second digit counts as one of the first. -/
theorem carry_add (hB : 0 < B) (n : Nat) : carry B n + n / B * (B - 1) = n := by
  obtain ⟨b, rfl⟩ : ∃ b, B = b + 1 := ⟨B - 1, by omega⟩
  have hdiv := Nat.div_add_mod' n (b + 1)
  rw [Nat.mul_succ] at hdiv
  rw [carry, Nat.add_sub_cancel]
  omega

theorem carry_lt (hB : 2 ≤ B) (hn : B ≤ n) : carry B n < n := by
  have hadd := carry_add (by omega : 0 < B) n
  have hpos : 0 < n / B * (B - 1) := Nat.mul_pos (Nat.div_pos hn (by omega)) (by omega)
  omega

theorem carry_mod (hB : 0 < B) (n : Nat) : carry B n % (B - 1) = n % (B - 1) := by
  conv => rhs; rw [← carry_add hB n, Nat.add_mul_mod_self_right]

theorem carry_pos (hn : 0 < n) : 0 < carry B n := by
  have hdiv := Nat.div_add_mod n B
  obtain hzero | hpos := Nat.eq_zero_or_pos (n / B)
  · rw [hzero, Nat.mul_zero] at hdiv
    rw [carry]
    omega
  · exact Nat.add_pos_left hpos _

/-- The carries are added until one digit is left. -/
def fold (B n : Nat) : Nat := if 2 ≤ B ∧ B ≤ n then fold B (carry B n) else n
termination_by n
decreasing_by
  next h => exact carry_lt h.1 h.2

theorem fold_of_lt (hn : n < B) : fold B n = n := by
  rw [fold, if_neg fun h => Nat.not_lt.mpr h.2 hn]

theorem fold_of_le (hB : 2 ≤ B) (hn : B ≤ n) : fold B n = fold B (carry B n) := by
  rw [fold, if_pos ⟨hB, hn⟩]

/-- One digit is left, with the same remainder modulo `B - 1`; it is 0 for no other number than 0. -/
theorem fold_spec (hB : 2 ≤ B) (n : Nat) :
    fold B n < B ∧ fold B n % (B - 1) = n % (B - 1) ∧ (0 < n → 0 < fold B n) := by
  induction n using Nat.strong_induction_on with
  | h n ih =>
    obtain hlt | hle := Nat.lt_or_ge n B
    · rw [fold_of_lt hlt]
      exact ⟨hlt, rfl, fun hpos => hpos⟩
    · obtain ⟨hdigit, hmod, hpos⟩ := ih (carry B n) (carry_lt hB hle)
      rw [fold_of_le hB hle]
      exact ⟨hdigit, hmod.trans (carry_mod (by omega) n), fun h => hpos (carry_pos h)⟩

/-- A sum with the complement of what it folds to folds to the last digit. -/
theorem fold_complement (hB : 2 ≤ B) (n : Nat) : fold B (n + (B - 1 - fold B n)) = B - 1 := by
  obtain ⟨hdigit, hmod, -⟩ := fold_spec hB n
  obtain ⟨hdigit', hmod', hpos'⟩ := fold_spec hB (n + (B - 1 - fold B n))
  have hzero : (n + (B - 1 - fold B n)) % (B - 1) = 0 := by
    rw [Nat.add_mod, ← hmod, ← Nat.add_mod, Nat.add_sub_cancel' (by omega), Nat.mod_self]
  have hsum : 0 < n + (B - 1 - fold B n) := by
    obtain rfl | hn := Nat.eq_zero_or_pos n
    · rw [fold_of_lt (by omega)]
      omega
    · exact Nat.add_pos_left hn _
  obtain ⟨k, hk⟩ := Nat.dvd_of_mod_eq_zero (hmod'.trans hzero)
  have hone : k = 1 := by
    have hfold := hpos' hsum
    rw [hk] at hfold hdigit'
    have hk : 0 < k := Nat.pos_of_mul_pos_left hfold
    have hk' : k < 2 := by
      by_contra hlarge
      have hle : (B - 1) * 2 ≤ (B - 1) * k := Nat.mul_le_mul_left _ (by omega)
      omega
    omega
  rw [hk, hone, Nat.mul_one]

end EndAroundCarry
