import Mathlib.Algebra.Order.Ring.Nat
import Mathlib.Data.Nat.Size

namespace WordBits

variable {w : Nat} {x y n u : BitVec w} {k : Nat}

/-- A word mixed with itself moved down is not mixed up with another: from the top bit down, each bit is found. -/
theorem xor_ushiftRight_injective (hk : 0 < k) (h : x ^^^ x >>> k = y ^^^ y >>> k) : x = y := by
  have hbit : ∀ d i, w ≤ i + d → x.getLsbD i = y.getLsbD i := by
    intro d
    induction d with
    | zero =>
      intro i hi
      rw [BitVec.getLsbD_of_ge x i hi, BitVec.getLsbD_of_ge y i hi]
    | succ d ih =>
      intro i hi
      have hi' := congrArg (fun z => z.getLsbD i) h
      simp only [BitVec.getLsbD_xor, BitVec.getLsbD_ushiftRight, ih (k + i) (by omega)] at hi'
      exact Bool.xor_left_inj.mp hi'
  apply BitVec.eq_of_getLsbD_eq
  intro i _
  exact hbit w i (by omega)

/-- The same for a word moved up and masked, from the bottom bit up. -/
theorem xor_shiftLeft_and_injective {c : BitVec w} (hk : 0 < k) (h : x ^^^ (x <<< k &&& c) = y ^^^ (y <<< k &&& c)) :
    x = y := by
  apply BitVec.eq_of_getLsbD_eq
  intro i
  induction i using Nat.strongRecOn with
  | _ i ih =>
    intro hi
    have hi' := congrArg (fun z => z.getLsbD i) h
    simp only [BitVec.getLsbD_xor, BitVec.getLsbD_and, BitVec.getLsbD_shiftLeft] at hi'
    by_cases hik : i < k
    · simpa [hik] using hi'
    · rw [ih (i - k) (by omega) (by omega)] at hi'
      exact Bool.xor_left_inj.mp hi'

/-- Each bit of `u` is set if one of the `k` bits of `n` from there up is. -/
def Spread (n : BitVec w) (k : Nat) (u : BitVec w) : Prop :=
  ∀ i, u.getLsbD i = true ↔ ∃ j < k, n.getLsbD (i + j) = true

theorem spread_one (n : BitVec w) : Spread n 1 n := by
  intro i
  constructor
  · intro h
    exact ⟨0, Nat.zero_lt_one, h⟩
  · rintro ⟨j, hj, h⟩
    obtain rfl : j = 0 := by omega
    exact h

theorem Spread.double (h : Spread n k u) : Spread n (k + k) (u ||| u >>> k) := by
  intro i
  rw [BitVec.getLsbD_or, BitVec.getLsbD_ushiftRight, Bool.or_eq_true, h, h]
  constructor
  · rintro (⟨j, hj, hn⟩ | ⟨j, hj, hn⟩)
    · exact ⟨j, by omega, hn⟩
    · exact ⟨k + j, by omega, by rwa [show i + (k + j) = k + i + j by omega]⟩
  · rintro ⟨j, hj, hn⟩
    by_cases hjk : j < k
    · exact Or.inl ⟨j, hjk, hn⟩
    · exact Or.inr ⟨j - k, by omega, by rwa [show k + i + (j - k) = i + j by omega]⟩

/-- Spread over a whole word, a number gives the least row of ones that covers it. -/
theorem Spread.toNat (h : Spread n k u) (hk : w ≤ k) : u.toNat = 2 ^ n.toNat.size - 1 := by
  apply Nat.eq_of_testBit_eq
  intro i
  rw [BitVec.testBit_toNat, Nat.testBit_two_pow_sub_one, Bool.eq_iff_iff, decide_eq_true_iff, h, Nat.lt_size]
  constructor
  · rintro ⟨j, -, hn⟩
    have hbit : 2 ^ (i + j) ≤ n.toNat := Nat.ge_two_pow_of_testBit hn
    exact Nat.le_trans (Nat.pow_le_pow_right (by omega) (by omega)) hbit
  · intro hi
    obtain ⟨m, hm, hn⟩ := Nat.exists_ge_and_testBit_of_ge_two_pow hi
    have hlt : m < w := BitVec.lt_of_getLsbD hn
    exact ⟨m - i, by omega, by rwa [show i + (m - i) = m by omega]⟩

end WordBits
