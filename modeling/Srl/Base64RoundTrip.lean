import Srl.Base64
import Mathlib.Tactic.IntervalCases

namespace Srl

namespace Base64

/-- A character that stands for six bits. -/
def isDigit (c : UInt8) : Bool := isBase64 c && c ≠ 61

theorem digit_encodeChar {u : UInt8} (hu : u < 64) :
    isDigit (encodeChar u) = true ∧ decodeChar (encodeChar u) = u := by
  have key : ∀ n < 64, isDigit (encodeChar (UInt8.ofNat n)) = true ∧
      decodeChar (encodeChar (UInt8.ofNat n)) = UInt8.ofNat n := by decide
  have := key u.toNat hu
  rwa [UInt8.ofNat_toNat] at this

theorem encodeChar_ne_pad {u : UInt8} (hu : u < 64) : encodeChar u ≠ 61 := by
  have := (digit_encodeChar hu).1
  simp only [isDigit, Bool.and_eq_true, decide_eq_true_eq] at this
  exact this.2

theorem shiftRight_lt (a n : UInt8) (h : 256 ≤ 64 * 2 ^ (n.toNat % 8)) : (a >>> n).toNat < 2 ^ 6 := by
  have ha := a.toNat_lt
  rw [UInt8.toNat_shiftRight, Nat.shiftRight_eq_div_pow]
  apply Nat.div_lt_of_lt_mul
  omega

theorem and_shiftLeft_lt (a m n : UInt8) (h : m.toNat * 2 ^ (n.toNat % 8) < 64) :
    ((a &&& m) <<< n).toNat < 2 ^ 6 := by
  have hand : a.toNat &&& m.toNat ≤ m.toNat := Nat.and_le_right
  have hmul := Nat.mul_le_mul_right (2 ^ (n.toNat % 8)) hand
  rw [UInt8.toNat_shiftLeft, UInt8.toNat_and, Nat.shiftLeft_eq]
  exact Nat.lt_of_le_of_lt (Nat.mod_le _ _) (by omega)

theorem first_lt (a : UInt8) : a >>> 2 < 64 := shiftRight_lt a 2 (by decide)

theorem second_lt (a b : UInt8) : ((a &&& 3) <<< 4) ||| (b >>> 4) < 64 := by
  rw [UInt8.lt_iff_toNat_lt, UInt8.toNat_or]
  exact Nat.or_lt_two_pow (and_shiftLeft_lt a 3 4 (by decide)) (by
    have := b.toNat_lt
    rw [UInt8.toNat_shiftRight, Nat.shiftRight_eq_div_pow]
    simp
    omega)

theorem third_lt (a b : UInt8) : ((a &&& 15) <<< 2) ||| (b >>> 6) < 64 := by
  rw [UInt8.lt_iff_toNat_lt, UInt8.toNat_or]
  exact Nat.or_lt_two_pow (and_shiftLeft_lt a 15 2 (by decide)) (shiftRight_lt b 6 (by decide))

theorem fourth_lt (a : UInt8) : a &&& 63 < 64 := by
  have hand : a.toNat &&& 63 ≤ 63 := Nat.and_le_right
  rw [UInt8.lt_iff_toNat_lt, UInt8.toNat_and]
  exact Nat.lt_succ_of_le hand

theorem first_byte (a b : UInt8) :
    ((a >>> 2) <<< 2) ||| ((((a &&& 3) <<< 4) ||| (b >>> 4)) >>> 4) = a := by
  apply UInt8.toBitVec_inj.mp
  ext i hi
  simp
  interval_cases i <;> simp

theorem second_byte (a b c : UInt8) :
    ((((a &&& 3) <<< 4 ||| b >>> 4) &&& 15) <<< 4) ||| (((b &&& 15) <<< 2 ||| c >>> 6) >>> 2) = b := by
  apply UInt8.toBitVec_inj.mp
  ext i hi
  simp
  interval_cases i <;> simp

theorem third_byte (b c : UInt8) :
    ((((b &&& 15) <<< 2 ||| c >>> 6) &&& 3) <<< 6) ||| (c &&& 63) = c := by
  apply UInt8.toBitVec_inj.mp
  ext i hi
  simp
  interval_cases i <;> simp

theorem decodeRound_encodeRound (b₁ b₂ b₃ : UInt8) :
    let (x, y, z, w) := encodeRound b₁ b₂ b₃
    decodeRound x y z w = [b₁, b₂, b₃] := by
  simp only [encodeRound, decodeRound, (digit_encodeChar (first_lt b₁)).2,
    (digit_encodeChar (second_lt b₁ b₂)).2, (digit_encodeChar (third_lt b₂ b₃)).2,
    (digit_encodeChar (fourth_lt b₃)).2, encodeChar_ne_pad (third_lt b₂ b₃),
    ne_eq, encodeChar_ne_pad (fourth_lt b₃), first_byte, second_byte, third_byte]
  rfl

theorem decodeRound_encodeRound_two (b₁ b₂ : UInt8) :
    let (x, y, z, _) := encodeRound b₁ b₂ 0
    decodeRound x y z 61 = [b₁, b₂] := by
  simp only [encodeRound, decodeRound, (digit_encodeChar (first_lt b₁)).2,
    (digit_encodeChar (second_lt b₁ b₂)).2, (digit_encodeChar (third_lt b₂ 0)).2,
    ne_eq, encodeChar_ne_pad (third_lt b₂ 0), first_byte, second_byte]
  rfl

theorem decodeRound_encodeRound_one (b₁ : UInt8) :
    let (x, y, _, _) := encodeRound b₁ 0 0
    decodeRound x y 61 61 = [b₁] := by
  simp only [encodeRound, decodeRound, (digit_encodeChar (first_lt b₁)).2,
    (digit_encodeChar (second_lt b₁ 0)).2, first_byte]
  rfl

theorem decode_encode (s : Bytes) : decode (encode s) = s := by
  induction s using encode.induct with
  | case1 => rfl
  | case2 b₁ x y z w h =>
    have hr := decodeRound_encodeRound_one b₁
    rw [encode, decode, decode, List.append_nil]
    exact hr
  | case3 b₁ b₂ x y z w h =>
    have hr := decodeRound_encodeRound_two b₁ b₂
    rw [encode, decode, decode, List.append_nil]
    exact hr
  | case4 b₁ b₂ b₃ s x y z w h ih =>
    have hr := decodeRound_encodeRound b₁ b₂ b₃
    rw [encode, decode, ih]
    exact congrArg (· ++ s) hr

theorem length_encode (s : Bytes) : (encode s).length = 4 * ((s.length + 2) / 3) := by
  induction s using encode.induct with
  | case1 => rfl
  | case2 b₁ x y z w h => simp [encode]
  | case3 b₁ b₂ x y z w h => simp [encode]
  | case4 b₁ b₂ b₃ s x y z w h ih =>
    simp only [encode, List.length_cons, ih]
    omega

theorem digits_encodeRound (b₁ b₂ b₃ : UInt8) :
    let (x, y, z, w) := encodeRound b₁ b₂ b₃
    isDigit x = true ∧ isDigit y = true ∧ isDigit z = true ∧ isDigit w = true :=
  ⟨(digit_encodeChar (first_lt b₁)).1, (digit_encodeChar (second_lt b₁ b₂)).1,
    (digit_encodeChar (third_lt b₂ b₃)).1, (digit_encodeChar (fourth_lt b₃)).1⟩

theorem encode_split (s : Bytes) :
    ∃ text k, encode s = text ++ List.replicate k 61 ∧ k ≤ 2 ∧ ∀ c ∈ text, isDigit c = true := by
  induction s using encode.induct with
  | case1 => exact ⟨[], 0, rfl, by omega, by simp⟩
  | case2 b₁ x y z w h =>
    obtain ⟨hx, hy, -, -⟩ := digits_encodeRound b₁ 0 0
    refine ⟨[_, _], 2, rfl, Nat.le_refl _, ?_⟩
    simp only [List.forall_mem_cons]
    exact ⟨hx, hy, List.forall_mem_nil _⟩
  | case3 b₁ b₂ x y z w h =>
    obtain ⟨hx, hy, hz, -⟩ := digits_encodeRound b₁ b₂ 0
    refine ⟨[_, _, _], 1, rfl, by omega, ?_⟩
    simp only [List.forall_mem_cons]
    exact ⟨hx, hy, hz, List.forall_mem_nil _⟩
  | case4 b₁ b₂ b₃ s x y z w h ih =>
    obtain ⟨hx, hy, hz, hw⟩ := digits_encodeRound b₁ b₂ b₃
    obtain ⟨text, k, he, hk, ht⟩ := ih
    let q := encodeRound b₁ b₂ b₃
    refine ⟨q.1 :: q.2.1 :: q.2.2.1 :: q.2.2.2 :: text, k, ?_, hk, ?_⟩
    · rw [encode, he]
      rfl
    · simp only [List.forall_mem_cons]
      exact ⟨hx, hy, hz, hw, ht⟩

end Base64

end Srl
