import Mathlib

namespace FloatInt

open Float.Model Float.Model.UnpackedFloat

variable {m k : Nat} {a b : Int} {s : Sign}

/-- The significand that the format keeps of a whole number. -/
def significand (m : Nat) : Nat := m <<< (52 - m.log2)

theorem significand_eq (m : Nat) : significand m = m * 2 ^ (52 - m.log2) := Nat.shiftLeft_eq ..

theorem log2_lt (hm : 0 < m) (hlt : m < 2 ^ 53) : m.log2 < 53 := (Nat.log2_lt hm.ne').mpr hlt

theorem significand_bounds (hm : 0 < m) (hlt : m < 2 ^ 53) : 2 ^ 52 ≤ significand m ∧ significand m < 2 ^ 53 := by
  have hlog := log2_lt hm hlt
  have hlow := Nat.log2_self_le hm.ne'
  have hhigh := Nat.lt_log2_self (n := m)
  have hpos : 0 < 2 ^ (52 - m.log2) := Nat.pow_pos (by decide)
  rw [significand_eq]
  constructor
  · calc 2 ^ 52 = 2 ^ m.log2 * 2 ^ (52 - m.log2) := by rw [← Nat.pow_add, Nat.add_sub_cancel' (by omega)]
      _ ≤ m * 2 ^ (52 - m.log2) := Nat.mul_le_mul_right _ hlow
  · calc m * 2 ^ (52 - m.log2) < 2 ^ (m.log2 + 1) * 2 ^ (52 - m.log2) := Nat.mul_lt_mul_of_pos_right hhigh hpos
      _ = 2 ^ 53 := by rw [← Nat.pow_add, show m.log2 + 1 + (52 - m.log2) = 53 by omega]

theorem significand_pos (hm : 0 < m) : 0 < significand m := by
  rw [significand_eq]
  exact Nat.mul_pos hm (Nat.pow_pos (by decide))

theorem log2_eq (hlow : 2 ^ 52 ≤ k) (hhigh : k < 2 ^ 53) : k.log2 = 52 := by
  have hle : 52 ≤ k.log2 := (Nat.le_log2 (by omega)).mpr hlow
  have hlt : k.log2 < 53 := log2_lt (by omega) hhigh
  omega

theorem targetExponent_eq (k : Nat) {e : Int} (he : -1074 ≤ k.log2 + e - 52) :
    Format.binary64.targetExponent (totalExponent k e) = k.log2 + e - 52 := by
  simp only [Format.targetExponent, totalExponent, Format.mantissaBits, Format.minExponent]
  omega

/-- What already has 53 bits is kept as it is. -/
theorem shift_eq {e : Int} (hlog : k.log2 = 52) (he : -1074 ≤ e) :
    shiftToTargetExponent Format.binary64 k e .exact = (⟨k, false, false⟩, e) := by
  have htarget := targetExponent_eq k (e := e) (by omega)
  have hnone : (Format.binary64.targetExponent (totalExponent k e) - e).toNat = 0 := by omega
  simp [shiftToTargetExponent, shiftToExponent, hnone, HShiftRight.hShiftRight, Nat.repeat,
    ExtendedMantissa.ofMantissaAndAccuracy]

theorem round_eq (hm : 0 < m) (hlt : m < 2 ^ 53) :
    UnpackedFloat.round Format.binary64 s m 0 = .finite s (significand m) (m.log2 - 52) (significand_pos hm) := by
  have hlog := log2_lt hm hlt
  obtain ⟨hlow, hhigh⟩ := significand_bounds hm hlt
  have htarget := targetExponent_eq m (e := 0) (by omega)
  have hamount : (0 - Format.binary64.targetExponent (totalExponent m 0)).toNat = 52 - m.log2 := by omega
  have hexponent : (0 : Int) - (52 - m.log2 : Nat) = m.log2 - 52 := by omega
  have hshift := shift_eq (e := m.log2 - 52) (log2_eq hlow hhigh) (by omega)
  simp only [UnpackedFloat.round, decreaseExponent, hamount, hexponent]
  rw [show m <<< (52 - m.log2) = significand m from rfl, roundWithAccuracy, hshift]
  simp only [ExtendedMantissa.roundedMantissa, ExtendedMantissa.accuracy, Accuracy.roundToNearestEven, hshift]
  rw [dif_neg (significand_pos hm).ne']

/-- The leading bit, which is not stored, comes back. -/
theorem toNat_append_fraction (hlow : 2 ^ 52 ≤ k) (hhigh : k < 2 ^ 53) :
    (1#1 ++ BitVec.ofNat 52 k).toNat = k := by
  rw [BitVec.toNat_append, ← Nat.shiftLeft_add_eq_or_of_lt (BitVec.ofNat 52 k).isLt, BitVec.toNat_ofNat,
    BitVec.toNat_ofNat, Nat.shiftLeft_eq]
  omega

theorem unpack_pack {e : Int} (hk : 0 < k) (hlow : 2 ^ 52 ≤ k) (hhigh : k < 2 ^ 53) (helow : -1074 ≤ e)
    (hehigh : e ≤ 971) :
    (Float.Model.pack (.finite s k e hk)).unpack = .finite s k e hk := by
  obtain ⟨n, hn⟩ : ∃ n : Nat, e = n - 1075 := ⟨(e + 1075).toNat, by omega⟩
  have hlog := log2_eq hlow hhigh
  have hbias : (e + Format.binary64.exponentBias + Format.binary64.mantissaBitsWithoutImplicit).toNat = n := by
    rw [show Format.binary64.exponentBias = 1023 from rfl,
      show Format.binary64.mantissaBitsWithoutImplicit = 52 from rfl]
    omega
  have htoNat : (BitVec.ofNat 11 n).toNat = n := by
    rw [BitVec.toNat_ofNat, Nat.mod_eq_of_lt (by omega)]
  have hne : ∀ x : BitVec 11, x.toNat ≠ n → BitVec.ofNat 11 n ≠ x := by
    intro x hx heq
    rw [← heq] at hx
    exact hx htoNat
  have hones : BitVec.ofNat 11 n ≠ -1#11 := hne _ (show 2047 ≠ n by omega)
  have hzero : BitVec.ofNat 11 n ≠ 0#11 := hne _ (show 0 ≠ n by omega)
  have hpack : UnpackedFloat.pack Format.binary64 (.finite s k e hk) =
      packComponents Format.binary64 s (BitVec.ofNat 11 n) (BitVec.ofNat 52 k) := by
    simp only [UnpackedFloat.pack, hbias, hlog]
    rw [if_neg (by omega), if_pos (show 52 + 1 = Format.binary64.mantissaBits from rfl)]
  simp only [Float.Model.unpack, Float.Model.pack, hpack, UnpackedFloat.unpack, unpackMantissa_packComponents,
    unpackExponent_packComponents, unpackSign_packComponents, Sign.ofBitVec_toBitVec]
  rw [if_neg hones, if_neg hzero]
  simp only [toNat_append_fraction hlow hhigh, htoNat]
  rw [show Format.binary64.exponentBias = 1023 from rfl]
  congr 1
  omega

theorem unpack_ofInt_pos (hpos : 0 < a) (hlt : a < 2 ^ 53) :
    (ofInt a).unpack =
      .finite .positive (significand a.toNat) (a.toNat.log2 - 52) (significand_pos (by omega)) := by
  obtain ⟨hlow, hhigh⟩ := significand_bounds (m := a.toNat) (by omega) (by omega)
  have hlog := log2_lt (m := a.toNat) (by omega) (by omega)
  simp only [Float.Model.ofInt, UnpackedFloat.ofInt, UnpackedFloat.normalize, Int.compare_eq_gt.mpr hpos]
  rw [round_eq (by omega) (by omega)]
  exact unpack_pack _ hlow hhigh (by omega) (by omega)

theorem unpack_ofInt_neg (hneg : a < 0) (hlt : -2 ^ 53 < a) :
    (ofInt a).unpack =
      .finite .negative (significand (-a).toNat) ((-a).toNat.log2 - 52) (significand_pos (by omega)) := by
  obtain ⟨hlow, hhigh⟩ := significand_bounds (m := (-a).toNat) (by omega) (by omega)
  have hlog := log2_lt (m := (-a).toNat) (by omega) (by omega)
  simp only [Float.Model.ofInt, UnpackedFloat.ofInt, UnpackedFloat.normalize, Int.compare_eq_lt.mpr hneg]
  rw [round_eq (by omega) (by omega)]
  exact unpack_pack _ hlow hhigh (by omega) (by omega)

theorem unpack_ofInt_zero : (ofInt 0).unpack = .zero .positive := by
  rfl

/-- Exponents first, then significands: that is the order of the whole numbers. -/
theorem compare_significand {m n : Nat} (hm : 0 < m) (hn : 0 < n) :
    (compare ((m.log2 : Int) - 52) (n.log2 - 52)).then (compare (significand m) (significand n)) =
      compare (m : Int) n := by
  obtain hlt | heq | hgt := Nat.lt_trichotomy m.log2 n.log2
  · have hmn : m < n := by
      calc m < 2 ^ (m.log2 + 1) := Nat.lt_log2_self
        _ ≤ 2 ^ n.log2 := Nat.pow_le_pow_right (by decide) hlt
        _ ≤ n := Nat.log2_self_le hn.ne'
    rw [Int.compare_eq_lt.mpr (by omega), Int.compare_eq_lt.mpr (Int.ofNat_lt.mpr hmn)]
    rfl
  · rw [Int.compare_eq_eq.mpr (by omega), significand_eq, significand_eq, heq, Ordering.then]
    have hpos : 0 < 2 ^ (52 - n.log2) := Nat.pow_pos (by decide)
    obtain hlt | heq | hgt := Nat.lt_trichotomy m n
    · rw [Int.compare_eq_lt.mpr (Int.ofNat_lt.mpr hlt),
        Nat.compare_eq_lt.mpr (Nat.mul_lt_mul_of_pos_right hlt hpos)]
    · rw [heq, Int.compare_eq_eq.mpr rfl, Nat.compare_eq_eq.mpr rfl]
    · rw [Int.compare_eq_gt.mpr (Int.ofNat_lt.mpr hgt),
        Nat.compare_eq_gt.mpr (Nat.mul_lt_mul_of_pos_right hgt hpos)]
  · have hmn : n < m := by
      calc n < 2 ^ (n.log2 + 1) := Nat.lt_log2_self
        _ ≤ 2 ^ m.log2 := Nat.pow_le_pow_right (by decide) hgt
        _ ≤ m := Nat.log2_self_le hm.ne'
    rw [Int.compare_eq_gt.mpr (by omega), Int.compare_eq_gt.mpr (Int.ofNat_lt.mpr hmn)]
    rfl

theorem compare_neg_neg : compare (-b) (-a) = compare a b := by
  obtain hlt | heq | hgt := Int.lt_trichotomy a b
  · rw [Int.compare_eq_lt.mpr hlt, Int.compare_eq_lt.mpr (by omega)]
  · rw [heq, Int.compare_eq_eq.mpr rfl, Int.compare_eq_eq.mpr rfl]
  · rw [Int.compare_eq_gt.mpr hgt, Int.compare_eq_gt.mpr (by omega)]

/-- A whole number of at most 53 bits is a float, and the floats are ordered as the numbers are. -/
theorem compare_ofInt (ha : -2 ^ 53 < a ∧ a < 2 ^ 53) (hb : -2 ^ 53 < b ∧ b < 2 ^ 53) :
    (ofInt a).compare (ofInt b) = some (compare a b) := by
  rw [Float.Model.compare]
  obtain haneg | rfl | hapos := Int.lt_trichotomy a 0
  · rw [unpack_ofInt_neg haneg ha.1]
    obtain hbneg | rfl | hbpos := Int.lt_trichotomy b 0
    · rw [unpack_ofInt_neg hbneg hb.1]
      simp only [UnpackedFloat.compare]
      rw [compare_significand (by omega) (by omega), Int.compare_swap, Int.toNat_of_nonneg (by omega),
        Int.toNat_of_nonneg (by omega), compare_neg_neg]
    · rw [unpack_ofInt_zero, Int.compare_eq_lt.mpr haneg]
      rfl
    · rw [unpack_ofInt_pos hbpos hb.2, Int.compare_eq_lt.mpr (by omega)]
      rfl
  · rw [unpack_ofInt_zero]
    obtain hbneg | rfl | hbpos := Int.lt_trichotomy b 0
    · rw [unpack_ofInt_neg hbneg hb.1, Int.compare_eq_gt.mpr hbneg]
      rfl
    · rw [unpack_ofInt_zero]
      rfl
    · rw [unpack_ofInt_pos hbpos hb.2, Int.compare_eq_lt.mpr hbpos]
      rfl
  · rw [unpack_ofInt_pos hapos ha.2]
    obtain hbneg | rfl | hbpos := Int.lt_trichotomy b 0
    · rw [unpack_ofInt_neg hbneg hb.1, Int.compare_eq_gt.mpr (by omega)]
      rfl
    · rw [unpack_ofInt_zero, Int.compare_eq_gt.mpr hapos]
      rfl
    · rw [unpack_ofInt_pos hbpos hb.2]
      simp only [UnpackedFloat.compare]
      rw [compare_significand (by omega) (by omega), Int.toNat_of_nonneg hapos.le, Int.toNat_of_nonneg hbpos.le]

theorem ofInt_lt_ofInt (ha : -2 ^ 53 < a ∧ a < 2 ^ 53) (hb : -2 ^ 53 < b ∧ b < 2 ^ 53) :
    ofInt a < ofInt b ↔ a < b := by
  have hcompare := compare_ofInt ha hb
  change ((ofInt a).compare (ofInt b) == some .lt) = true ↔ a < b
  rw [hcompare, ← Int.compare_eq_lt]
  simp

theorem ofInt_le_ofInt (ha : -2 ^ 53 < a ∧ a < 2 ^ 53) (hb : -2 ^ 53 < b ∧ b < 2 ^ 53) :
    ofInt a ≤ ofInt b ↔ a ≤ b := by
  have hcompare := compare_ofInt ha hb
  change ((ofInt a).compare (ofInt b)).any (·.isLE) = true ↔ a ≤ b
  rw [hcompare, ← Int.isLE_compare]
  simp

end FloatInt
