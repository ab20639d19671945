import Srl.StrVal

namespace Srl

open Cells Session

namespace Str

/-- `String::Val(int64, base)`, in which the magnitude of a negative number is cast to `uint32`. -/
def valInt64 (fresh : Nat → UInt8) (buf : Vector UInt8 34) (num : Int64) (base : Int32) : Call Str :=
  val fresh buf base (if num < 0 then ((~~~num).toUInt64.toUInt32 + 1).toUInt64 else num.toUInt64).toNat (num < 0)

/-- `String::Val(uint64, base)`. -/
def valUInt64 (fresh : Nat → UInt8) (buf : Vector UInt8 34) (num : UInt64) (base : Int32) : Call Str :=
  val fresh buf base num.toNat false

/-- `String::Long`. -/
def long (base : Int32) : Call Int64 := do
  pure (Int64.ofInt (Bytes.strtol (← cText) base.toUInt32.toNat))

/-- `String::ULong`. -/
def ulong (base : Int32) : Call UInt64 := do
  pure (UInt64.ofNat (Bytes.strtoul (← cText) base.toUInt32.toNat))

namespace Digits

variable {s : Digits} {base nn rounds : Nat}

theorem push_fault (c : UInt8) (h : s.p = 0) : push c s = (.error .fault, s) := by
  unfold push
  rw [get_bind, if_pos h]
  rfl

/-- A number with more digits than the buffer has room for is written in front of it. -/
theorem digitLoop_fault (hb : 0 < base) {k : Nat} (hp : s.p = k) (hnn : base ^ k ≤ nn) (hrounds : k < rounds) :
    ∃ s', digitLoop base rounds nn s = (.error .fault, s') := by
  induction k generalizing rounds nn s with
  | zero =>
    obtain ⟨rounds, rfl⟩ := Nat.exists_eq_succ_of_ne_zero (Nat.ne_of_gt hrounds)
    exact ⟨s, by rw [digitLoop, bind_error (push_fault _ (Fin.ext hp))]⟩
  | succ k ih =>
    obtain ⟨rounds, rfl⟩ := Nat.exists_eq_succ_of_ne_zero (Nat.ne_zero_of_lt hrounds)
    have hlen := s.length_text
    obtain ⟨s₁, hs₁, htext⟩ := push_text (Bytes.charAt Bytes.HEX (nn % base)) (by omega : s.text.length < 34)
    have hlen₁ := s₁.length_text
    rw [htext, List.length_cons] at hlen₁
    have hmore : base ^ k ≤ nn / base := (Nat.le_div_iff_mul_le hb).mpr (by rwa [← Nat.pow_succ])
    have hpos : 0 < base ^ k := Nat.pow_pos hb
    rw [digitLoop, bind_ok hs₁, if_pos (by omega)]
    exact ih (by omega) hmore (by omega)

theorem write_fault (hb : 0 < base) (hnn : base ^ 33 ≤ nn) (negative : Bool) (buf : Vector UInt8 34) :
    ∃ s', write base nn negative ⟨buf, 33⟩ = (.error .fault, s') := by
  obtain ⟨s₁, hs₁, hp, -⟩ := store_text ⟨buf, 33⟩ 0
  obtain ⟨s₂, hs₂⟩ := digitLoop_fault hb (congrArg Fin.val hp) hnn (by decide : (33 : Fin 34).val < 34)
  refine ⟨s₂, ?_⟩
  unfold write
  rw [bind_ok hs₁, bind_error hs₂]

end Digits

variable {s : Str} {base : Int32} {nn : Nat}

theorem val_fault (fresh : Nat → UInt8) (buf : Vector UInt8 34) (hb : ¬(base < 2 ∨ 16 < base))
    (hnn : base.toUInt32.toNat ^ 33 ≤ nn) (negative : Bool) (s : Str) :
    val fresh buf base nn negative s = (.error .fault, s) := by
  have hbase := Bytes.bounds_iff.mp ((bounds_toUInt32 base).not.mp hb)
  obtain ⟨t, ht⟩ := Digits.write_fault (by omega) hnn negative buf
  unfold val
  rw [if_neg hb, ht]
  rfl

/-- The text that `String::Val` makes, as `String::Long` and `String::ULong` read it. -/
theorem val_digits (fresh : Nat → UInt8) (buf : Vector UInt8 34) (hb : ¬(base < 2 ∨ 16 < base))
    (hnn : nn < base.toUInt32.toNat ^ 33) (negative : Bool) (hsign : negative = true → nn < base.toUInt32.toNat ^ 32)
    (s : Str) : ∃ t ds, val fresh buf base nn negative s = (.ok t, s) ∧ ds ≠ [] ∧
      (∀ c ∈ ds, Bytes.IsDigit base.toUInt32.toNat c ∧ c < 71) ∧
      Bytes.number base.toUInt32.toNat (Bytes.digitsOf base.toUInt32.toNat ds) = nn ∧
      cText t = (.ok (if negative then 45 :: ds else ds), t) := by
  have hbase := Bytes.bounds_iff.mp ((bounds_toUInt32 base).not.mp hb)
  obtain ⟨t, ht, hstores⟩ := val_yields fresh buf hb hnn negative hsign s
  obtain ⟨ds, hrun, hds, hnum, hne⟩ := Bytes.numeral_spec hbase 33 nn [] hnn
  rw [List.append_nil] at hrun
  rw [hrun] at hstores
  refine ⟨t, ds, ht, hne (by decide), hds, hnum, ?_⟩
  have htext := cText_eq hstores
  rwa [Bytes.cstr_of_ne (cstr_signed hds)] at htext

theorem toInt_eq64 (num : Int64) :
    num.toInt = if 2 * num.toUInt64.toNat < 2 ^ 64 then (num.toUInt64.toNat : Int)
      else num.toUInt64.toNat - 2 ^ 64 := BitVec.toInt_eq_toNat_cond _

theorem neg_iff64 (num : Int64) : num < 0 ↔ num.toInt < 0 := by
  rw [Int64.lt_iff_toInt_lt, Int64.toInt_zero]

/-- The magnitude that is printed: that of a negative number loses what does not fit a `uint32`. -/
theorem toNat_magnitude64 (num : Int64) :
    (if num < 0 then ((~~~num).toUInt64.toUInt32 + 1).toUInt64 else num.toUInt64).toNat =
      if num.toInt < 0 then num.toInt.natAbs % 2 ^ 32 else num.toInt.natAbs := by
  have hlt := num.toUInt64.toNat_lt
  have hint := toInt_eq64 num
  have hneg := neg_iff64 num
  by_cases hn : num.toInt < 0
  · have hnot : ((~~~num).toUInt64).toNat = 2 ^ 64 - 1 - num.toUInt64.toNat := BitVec.toNat_not
    rw [if_pos hn, if_pos (hneg.mpr hn), UInt32.toNat_toUInt64, UInt32.toNat_add, UInt64.toNat_toUInt32, hnot,
      UInt32.toNat_one]
    split at hint <;> omega
  · rw [if_neg hn, if_neg (hneg.not.mpr hn)]
    split at hint <;> omega

/-- What is printed of a signed number comes back just if it is that number. -/
theorem long_iff (fresh : Nat → UInt8) (buf : Vector UInt8 34) (hb : ¬(base < 2 ∨ 16 < base)) (num : Int64) (s : Str) :
    (∃ t, valInt64 fresh buf num base s = (.ok t, s) ∧ long base t = (.ok num, t)) ↔
      if num < 0 then -2 ^ 32 < num.toInt else num.toInt < (base.toUInt32.toNat ^ 33 : Nat) := by
  have hmag := toNat_magnitude64 num
  have hneg := neg_iff64 num
  have hge := num.le_toInt
  have hlt := num.toInt_lt
  unfold valInt64
  rw [hmag]
  by_cases hn : num < 0
  · have hn' := hneg.mp hn
    rw [if_pos hn, if_pos hn', decide_eq_true hn]
    obtain ⟨hmore, hpow⟩ := lt_pow_of_bounds hb (Nat.mod_lt num.toInt.natAbs (by decide : 0 < 2 ^ 32))
    obtain ⟨t, ds, ht, hne, hds, hnum, htext⟩ := val_digits fresh buf hb hmore true (fun _ => hpow) s
    have hlong : long base t = (.ok (Int64.ofInt (-(num.toInt.natAbs % 2 ^ 32 : Nat))), t) := by
      unfold long
      rw [bind_ok htext, if_pos rfl, (Bytes.strtol_digits hne hds).2, hnum, max_eq_left (by omega)]
      rfl
    constructor
    · rintro ⟨t', ht', hback⟩
      rw [ht] at ht'
      cases ht'
      rw [hlong] at hback
      have hsame := congrArg Int64.toInt (Except.ok.inj (congrArg Prod.fst hback))
      rw [Int64.toInt_ofInt_of_le (by omega) (by omega)] at hsame
      omega
    · intro hlow
      refine ⟨t, ht, ?_⟩
      rw [hlong, show -((num.toInt.natAbs % 2 ^ 32 : Nat) : Int) = num.toInt by omega, Int64.ofInt_toInt]
  · have hn' := hneg.not.mp hn
    rw [if_neg hn, if_neg hn', decide_eq_false hn]
    constructor
    · rintro ⟨t, ht, -⟩
      by_contra hbig
      have hfault := val_fault fresh buf hb (by omega : base.toUInt32.toNat ^ 33 ≤ num.toInt.natAbs) false s
      rw [ht] at hfault
      cases hfault
    · intro hsmall
      obtain ⟨t, ds, ht, hne, hds, hnum, htext⟩ := val_digits fresh buf hb
        (by omega : num.toInt.natAbs < base.toUInt32.toNat ^ 33) false (fun h => absurd h Bool.false_ne_true) s
      refine ⟨t, ht, ?_⟩
      unfold long
      rw [bind_ok htext, if_neg Bool.false_ne_true, (Bytes.strtol_digits hne hds).1, hnum, min_eq_left (by omega),
        show ((num.toInt.natAbs : Nat) : Int) = num.toInt by omega, Int64.ofInt_toInt]
      rfl

theorem ulong_iff (fresh : Nat → UInt8) (buf : Vector UInt8 34) (hb : ¬(base < 2 ∨ 16 < base)) (num : UInt64)
    (s : Str) : (∃ t, valUInt64 fresh buf num base s = (.ok t, s) ∧ ulong base t = (.ok num, t)) ↔
      num.toNat < base.toUInt32.toNat ^ 33 := by
  have hlt := num.toNat_lt
  constructor
  · rintro ⟨t, ht, -⟩
    by_contra hbig
    have hfault := val_fault fresh buf hb (Nat.le_of_not_lt hbig) false s
    rw [show val fresh buf base num.toNat false s = (.ok t, s) from ht] at hfault
    cases hfault
  · intro hsmall
    obtain ⟨t, ds, ht, hne, hds, hnum, htext⟩ :=
      val_digits fresh buf hb hsmall false (fun h => absurd h Bool.false_ne_true) s
    refine ⟨t, ht, ?_⟩
    unfold ulong
    rw [bind_ok htext, if_neg Bool.false_ne_true, Bytes.strtoul_digits hne hds, hnum, Nat.min_eq_left (by omega),
      UInt64.ofNat_toNat]
    rfl

/-- What `String::Val` makes of a 64-bit number is read back just if the number has up to 33 digits, or is negative
and above -2³². -/
theorem val64_read_back_iff (fresh : Nat → UInt8) (buf : Vector UInt8 34) (hb : 2 ≤ base ∧ base ≤ 16) (s : Str) :
    (∀ num : Int64, (∃ t, valInt64 fresh buf num base s = (.ok t, s) ∧ long base t = (.ok num, t)) ↔
      if num < 0 then -2 ^ 32 < num.toInt else num.toInt < (base.toUInt32.toNat ^ 33 : Nat)) ∧
    ∀ num : UInt64, (∃ t, valUInt64 fresh buf num base s = (.ok t, s) ∧ ulong base t = (.ok num, t)) ↔
      num.toNat < base.toUInt32.toNat ^ 33 :=
  ⟨fun num => long_iff fresh buf (bounds_of_le hb) num s, fun num => ulong_iff fresh buf (bounds_of_le hb) num s⟩

theorem val64_read_back_decimal : ∃ t, valInt64 (fun _ => 7) (Vector.replicate 34 170) 9223372036854775807 10 empty =
    (.ok t, empty) ∧ long 10 t = (.ok 9223372036854775807, t) :=
  ((val64_read_back_iff (fun _ => 7) (Vector.replicate 34 170) (by decide) empty).1 9223372036854775807).mpr
    (by decide)

/-- -2³² is printed as -0. -/
theorem not_val64_read_back : ¬∀ (fresh : Nat → UInt8) (buf : Vector UInt8 34) (base : Int32) (s : Str) (num : Int64),
    2 ≤ base ∧ base ≤ 16 → ∃ t, valInt64 fresh buf num base s = (.ok t, s) ∧ long base t = (.ok num, t) := by
  intro hall
  have hbounds : (2 : Int32) ≤ 10 ∧ (10 : Int32) ≤ 16 := by decide
  have hback := hall (fun _ => 7) (Vector.replicate 34 170) 10 empty (-4294967296) hbounds
  have hcond := (long_iff (fun _ => 7) (Vector.replicate 34 170) (bounds_of_le hbounds) (-4294967296) empty).mp hback
  exact absurd hcond (by decide)

end Str

end Srl
