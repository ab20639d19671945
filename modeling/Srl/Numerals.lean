import Srl.Bytes
import Mathlib.Tactic.Ring
import Mathlib.Data.UInt

namespace Srl

namespace Bytes

/-- A digit in the given base. -/
def IsDigit (base : Nat) (c : UInt8) : Prop := ∃ n < base, digit c = some n

theorem digitsOf_cons {base n : Nat} {c : UInt8} {s : Bytes} (hc : digit c = some n) (hn : n < base) :
    digitsOf base (c :: s) = n :: digitsOf base s := by
  simp [digitsOf, hc, hn]

theorem digitsOf_append {base : Nat} {s t : Bytes} (hs : ∀ c ∈ s, IsDigit base c) :
    digitsOf base (s ++ t) = digitsOf base s ++ digitsOf base t := by
  induction s with
  | nil => rfl
  | cons c s ih =>
    obtain ⟨n, hn, hc⟩ := hs c (by simp)
    have := ih fun x hx => hs x (by simp [hx])
    rw [List.cons_append, digitsOf_cons hc hn, digitsOf_cons hc hn, this, List.cons_append]

theorem number_append (base : Nat) (ds : List Nat) (n : Nat) :
    number base (ds ++ [n]) = number base ds * base + n := by
  simp [number]

/-- The digits of `HEX` stand for their index. -/
theorem digit_HEX {n : Nat} (h : n < 16) : digit (charAt HEX n) = some n :=
  (by decide : ∀ n < 16, digit (charAt HEX n) = some n) n h

theorem HEX_bound {n : Nat} (h : n < 16) : charAt HEX n < 71 :=
  (by decide : ∀ n < 16, charAt HEX n < 71) n h

/-- The digits of `nn` in front of `p`. -/
def numeral (base : Nat) : Nat → Nat → Bytes → Bytes
  | 0, _, p => p
  | fuel + 1, nn, p =>
    let p := charAt HEX (nn % base) :: p
    if nn / base ≠ 0 then numeral base fuel (nn / base) p else p

theorem numeral_append (base fuel nn : Nat) (p w : Bytes) :
    numeral base fuel nn (p ++ w) = numeral base fuel nn p ++ w := by
  induction fuel generalizing nn p with
  | zero => rfl
  | succ fuel ih =>
    unfold numeral
    split
    next => exact ih (nn / base) (charAt HEX (nn % base) :: p)
    next => rfl

/-- The digits of `nn` make up the number. -/
theorem numeral_spec {base : Nat} (hb : 2 ≤ base ∧ base ≤ 16) (fuel nn : Nat) (p : Bytes) (h : nn < base ^ fuel) :
    ∃ ds, numeral base fuel nn p = ds ++ p ∧ (∀ c ∈ ds, IsDigit base c ∧ c < 71) ∧
      number base (digitsOf base ds) = nn ∧ (0 < fuel → ds ≠ []) := by
  induction fuel generalizing nn p with
  | zero =>
    have : nn = 0 := by rw [Nat.pow_zero] at h; omega
    exact ⟨[], rfl, by simp, this.symm, by simp⟩
  | succ fuel ih =>
    obtain ⟨c, hc⟩ : ∃ c, charAt HEX (nn % base) = c := ⟨_, rfl⟩
    have hstep : numeral base (fuel + 1) nn p =
        if nn / base ≠ 0 then numeral base fuel (nn / base) (c :: p) else c :: p := by
      simp only [numeral, hc]
    have hlt : nn % base < base := Nat.mod_lt _ (by omega)
    have hdigit : digit c = some (nn % base) := by rw [← hc, digit_HEX (by omega)]
    have hbound : c < 71 := by rw [← hc]; exact HEX_bound (by omega)
    have hone : digitsOf base [c] = [nn % base] := by
      rw [digitsOf_cons hdigit hlt, digitsOf]
    have hnn := Nat.div_add_mod nn base
    by_cases hz : nn / base = 0
    · refine ⟨[c], by rw [hstep, if_neg (not_not_intro hz), List.singleton_append], ?_, ?_, by simp⟩
      · simpa using ⟨⟨_, hlt, hdigit⟩, hbound⟩
      · rw [hz, Nat.mul_zero, Nat.zero_add] at hnn
        rw [hone, hnn]
        simp [number]
    · have hsmall : nn / base < base ^ fuel := Nat.div_lt_of_lt_mul (by rwa [Nat.pow_succ'] at h)
      obtain ⟨ds, hrun, hds, hnum, -⟩ := ih (nn / base) (c :: p) hsmall
      refine ⟨ds ++ [c], by rw [hstep, if_pos hz, hrun, List.append_assoc, List.singleton_append], ?_, ?_, by simp⟩
      · intro x hx
        rcases List.mem_append.mp hx with hx | hx
        · exact hds x hx
        · rw [List.mem_singleton.mp hx]
          exact ⟨⟨_, hlt, hdigit⟩, hbound⟩
      · rw [digitsOf_append fun x hx => (hds x hx).1, hone, number_append, hnum, Nat.mul_comm]
        exact hnn

/-- There is one digit for every power of the base up to the number. -/
theorem length_numeral {base : Nat} (hb : 2 ≤ base) (k fuel nn : Nat) (p : Bytes)
    (hlow : base ^ k ≤ nn) (hhigh : nn < base ^ (k + 1)) (hk : k < fuel) :
    (numeral base fuel nn p).length = k + 1 + p.length := by
  induction k generalizing fuel nn p with
  | zero =>
    obtain ⟨fuel, rfl⟩ := Nat.exists_eq_succ_of_ne_zero (Nat.ne_zero_of_lt hk)
    have hz : nn / base = 0 := by
      rw [Nat.zero_add, Nat.pow_one] at hhigh
      exact Nat.div_eq_of_lt hhigh
    simp only [numeral, hz, ne_eq, not_true_eq_false, if_false, List.length_cons]
    omega
  | succ k ih =>
    obtain ⟨fuel, rfl⟩ := Nat.exists_eq_succ_of_ne_zero (Nat.ne_zero_of_lt hk)
    have hlow' : base ^ k ≤ nn / base := (Nat.le_div_iff_mul_le (by omega)).mpr (by rwa [← Nat.pow_succ])
    have hhigh' : nn / base < base ^ (k + 1) := Nat.div_lt_of_lt_mul (by rwa [← Nat.pow_succ'])
    have hz : nn / base ≠ 0 := by
      have := Nat.pow_pos (n := k) (show 0 < base by omega)
      omega
    simp only [numeral, if_pos hz]
    rw [ih fuel _ _ hlow' hhigh' (by omega), List.length_cons]
    omega

theorem length_numeral_le {base k : Nat} (hk : 0 < k) (fuel nn : Nat) (p : Bytes) (h : nn < base ^ k) :
    (numeral base fuel nn p).length ≤ k + p.length := by
  induction fuel generalizing k nn p with
  | zero => exact Nat.le_add_left _ _
  | succ fuel ih =>
    obtain ⟨k, rfl⟩ := Nat.exists_eq_succ_of_ne_zero (Nat.ne_of_gt hk)
    unfold numeral
    dsimp only
    split
    next hz =>
      have hsmall : nn / base < base ^ k := Nat.div_lt_of_lt_mul (by rwa [Nat.pow_succ'] at h)
      have hpos : 0 < k := by
        refine Nat.pos_of_ne_zero fun hzero => hz ?_
        rw [hzero, Nat.pow_zero] at hsmall
        exact Nat.lt_one_iff.mp hsmall
      have hle := ih hpos (nn / base) (charAt HEX (nn % base) :: p) hsmall
      rw [List.length_cons] at hle
      omega
    next =>
      rw [List.length_cons]
      omega

theorem valLoop_eq (base : UInt32) (fuel : Nat) (nn : UInt32) (p : Bytes) :
    valLoop base fuel nn p = numeral base.toNat fuel nn.toNat p := by
  induction fuel generalizing nn p with
  | zero => rfl
  | succ fuel ih =>
    have hz : nn / base ≠ 0 ↔ nn.toNat / base.toNat ≠ 0 := by
      rw [← UInt32.toNat_div, not_iff_not]
      exact UInt32.toNat_inj.symm
    simp only [valLoop, numeral, ih, UInt32.toNat_mod, UInt32.toNat_div, hz]

theorem skipHex_eq {base : Nat} {s : Bytes} (h : ∀ c ∈ s, c < 71) : skipHex base s = s := by
  unfold skipHex
  rw [if_neg]
  rintro ⟨-, hx, -⟩
  have hx : bytes "0x" = s.take 2 ∨ bytes "0X" = s.take 2 := hx.imp Eq.symm Eq.symm
  have hmem : ∀ c ∈ s.take 2, c < 71 := fun c hc => h c (List.mem_of_mem_take hc)
  rcases hx with hx | hx <;> rw [← hx] at hmem <;> exact absurd hmem (by decide)

theorem toInt_eq (num : Int32) :
    num.toInt = if 2 * num.toUInt32.toNat < 2 ^ 32 then (num.toUInt32.toNat : Int)
      else num.toUInt32.toNat - 2 ^ 32 := BitVec.toInt_eq_toNat_cond _

theorem neg_iff (num : Int32) : num < 0 ↔ num.toInt < 0 := by
  rw [Int32.lt_iff_toInt_lt, Int32.toInt_zero]

/-- The magnitude that `String::Val` prints. -/
theorem toNat_magnitude (num : Int32) :
    (if num < 0 then (~~~num).toUInt32 + 1 else num.toUInt32).toNat = num.toInt.natAbs := by
  have hlt := num.toUInt32.toNat_lt
  have hint := toInt_eq num
  have hneg := neg_iff num
  split
  next hn =>
    have hn := hneg.mp hn
    have hnot : ((~~~num).toUInt32).toNat = 2 ^ 32 - 1 - num.toUInt32.toNat := BitVec.toNat_not
    rw [UInt32.toNat_add, hnot, UInt32.toNat_one]
    split at hint <;> omega
  next hn =>
    rw [hneg] at hn
    split at hint <;> omega

theorem IsDigit.head {base : Nat} {c : UInt8} (h : IsDigit base c) :
    isspace c = false ∧ c ≠ 45 ∧ c ≠ 43 := by
  obtain ⟨n, -, hc⟩ := h
  have key : ∀ c : UInt8, isspace c = true ∨ c = 45 ∨ c = 43 → digit c = none := by
    intro c hc
    have hb : c ≤ 45 := by
      rcases hc with hc | rfl | rfl
      · unfold isspace at hc
        simp only [Bool.or_eq_true, Bool.and_eq_true, decide_eq_true_eq] at hc
        rcases hc with hc | rfl
        · exact UInt8.le_trans hc.2 (by decide)
        · decide
      · decide
      · decide
    have h₁ : ¬48 ≤ c := fun h => absurd (UInt8.le_trans h hb) (by decide)
    have h₂ : ¬65 ≤ c := fun h => absurd (UInt8.le_trans h hb) (by decide)
    have h₃ : ¬97 ≤ c := fun h => absurd (UInt8.le_trans h hb) (by decide)
    simp [digit, h₁, h₂, h₃]
  refine ⟨?_, ?_, ?_⟩
  · by_contra hs
    simp [key c (Or.inl (by simpa using hs))] at hc
  · rintro rfl
    simp [key 45 (by simp)] at hc
  · rintro rfl
    simp [key 43 (by simp)] at hc

theorem isDigit_ten {c : UInt8} (h : 48 ≤ c ∧ c ≤ 57) : IsDigit 10 c := by
  have hle := UInt8.le_iff_toNat_le.mp h.2
  simp only [UInt8.reduceToNat] at hle
  exact ⟨c.toNat - 48, by omega, if_pos h⟩

theorem strtol_digits {base : Nat} {ds : Bytes} (hne : ds ≠ []) (hds : ∀ c ∈ ds, IsDigit base c ∧ c < 71) :
    strtol ds base = min (number base (digitsOf base ds) : Int) (2 ^ 63 - 1) ∧
      strtol (45 :: ds) base = max (-(number base (digitsOf base ds) : Int)) (-2 ^ 63) := by
  have hhex : skipHex base ds = ds := skipHex_eq fun c hc => (hds c hc).2
  obtain ⟨c, s, rfl⟩ := List.exists_cons_of_ne_nil hne
  obtain ⟨hspace, hminus, hplus⟩ := (hds c (by simp)).1.head
  have hminus' : isspace 45 = false := by decide
  constructor
  · simp only [strtol, List.dropWhile_cons, hspace, Bool.false_eq_true, if_false]
    split
    next h => exact absurd (List.cons.inj h).1 hminus
    next h => exact absurd (List.cons.inj h).1 hplus
    next => rw [hhex]
  · simp only [strtol, List.dropWhile_cons, hminus', Bool.false_eq_true, if_false, hhex]

theorem strtoul_digits {base : Nat} {ds : Bytes} (hne : ds ≠ []) (hds : ∀ c ∈ ds, IsDigit base c ∧ c < 71) :
    strtoul ds base = min (number base (digitsOf base ds)) (2 ^ 64 - 1) := by
  have hhex : skipHex base ds = ds := skipHex_eq fun c hc => (hds c hc).2
  obtain ⟨c, s, rfl⟩ := List.exists_cons_of_ne_nil hne
  obtain ⟨hspace, hminus, hplus⟩ := (hds c (by simp)).1.head
  simp only [strtoul, List.dropWhile_cons, hspace, Bool.false_eq_true, if_false]
  split
  next h => exact absurd (List.cons.inj h).1 hminus
  next h => exact absurd (List.cons.inj h).1 hplus
  next => rw [hhex]

theorem bounds_iff {base : UInt32} : ¬(base < 2 ∨ 16 < base) ↔ 2 ≤ base.toNat ∧ base.toNat ≤ 16 := by
  rw [UInt32.lt_iff_toNat_lt, UInt32.lt_iff_toNat_lt]
  simp only [UInt32.reduceToNat]
  omega

/-- `String::Val` writes a sign and the digits of the magnitude. -/
theorem val_spec (base : UInt32) (hb : 2 ≤ base.toNat ∧ base.toNat ≤ 16) (num : Int32) :
    ∃ ds, ds ≠ [] ∧ (∀ c ∈ ds, IsDigit base.toNat c ∧ c < 71) ∧
      number base.toNat (digitsOf base.toNat ds) = num.toInt.natAbs ∧
      val num base = if num < 0 then 45 :: ds else ds := by
  have hmag := toNat_magnitude num
  have hlt := num.toInt_lt
  have hge := num.le_toInt
  have hpow : num.toInt.natAbs < base.toNat ^ 33 := by
    have : 2 ^ 33 ≤ base.toNat ^ 33 := Nat.pow_le_pow_left hb.1 33
    omega
  obtain ⟨ds, hrun, hds, hnum, hne⟩ := numeral_spec hb 33 _ [] hpow
  rw [← hmag, ← valLoop_eq, List.append_nil] at hrun
  refine ⟨ds, hne (by decide), hds, hnum, ?_⟩
  rw [val, if_neg (bounds_iff.mpr hb)]
  simp only [hrun]

/-- The number of characters of a number that is not negative. -/
theorem length_val (base : UInt32) (hb : 2 ≤ base.toNat ∧ base.toNat ≤ 16) {num : Int32} {k : Nat}
    (hlow : (base.toNat ^ k : Nat) ≤ num.toInt) (hhigh : num.toInt < (base.toNat ^ (k + 1) : Nat)) :
    (val num base).length = k + 1 := by
  have hmag := toNat_magnitude num
  have hpos : ¬num < 0 := by
    rw [neg_iff]
    omega
  have hk : k < 33 := by
    have hlt := num.toInt_lt
    by_contra hk
    have : 2 ^ 33 ≤ base.toNat ^ k :=
      (Nat.pow_le_pow_right (by omega) (by omega)).trans (Nat.pow_le_pow_left hb.1 k)
    omega
  rw [if_neg hpos] at hmag
  rw [val, if_neg (bounds_iff.mpr hb)]
  simp only [if_neg hpos]
  rw [valLoop_eq, length_numeral hb.1 k 33 _ [] (by rw [hmag]; omega) (by rw [hmag]; omega) hk]
  rfl

/-- `String::Int` reads what `String::Val` writes. -/
theorem int_val (base : UInt32) (hb : 2 ≤ base.toNat ∧ base.toNat ≤ 16) (num : Int32) :
    int (val num base) base.toNat = num := by
  have hlt := num.toInt_lt
  have hge := num.le_toInt
  have hsign := neg_iff num
  obtain ⟨ds, hne, hds, hnum, hval⟩ := val_spec base hb num
  obtain ⟨hpos, hneg⟩ := strtol_digits hne hds
  have hstrtol : strtol (val num base) base.toNat = num.toInt := by
    rw [hval]
    split
    next h =>
      have := hsign.mp h
      rw [hneg, hnum]
      omega
    next h =>
      rw [hsign] at h
      rw [hpos, hnum]
      omega
  rw [int, hstrtol, Int32.ofInt_toInt]

/-- `String::Val` of an unsigned number writes its digits. -/
theorem valUInt32_spec (base : UInt32) (hb : 2 ≤ base.toNat ∧ base.toNat ≤ 16) (num : UInt32) :
    ∃ ds, ds ≠ [] ∧ (∀ c ∈ ds, IsDigit base.toNat c ∧ c < 71) ∧
      number base.toNat (digitsOf base.toNat ds) = num.toNat ∧ valUInt32 num base = ds := by
  have hlt := num.toNat_lt
  have hpow : 2 ^ 33 ≤ base.toNat ^ 33 := Nat.pow_le_pow_left hb.1 33
  obtain ⟨ds, hrun, hds, hnum, hne⟩ := numeral_spec hb 33 num.toNat [] (by omega)
  rw [← valLoop_eq, List.append_nil] at hrun
  exact ⟨ds, hne (by decide), hds, hnum, (if_neg (bounds_iff.mpr hb)).trans hrun⟩

/-- `String::UInt` reads what `String::Val` writes. -/
theorem uint_valUInt32 (base : UInt32) (hb : 2 ≤ base.toNat ∧ base.toNat ≤ 16) (num : UInt32) :
    uint (valUInt32 num base) base.toNat = num := by
  have hlt := num.toNat_lt
  obtain ⟨ds, hne, hds, hnum, hval⟩ := valUInt32_spec base hb num
  rw [hval, uint, strtoul_digits hne hds, hnum, Nat.min_eq_left (by omega), UInt32.ofNat_toNat]

/-- The characters of a decimal number. -/
theorem mem_val {num : Int32} {c : UInt8} (hc : c ∈ val num 10) : c = 45 ∨ 48 ≤ c ∧ c ≤ 57 := by
  obtain ⟨ds, -, hds, -, hval⟩ := val_spec 10 (by decide) num
  have hc : c = 45 ∨ c ∈ ds := by
    rw [hval] at hc
    split at hc
    · exact List.mem_cons.mp hc
    · exact Or.inr hc
  rcases hc with hc | hc
  · exact Or.inl hc
  · obtain ⟨n, hn, hdigit⟩ := (hds c hc).1
    have hn : n < 10 := hn
    unfold digit at hdigit
    split at hdigit
    next h => exact Or.inr h
    next =>
      split at hdigit
      next h =>
        have := UInt8.le_iff_toNat_le.mp h.1
        simp only [UInt8.reduceToNat] at this
        cases Option.some.inj hdigit
        omega
      next =>
        split at hdigit
        next h =>
          have := UInt8.le_iff_toNat_le.mp h.1
          simp only [UInt8.reduceToNat] at this
          cases Option.some.inj hdigit
          omega
        next => simp at hdigit

theorem val_ne_nil (num : Int32) : val num 10 ≠ [] := by
  obtain ⟨ds, hne, -, -, hval⟩ := val_spec 10 (by decide) num
  rw [hval]
  split
  · simp
  · exact hne

/-- A decimal numeral without a leading zero. -/
structure Decimal (s : Bytes) : Prop where
  digits : ∀ c ∈ s, 48 ≤ c ∧ c ≤ 57
  lead : s.head? ≠ some 48
  nonempty : s ≠ []

theorem number_pos {base : Nat} (hb : 0 < base) {d : Nat} (hd : 0 < d) (ds : List Nat) :
    0 < number base (d :: ds) := by
  have hfold : ∀ (ds : List Nat) (n : Nat), 0 < n → 0 < ds.foldl (fun n d => n * base + d) n := by
    intro ds
    induction ds with
    | nil => exact fun n hn => hn
    | cons d ds ih =>
      intro n hn
      have := Nat.mul_pos hn hb
      exact ih (n * base + d) (by omega)
  rw [number, List.foldl_cons]
  exact hfold ds (0 * base + d) (by omega)

theorem Decimal.pos {s : Bytes} (h : Decimal s) : 0 < number 10 (digitsOf 10 s) := by
  obtain ⟨c, s, rfl⟩ := List.exists_cons_of_ne_nil h.nonempty
  have hc := h.digits c (by simp)
  have hne : c ≠ 48 := fun he => h.lead (by simp [he])
  have hlt : c.toNat - 48 < 10 := by
    have := UInt8.le_iff_toNat_le.mp hc.2
    simp only [UInt8.reduceToNat] at this
    omega
  have hgt : 0 < c.toNat - 48 := by
    have hle := UInt8.le_iff_toNat_le.mp hc.1
    have hneq : c.toNat ≠ (48 : UInt8).toNat := fun he => hne (UInt8.toNat_inj.mp he)
    simp only [UInt8.reduceToNat] at hle hneq
    omega
  have hdigit : digit c = some (c.toNat - 48) := if_pos hc
  rw [digitsOf_cons hdigit hlt]
  exact number_pos (by decide) hgt _

/-- A number has one numeral without a leading zero. -/
theorem numeral_decimal {s : Bytes} (hs : Decimal s) {fuel nn : Nat} (hnn : nn = number 10 (digitsOf 10 s))
    (hfuel : nn < 10 ^ fuel) (p : Bytes) : numeral 10 fuel nn p = s ++ p := by
  induction s using List.reverseRecOn generalizing fuel nn p with
  | nil => exact absurd rfl hs.nonempty
  | append_singleton s c ih =>
    have hc := hs.digits c (by simp)
    have hle := UInt8.le_iff_toNat_le.mp hc.1
    have hge := UInt8.le_iff_toNat_le.mp hc.2
    simp only [UInt8.reduceToNat] at hle hge
    have hlt : c.toNat - 48 < 10 := by omega
    have hdigit : digit c = some (c.toNat - 48) := if_pos hc
    have hds : ∀ x ∈ s, IsDigit 10 x := fun x hx => isDigit_ten (hs.digits x (by simp [hx]))
    have hone : digitsOf 10 [c] = [c.toNat - 48] := by rw [digitsOf_cons hdigit hlt, digitsOf]
    rw [digitsOf_append hds, hone, number_append] at hnn
    have hmod : nn % 10 = c.toNat - 48 := by omega
    have hdiv : nn / 10 = number 10 (digitsOf 10 s) := by omega
    have hchar : charAt HEX (nn % 10) = c := by
      rw [hmod]
      have key : ∀ n < 10, charAt HEX n = UInt8.ofNat (n + 48) := by decide
      rw [key _ hlt, Nat.sub_add_cancel hle, UInt8.ofNat_toNat]
    obtain ⟨fuel, rfl⟩ : ∃ n, fuel = n + 1 := by
      cases fuel with
      | zero =>
        have := hs.pos
        rw [digitsOf_append hds, hone, number_append] at this
        omega
      | succ n => exact ⟨n, rfl⟩
    simp only [numeral, hchar]
    by_cases he : s = []
    · have hz : nn / 10 = 0 := by
        rw [he] at hdiv
        exact hdiv
      rw [if_neg (not_not_intro hz), he]
      rfl
    · have hs' : Decimal s := by
        refine ⟨fun x hx => hs.digits x (by simp [hx]), ?_, he⟩
        have := hs.lead
        obtain ⟨x, s, rfl⟩ := List.exists_cons_of_ne_nil he
        simpa using this
      have hpos := hs'.pos
      rw [if_pos (by omega), ih hs' hdiv (by rw [Nat.pow_succ] at hfuel; omega), List.append_assoc,
        List.singleton_append]

/-- The loop writes the one numeral of its number that has no leading zero. -/
theorem valLoop_decimal {s : Bytes} (hs : Decimal s) {fuel : Nat} {nn : UInt32}
    (hnn : nn.toNat = number 10 (digitsOf 10 s)) (hfuel : nn.toNat < 10 ^ fuel) (p : Bytes) :
    valLoop 10 fuel nn p = s ++ p := by
  rw [valLoop_eq]
  exact numeral_decimal hs hnn hfuel p

end Bytes

end Srl
