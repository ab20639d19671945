import Srl.FloatInt

namespace Srl.Radmin

/-- `Trigger::Checks`, of which a trigger tests single bits. -/
inductive Checks
  | STARTED
  | STOPPED
  | OUTPUT
  | GREATER_THAN
  | LESS_THAN
  | EQUAL_TO
deriving DecidableEq

def Checks.toInt : Checks → Int32
  | .STARTED => 0
  | .STOPPED => 1
  | .OUTPUT => 2
  | .GREATER_THAN => 3
  | .LESS_THAN => 4
  | .EQUAL_TO => 5

structure ValueTrigger where
  _actions : Int32
  _checks : Int32
  _value_id : Int32
  _int_value : Int32
  _float_value : Float.Model
deriving DecidableEq

namespace ValueTrigger

/-- The constructor with a threshold of type `int`. -/
def ofInt (actions checks value_id value : Int32) : ValueTrigger :=
  ⟨actions, checks, value_id, value, Float.Model.ofInt32 value⟩

/-- The test `_checks & check`. -/
def Tests (checks : Int32) (check : Checks) : Prop := checks &&& check.toInt ≠ 0

instance (checks : Int32) (check : Checks) : Decidable (Tests checks check) :=
  inferInstanceAs (Decidable (_ ≠ _))

def check (v : ValueTrigger) (data : Int32) : Bool :=
  if Tests v._checks .GREATER_THAN ∧ Tests v._checks .EQUAL_TO then data ≥ v._int_value
  else if Tests v._checks .LESS_THAN ∧ Tests v._checks .EQUAL_TO then data ≤ v._int_value
  else if Tests v._checks .EQUAL_TO then data = v._int_value
  else if Tests v._checks .GREATER_THAN then data > v._int_value
  else if Tests v._checks .LESS_THAN then data < v._int_value
  else false

def checkUInt32 (v : ValueTrigger) (data : UInt32) : Bool := v.check data.toInt32

/-- `check` for a `double`, which has no branch for `EQUAL_TO` alone. -/
def checkDouble (v : ValueTrigger) (data : Float.Model) : Bool :=
  if Tests v._checks .GREATER_THAN ∧ Tests v._checks .EQUAL_TO then data ≥ v._float_value
  else if Tests v._checks .LESS_THAN ∧ Tests v._checks .EQUAL_TO then data ≤ v._float_value
  else if Tests v._checks .GREATER_THAN then data > v._float_value
  else if Tests v._checks .LESS_THAN then data < v._float_value
  else false

variable {actions checks value_id t x : Int32}

/-- The bits of `EQUAL_TO` are bits of `GREATER_THAN` and `LESS_THAN`: equality is never tested alone. -/
theorem tests_of_equal_to (checks : Int32) (h : Tests checks .EQUAL_TO) :
    Tests checks .GREATER_THAN ∨ Tests checks .LESS_THAN := by
  by_contra hnone
  simp only [Tests, Checks.toInt, not_or, not_not] at h hnone
  apply h
  calc checks &&& 5 = checks &&& 3 &&& 1 ||| checks &&& 4 := by
        rw [Int32.and_assoc]
        exact Int32.toBitVec_inj.mp (BitVec.and_or_distrib_left (y := 1) (z := 4))
    _ = 0 := by
        rw [hnone.1, hnone.2]
        rfl

/-- An `int` fits into the significand of a `double`. -/
theorem toInt_fits (t : Int32) : -2 ^ 53 < t.toInt ∧ t.toInt < 2 ^ 53 := by
  have hlow := t.le_toInt
  have hhigh := t.toInt_lt
  omega

theorem ofInt32_lt : Float.Model.ofInt32 t < Float.Model.ofInt32 x ↔ t < x := by
  rw [Int32.lt_iff_toInt_lt]
  exact FloatInt.ofInt_lt_ofInt (toInt_fits t) (toInt_fits x)

theorem ofInt32_le : Float.Model.ofInt32 t ≤ Float.Model.ofInt32 x ↔ t ≤ x := by
  rw [Int32.le_iff_toInt_le]
  exact FloatInt.ofInt_le_ofInt (toInt_fits t) (toInt_fits x)

/-- Whatever the bits are, the two copies of the cascade agree. -/
theorem checkDouble_ofInt32 :
    (ofInt actions checks value_id t).checkDouble (.ofInt32 x) = (ofInt actions checks value_id t).check x := by
  generalize hv : ofInt actions checks value_id t = v
  have hint : v._int_value = t := by
    rw [← hv]
    rfl
  have hfloat : v._float_value = .ofInt32 t := by
    rw [← hv]
    rfl
  have htests := tests_of_equal_to v._checks
  simp only [checkDouble, check, hint, hfloat, ge_iff_le, gt_iff_lt, ofInt32_lt, ofInt32_le]
  split
  next => rfl
  next hgt =>
    split
    next => rfl
    next hlt =>
      have hne : ¬Tests v._checks .EQUAL_TO := by
        intro heq
        obtain h | h := htests heq
        · exact hgt ⟨h, heq⟩
        · exact hlt ⟨h, heq⟩
      rw [if_neg hne]

theorem checkUInt32_toUInt32 (v : ValueTrigger) (x : Int32) : v.checkUInt32 x.toUInt32 = v.check x :=
  congrArg v.check (Int32.toInt32_toUInt32 x)

theorem check_greater_than : (ofInt actions Checks.GREATER_THAN.toInt value_id t).check x = decide (t ≤ x) := by
  have hgt : Tests Checks.GREATER_THAN.toInt .GREATER_THAN := by decide
  have heq : Tests Checks.GREATER_THAN.toInt .EQUAL_TO := by decide
  exact if_pos ⟨hgt, heq⟩

theorem check_less_than : (ofInt actions Checks.LESS_THAN.toInt value_id t).check x = decide (x ≤ t) := by
  have hgt : ¬Tests Checks.LESS_THAN.toInt .GREATER_THAN := by decide
  have hlt : Tests Checks.LESS_THAN.toInt .LESS_THAN := by decide
  have heq : Tests Checks.LESS_THAN.toInt .EQUAL_TO := by decide
  exact (if_neg fun h => hgt h.1).trans (if_pos ⟨hlt, heq⟩)

theorem check_equal_to : (ofInt actions Checks.EQUAL_TO.toInt value_id t).check x = decide (t ≤ x) := by
  have hgt : Tests Checks.EQUAL_TO.toInt .GREATER_THAN := by decide
  have heq : Tests Checks.EQUAL_TO.toInt .EQUAL_TO := by decide
  exact if_pos ⟨hgt, heq⟩

/-- A trigger with the threshold `t` answers `answer` for `x`, given as an `int` and as a `double`. -/
def Answers (checks : Checks) (t x : Int32) (answer : Prop) : Prop :=
  ∀ actions value_id,
    ((ofInt actions checks.toInt value_id t).check x = true ↔ answer) ∧
      ((ofInt actions checks.toInt value_id t).checkDouble (.ofInt32 x) = true ↔ answer)

theorem answers_iff {checks : Checks} {answer : Prop} {p : Bool}
    (h : ∀ actions value_id, (ofInt actions checks.toInt value_id t).check x = p) :
    Answers checks t x answer ↔ (p = true ↔ answer) := by
  simp only [Answers, checkDouble_ofInt32, h, and_self, forall_const]

/-- The thresholds themselves count as greater and as less, and what is greater counts as equal. -/
theorem answers_as_named_iff (t x : Int32) :
    (Answers .GREATER_THAN t x (x > t) ↔ x ≠ t) ∧ (Answers .LESS_THAN t x (x < t) ↔ x ≠ t) ∧
      (Answers .EQUAL_TO t x (x = t) ↔ x ≤ t) := by
  refine ⟨?_, ?_, ?_⟩
  · rw [answers_iff fun _ _ => check_greater_than, decide_eq_true_iff]
    grind
  · rw [answers_iff fun _ _ => check_less_than, decide_eq_true_iff]
    grind
  · rw [answers_iff fun _ _ => check_equal_to, decide_eq_true_iff]
    grind

theorem not_answers_as_named :
    ¬∀ t x : Int32, Answers .GREATER_THAN t x (x > t) ∧ Answers .LESS_THAN t x (x < t) ∧
      Answers .EQUAL_TO t x (x = t) := by
  intro h
  have hcheck := ((h 5 6).2.2 0 0).1
  revert hcheck
  decide

end ValueTrigger

end Srl.Radmin
