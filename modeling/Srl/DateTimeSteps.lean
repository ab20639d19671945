import Srl.DateYears
import Srl.Transition

namespace Srl

open CheckedInt

/-- `Date::addToDay`, which has no result when its arithmetic overflows. -/
def Date.addToDayInt (date : Date) (days : Int) : Option Date := do
  let julian ← int (date.julian + days)
  let _ ← int (julian + 32045)
  pure (date.addToDay days)

/-- `Date(int32 julian_date)`. -/
def Date.ofJulian (julian_date : Int) : Option Date := do
  let _ ← int (julian_date + 32045)
  pure (updateYmd ⟨0, 0, 0, julian_date⟩)

namespace DateTime

/-- `Date::addToDay(Time::rescale())`, which takes the seconds of the days in an `int`. -/
def settle (dt : DateTime) : Option DateTime := do
  let new_days ← int (rescale dt.time).1
  let _ ← int (new_days * 86400)
  let date ← dt.toDate.addToDayInt new_days
  pure ⟨date, (rescale dt.time).2⟩

/-- `DateTime(float64 sec, int32 julian_days)`, for a whole number of seconds. -/
def ofSeconds (sec julian_days : Int) : Option DateTime := do
  let date ← Date.ofJulian julian_days
  settle ⟨date, sec⟩

def addToHour (dt : DateTime) (hours : Int) : Option DateTime := do
  settle { dt with time := dt.time + (← int (hours * 3600)) }

def addToMinute (dt : DateTime) (minutes : Int) : Option DateTime := do
  settle { dt with time := dt.time + (← int (minutes * 60)) }

/-- `operator++`. -/
def increment (dt : DateTime) : Option DateTime := settle { dt with time := dt.time + 1 }

/-- `operator--`. -/
def decrement (dt : DateTime) : Option DateTime := settle { dt with time := dt.time - 1 }

/-- `operator+=(const int32)`. -/
def plus (dt : DateTime) (seconds : Int) : Option DateTime := settle { dt with time := dt.time + seconds }

/-- `operator-=(const int32)`. -/
def minus (dt : DateTime) (seconds : Int) : Option DateTime := settle { dt with time := dt.time - seconds }

/-- The calls that move a `DateTime`. -/
inductive Move
  | addToHour (hours : Int)
  | addToMinute (minutes : Int)
  | increment
  | decrement
  | plus (seconds : Int)
  | minus (seconds : Int)

def call (dt : DateTime) : Move → Option DateTime
  | .addToHour hours => dt.addToHour hours
  | .addToMinute minutes => dt.addToMinute minutes
  | .increment => dt.increment
  | .decrement => dt.decrement
  | .plus seconds => dt.plus seconds
  | .minus seconds => dt.minus seconds

/-- The seconds that a call asks for. -/
def Move.requested : Move → Int
  | .addToHour hours => hours * 3600
  | .addToMinute minutes => minutes * 60
  | .increment => 1
  | .decrement => -1
  | .plus seconds => seconds
  | .minus seconds => -seconds

/-- The seconds of its hours or minutes are an `int`. -/
def Move.Small : Move → Prop
  | .addToHour hours => Fits (hours * 3600)
  | .addToMinute minutes => Fits (minutes * 60)
  | _ => True

/-- The seconds since the day 0. -/
def total (dt : DateTime) : Int := 86400 * dt.julian + dt.time

/-- What `rescale` can carry over into the days: no single day, none that is missing in part, and no
overflow on the way. -/
structure Settles (julian time : Int) : Prop where
  whole : 0 ≤ time ∧ time ≠ 86400 ∨ time < 0 ∧ 86400 ∣ time
  time_fits : -2147558400 < time ∧ time < 2147558400
  julian_fits : -2147483648 ≤ julian + time / 86400 ∧ julian + time / 86400 + 32045 ≤ 2147483647

/-- The seconds are those of one day, and the fields of the date are those of the julian number: in the years
from -4712 to 32767, the day of the calendar that has this number. -/
structure Settled (dt : DateTime) : Prop where
  time_range : 0 ≤ dt.time ∧ dt.time < 86400
  fields : dt.toDate.updateYmd = dt.toDate
  calendar : 38 ≤ dt.julian ∧ dt.julian ≤ 13689325 →
    Date.Valid dt.day dt.month dt.year.toInt ∧ dt.toDate.updateJulian.julian = dt.julian

/-- The condition on a call, in the state in which it is made. -/
def Allowed (dt : DateTime) (m : Move) : Prop := m.Small ∧ Settles dt.julian (dt.time + m.requested)

variable {dt dt' : DateTime} {m : Move} {ms : List Move} {sec julian : Int}

theorem rescale_eq (h : 0 ≤ sec ∧ sec ≠ 86400 ∨ sec < 0 ∧ 86400 ∣ sec) : rescale sec = (sec / 86400, sec % 86400) := by
  have hquot := tdiv_eq_ite (by decide : (0 : Int) < 86400) sec
  rw [if_pos (h.imp And.left And.right)] at hquot
  unfold rescale
  rw [hquot]
  split
  next => rw [Prod.mk.injEq]; omega
  next => rw [Prod.mk.injEq]; omega

/-- `rescale` leaves the seconds of one day just if none of the others is left to it. -/
theorem rescale_range_iff (sec : Int) : 0 ≤ (rescale sec).2 ∧ (rescale sec).2 < 86400 ↔
    0 ≤ sec ∧ sec ≠ 86400 ∨ sec < 0 ∧ 86400 ∣ sec := by
  constructor
  · intro hrange
    have hquot := tdiv_eq_ite (by decide : (0 : Int) < 86400) sec
    unfold rescale at hrange
    rw [hquot] at hrange
    split at hrange
    next => split at hrange <;> dsimp only at hrange <;> omega
    next => dsimp only at hrange; omega
  · intro h
    rw [rescale_eq h]
    exact ⟨Int.emod_nonneg sec (by decide), Int.emod_lt_of_pos sec (by decide)⟩

theorem settled_of_fields (htime : 0 ≤ dt.time ∧ dt.time < 86400) (hfields : dt.toDate.updateYmd = dt.toDate) :
    Settled dt := by
  refine ⟨htime, hfields, fun ⟨hlow, hhigh⟩ => ?_⟩
  have hvalid := (@Date.valid_updateYmd dt.toDate hlow hhigh).1
  have hjulian := Date.julian_updateYmd dt.toDate (by omega) (by omega)
  rw [hfields] at hvalid hjulian
  exact ⟨hvalid, hjulian⟩

theorem settle_spec (h : Settles dt.julian dt.time) :
    ∃ dt', settle dt = some dt' ∧ Settled dt' ∧ dt'.total = dt.total := by
  obtain ⟨hlow, hhigh⟩ := h.time_fits
  obtain ⟨hearly, hlate⟩ := h.julian_fits
  have hwhole := h.whole
  have hjulian : (dt.toDate.addToDay (dt.time / 86400)).julian = dt.julian + dt.time / 86400 :=
    Date.updateYmd_keeps_julian _
  refine ⟨⟨dt.toDate.addToDay (dt.time / 86400), dt.time % 86400⟩, ?_,
    settled_of_fields ?_ (Date.updateYmd_congr hjulian), ?_⟩
  · unfold settle
    rw [rescale_eq hwhole, int_bind ⟨by omega, by omega⟩, int_bind ⟨by omega, by omega⟩, Date.addToDayInt,
      int_bind ⟨by omega, by omega⟩, int_bind ⟨by omega, by omega⟩]
    rfl
  · exact ⟨Int.emod_nonneg _ (by decide), Int.emod_lt_of_pos _ (by decide)⟩
  · show 86400 * (dt.toDate.addToDay (dt.time / 86400)).julian + dt.time % 86400 = 86400 * dt.julian + dt.time
    rw [hjulian]
    omega

theorem call_eq (h : m.Small) : dt.call m = settle { dt with time := dt.time + m.requested } := by
  cases m with
  | addToHour hours => exact int_bind h _
  | addToMinute minutes => exact int_bind h _
  | increment => rfl
  | decrement => rfl
  | plus seconds => rfl
  | minus seconds => rfl

theorem call_spec (h : Allowed dt m) :
    ∃ dt', dt.call m = some dt' ∧ Settled dt' ∧ dt'.total = dt.total + m.requested := by
  obtain ⟨dt', hrun, hsettled, htotal⟩ := @settle_spec { dt with time := dt.time + m.requested } h.2
  refine ⟨dt', (call_eq h.1).trans hrun, hsettled, htotal.trans ?_⟩
  show 86400 * dt.julian + (dt.time + m.requested) = 86400 * dt.julian + dt.time + m.requested
  omega

theorem run_spec (hdt : Settled dt) (h : Transition.Along call Allowed dt ms) :
    ∃ dt', Transition.run call dt ms = some dt' ∧ Settled dt' ∧
      dt'.total = dt.total + (ms.map Move.requested).sum := by
  induction ms generalizing dt with
  | nil => exact ⟨dt, rfl, hdt, (Int.add_zero _).symm⟩
  | cons m ms ih =>
    obtain ⟨dt₁, hcall, hsettled, htotal⟩ := call_spec h.1
    obtain ⟨dt', hrun, hsettled', htotal'⟩ := ih hsettled (h.2 dt₁ hcall)
    refine ⟨dt', ?_, hsettled', ?_⟩
    · rw [Transition.run, hcall]
      exact hrun
    · rw [htotal', htotal, List.map_cons, List.sum_cons, Int.add_assoc]

theorem ofSeconds_spec (hjulian : Fits (julian + 32045)) (h : Settles julian sec) :
    ∃ dt, ofSeconds sec julian = some dt ∧ Settled dt ∧ dt.total = 86400 * julian + sec := by
  obtain ⟨dt, hrun, hsettled, htotal⟩ := @settle_spec ⟨(⟨0, 0, 0, julian⟩ : Date).updateYmd, sec⟩ h
  refine ⟨dt, ?_, hsettled, htotal⟩
  unfold ofSeconds
  rw [Date.ofJulian, int_bind hjulian]
  exact hrun

/-- A run of calls that leave `rescale` no part of a day that is missing, and no single day, keeps the seconds
within one day and carries the rest over. -/
theorem run_settled (hjulian : Fits (julian + 32045)) (hsec : Settles julian sec)
    (hcalls : ∀ dt, ofSeconds sec julian = some dt → Transition.Along call Allowed dt ms) :
    ∃ dt, ofSeconds sec julian = some dt ∧ ∀ ms', ms' <+: ms → ∃ dt', Transition.run call dt ms' = some dt' ∧
      Settled dt' ∧ dt'.total = 86400 * julian + sec + (ms'.map Move.requested).sum := by
  obtain ⟨dt, hdt, hsettled, htotal⟩ := ofSeconds_spec hjulian hsec
  refine ⟨dt, hdt, fun ms' hms' => ?_⟩
  obtain ⟨rest, rfl⟩ := hms'
  obtain ⟨dt', hrun, hsettled', htotal'⟩ := run_spec hsettled (Transition.along_append (hcalls dt hdt)).1
  exact ⟨dt', hrun, hsettled', htotal'.trans (by rw [htotal])⟩

theorem run_settled_next_day : ∃ dt, ofSeconds 86000 2451545 = some dt ∧ ∀ ms', ms' <+: [.plus 500, .addToHour 30] →
    ∃ dt', Transition.run call dt ms' = some dt' ∧ Settled dt' ∧
      dt'.total = 86400 * 2451545 + 86000 + (ms'.map Move.requested).sum := by
  refine run_settled (by decide) ⟨.inl (by decide), by decide, by decide⟩ fun dt hdt => ?_
  cases hdt
  refine ⟨⟨trivial, .inl (by decide), by decide, by decide⟩, fun dt hdt => ?_⟩
  cases hdt
  exact ⟨⟨(by decide : Fits (30 * 3600)), .inl (by decide), by decide, by decide⟩, fun _ _ => trivial⟩

/-- A whole day of seconds is not carried over. -/
theorem not_run_settled : ¬∀ (sec julian : Int) (ms : List Move), ∃ dt, ofSeconds sec julian = some dt ∧
    ∃ dt', Transition.run call dt ms = some dt' ∧ Settled dt' ∧
      dt'.total = 86400 * julian + sec + (ms.map Move.requested).sum := by
  intro hall
  obtain ⟨dt, hdt, dt', hrun, hsettled, -⟩ := hall 86400 2451545 []
  cases hdt
  cases hrun
  exact absurd hsettled.time_range.2 (by decide)

end DateTime

end Srl
