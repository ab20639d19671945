import Srl.CheckedInt
import Srl.CalendarDays

namespace Srl

open CheckedInt

namespace Date

/-- `_update_julian`, which has no result when its arithmetic overflows. -/
def updateJulianInt (date : Date) : Option Date := do
  let y := date.year.toInt
  let m : Int := date.month.toNat
  let d : Int := date.day.toNat
  let early := (m - 14).tdiv 12
  let days ← int (1461 * (← int ((← int (y + 4800)) + early)))
  let drops ← int (3 * (← int ((← int (y + 4900)) + early)).tdiv 100)
  let sum ← int (d - 32075 + days.tdiv 4)
  let sum ← int (sum + (367 * (m - 2 - early * 12)).tdiv 12)
  let julian ← int (sum - drops.tdiv 4)
  pure { date with julian }

/-- The rows of `__days_in_months`. -/
def daysInMonths (leap : Bool) : List Nat :=
  if leap then [0, 31, 29, 31, 30, 31, 30, 31, 31, 30, 31, 30, 31]
  else [0, 31, 28, 31, 30, 31, 30, 31, 31, 30, 31, 30, 31]

def daysInMonth (date : Date) : Nat := (daysInMonths date.isLeapYear).getD date.month.toNat 0

/-- The years and the months that `addToMonth` makes of a number of months. -/
def yearsAndMonths (tmonths : Int) : Int × Int :=
  let years := tmonths.tdiv 12
  let tmonths := tmonths.tmod 12
  if tmonths < 0 then (years - 1, 12 + tmonths) else (years, tmonths)

/-- The day that `addToMonth` leaves: none behind the last one of the month. -/
def clampDay (date : Date) : Date :=
  if date.day.toNat > date.daysInMonth then { date with day := UInt8.ofNat date.daysInMonth } else date

def addToMonth (date : Date) (months : Int) : Option Date := do
  let tmonths ← int (date.month.toNat + months)
  let new := yearsAndMonths tmonths
  let year ← int (date.year.toInt + new.1)
  updateJulianInt (clampDay { date with month := UInt8.ofInt new.2, year := Int32.ofInt year })

/-- The years whose days `_update_julian` can count. -/
def Counted (year : Int) : Prop := -1474671 ≤ year ∧ year ≤ 1465072

variable {date d : Date} {months : Int}

/-- Nothing overflows in the years that are counted. -/
theorem updateJulianInt_eq (hyear : Counted date.year.toInt) (hm : date.month.toNat ≤ 12) :
    updateJulianInt date = some date.updateJulian := by
  obtain ⟨a, ha⟩ : ∃ a, ((date.month.toNat : Int) - 14).tdiv 12 = a := ⟨_, rfl⟩
  have hearly : -1 ≤ a ∧ a ≤ 0 := by
    rw [← ha, tdiv_eq_ite (by decide)]
    split <;> omega
  have hday := date.day.toNat_lt
  obtain ⟨hlow, hhigh⟩ := hyear
  have hdays := @tdiv_bounds (1461 * (date.year.toInt + 4800 + a)) 537000000 4 (by decide) (by omega) (by omega)
  have hcenturies := @tdiv_bounds (date.year.toInt + 4900 + a) 15000 100 (by decide) (by omega) (by omega)
  have hmonths := @tdiv_bounds (367 * (date.month.toNat - 2 - a * 12)) 1000 12 (by decide) (by omega) (by omega)
  have hdrops := @tdiv_bounds (3 * (date.year.toInt + 4900 + a).tdiv 100) 12000 4 (by decide) (by omega) (by omega)
  simp only [updateJulianInt, updateJulian, ha]
  rw [int_bind ⟨by omega, by omega⟩, int_bind ⟨by omega, by omega⟩, int_bind ⟨by omega, by omega⟩,
    int_bind ⟨by omega, by omega⟩, int_bind ⟨by omega, by omega⟩, int_bind ⟨by omega, by omega⟩,
    int_bind ⟨by omega, by omega⟩, int_bind ⟨by omega, by omega⟩, int_bind ⟨by omega, by omega⟩]
  rfl

theorem updateJulianInt_inv (h : updateJulianInt date = some d) : d = date.updateJulian := by
  unfold updateJulianInt at h
  obtain ⟨-, h⟩ := bind_inv h
  obtain ⟨-, h⟩ := bind_inv h
  obtain ⟨-, h⟩ := bind_inv h
  obtain ⟨-, h⟩ := bind_inv h
  obtain ⟨-, h⟩ := bind_inv h
  obtain ⟨-, h⟩ := bind_inv h
  obtain ⟨-, h⟩ := bind_inv h
  obtain ⟨-, h⟩ := bind_inv h
  obtain ⟨-, h⟩ := bind_inv h
  exact (Option.some.inj h).symm

theorem yearsAndMonths_eq (n : Int) : yearsAndMonths n = (n / 12, n % 12) := by
  have hquot := tdiv_eq_ite (by decide : (0 : Int) < 12) n
  have hrem : n.tmod 12 = n - 12 * n.tdiv 12 := Int.tmod_def n 12
  unfold yearsAndMonths
  rw [hrem, hquot]
  split
  next => rw [if_neg (by omega), Prod.mk.injEq]; omega
  next => rw [if_pos (by omega), Prod.mk.injEq]; omega

theorem isLeapYear_eq (date : Date) : date.isLeapYear = decide (Leap date.year.toInt) := by
  have hdvd : ∀ k : Int, date.year.toInt.tmod k = 0 ↔ date.year.toInt % k = 0 := fun k =>
    Int.dvd_iff_tmod_eq_zero.symm.trans Int.dvd_iff_emod_eq_zero
  rw [Bool.eq_iff_iff, decide_eq_true_iff]
  simp only [isLeapYear, Leap, Bool.or_eq_true, Bool.and_eq_true, decide_eq_true_eq, ne_eq, hdvd]
  omega

theorem daysInMonth_eq (hm : 1 ≤ date.month.toNat ∧ date.month.toNat ≤ 12) :
    date.daysInMonth = monthLength date.year.toInt date.month.toNat := by
  have key : ∀ m ≤ 12, 1 ≤ m → ∀ leap, (daysInMonths leap).getD m 0 =
      if m = 2 then if leap then 29 else 28 else if m = 4 ∨ m = 6 ∨ m = 9 ∨ m = 11 then 30 else 31 := by decide
  rw [daysInMonth, key _ hm.2 hm.1, isLeapYear_eq, monthLength]
  simp only [decide_eq_true_eq]

theorem clampDay_day (h : date.daysInMonth < 256) :
    (clampDay date).day.toNat = min date.day.toNat date.daysInMonth := by
  unfold clampDay
  split
  next hlate =>
    rw [Nat.min_eq_right (Nat.le_of_lt hlate)]
    exact Nat.mod_eq_of_lt h
  next hfits => exact (Nat.min_eq_left (Nat.le_of_not_lt hfits)).symm

theorem clampDay_month (date : Date) : (clampDay date).month = date.month ∧ (clampDay date).year = date.year := by
  unfold clampDay
  split <;> exact ⟨rfl, rfl⟩

/-- `d` lies `months` months after `date`, on the same day or the last one of its month. -/
structure MonthsLater (date : Date) (months : Int) (d : Date) : Prop where
  total_eq : 12 * d.year.toInt + d.month.toNat = 12 * date.year.toInt + date.month.toNat + months
  months : 1 ≤ d.month.toNat ∧ d.month.toNat ≤ 12
  day_eq : d.day.toNat = min date.day.toNat (monthLength d.year.toInt d.month.toNat)
  julian_eq : d.julian = d.updateJulian.julian

theorem toNat_ofInt {n : Int} (hlow : 0 ≤ n) (hhigh : n < 256) : ((UInt8.ofInt n).toNat : Int) = n := by
  simp only [UInt8.ofInt, UInt8.toNat_ofNat']
  omega

/-- What `addToMonth` leaves in the month and the year. -/
theorem addToMonth_inv (h : addToMonth date months = some d) :
    (d.month.toNat : Int) = (date.month.toNat + months) % 12 ∧
      d.year.toInt = date.year.toInt + (date.month.toNat + months) / 12 := by
  obtain ⟨-, h⟩ := bind_inv h
  rw [yearsAndMonths_eq] at h
  obtain ⟨⟨hlow, hhigh⟩, h⟩ := bind_inv h
  obtain rfl := updateJulianInt_inv h
  obtain ⟨hmonth, hyear⟩ := clampDay_month { date with
    month := UInt8.ofInt ((date.month.toNat + months) % 12)
    year := Int32.ofInt (date.year.toInt + (date.month.toNat + months) / 12) }
  constructor
  · show ((clampDay _).month.toNat : Int) = _
    rw [hmonth]
    exact toNat_ofInt (by omega) (by omega)
  · show (clampDay _).year.toInt = _
    rw [hyear]
    exact Int32.toInt_ofInt_of_le hlow (by omega)

/-- `addToMonth`, where the new month is not taken for the month 0. -/
theorem addToMonth_spec (hyear : Counted date.year.toInt)
    (hnew : Counted (date.year.toInt + (date.month.toNat + months) / 12))
    (hzero : (date.month.toNat + months) % 12 ≠ 0) :
    ∃ d, addToMonth date months = some d ∧ MonthsLater date months d := by
  obtain ⟨hlow, hhigh⟩ := hyear
  obtain ⟨hlow', hhigh'⟩ := hnew
  let next : Date := { date with
    month := UInt8.ofInt ((date.month.toNat + months) % 12)
    year := Int32.ofInt (date.year.toInt + (date.month.toNat + months) / 12) }
  have hmonth : (next.month.toNat : Int) = (date.month.toNat + months) % 12 := toNat_ofInt (by omega) (by omega)
  have hyear : next.year.toInt = date.year.toInt + (date.month.toNat + months) / 12 :=
    Int32.toInt_ofInt_of_le (by omega) (by omega)
  have hlength := @daysInMonth_eq next (by omega)
  have hfew : monthLength next.year.toInt next.month.toNat < 256 := by
    unfold monthLength
    split_ifs <;> omega
  obtain ⟨hsame, hsame'⟩ := clampDay_month next
  have hclamp := @clampDay_day next (by omega)
  have hrun : addToMonth date months = some (clampDay next).updateJulian := by
    unfold addToMonth
    rw [int_bind ⟨by omega, by omega⟩, yearsAndMonths_eq, int_bind ⟨by omega, by omega⟩]
    exact updateJulianInt_eq (hsame' ▸ ⟨by omega, by omega⟩) (hsame ▸ by omega)
  refine ⟨_, hrun, ?_, ?_, ?_, rfl⟩
  · show 12 * (clampDay next).year.toInt + (clampDay next).month.toNat = _
    rw [hsame, hsame', hmonth, hyear]
    omega
  · show 1 ≤ (clampDay next).month.toNat ∧ (clampDay next).month.toNat ≤ 12
    rw [hsame]
    omega
  · show (clampDay next).day.toNat =
      min date.day.toNat (monthLength (clampDay next).year.toInt (clampDay next).month.toNat)
    rw [hsame, hsame', ← hlength]
    exact hclamp

/-- `addToMonth` is right just if the month it comes to is not December, which it takes for the month 0 of the
next year. -/
theorem addToMonth_iff (hyear : Counted date.year.toInt)
    (hnew : Counted ((12 * date.year.toInt + date.month.toNat - 1 + months) / 12)) :
    (∃ d, addToMonth date months = some d ∧ MonthsLater date months d) ↔ (date.month.toNat + months) % 12 ≠ 0 := by
  constructor
  · rintro ⟨d, hrun, hlater⟩ hzero
    have hmonth := (addToMonth_inv hrun).1
    have hpos := hlater.months.1
    omega
  · intro hzero
    have hsame : (12 * date.year.toInt + date.month.toNat - 1 + months) / 12 =
        date.year.toInt + (date.month.toNat + months) / 12 := by omega
    exact addToMonth_spec hyear (hsame ▸ hnew) hzero

theorem addToMonth_iff_february : ∃ d, addToMonth ⟨31, 1, 2000, 2451575⟩ 1 = some d ∧
    MonthsLater ⟨31, 1, 2000, 2451575⟩ 1 d :=
  (addToMonth_iff ⟨by decide, by decide⟩ ⟨by decide, by decide⟩).mpr (by decide)

/-- A month after November is a month 0. -/
theorem not_addToMonth : ¬∀ (date : Date) (months : Int), Valid date.day date.month date.year.toInt →
    Counted date.year.toInt → Counted ((12 * date.year.toInt + date.month.toNat - 1 + months) / 12) →
    ∃ d, addToMonth date months = some d ∧ MonthsLater date months d := by
  intro hall
  have hlater := hall ⟨15, 11, 2000, 2451864⟩ 1 ⟨by decide, by decide⟩ ⟨by decide, by decide⟩ ⟨by decide, by decide⟩
  exact (addToMonth_iff ⟨by decide, by decide⟩ ⟨by decide, by decide⟩).mp hlater (by decide)

end Date

end Srl
