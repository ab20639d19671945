import Srl.DateMonths

namespace Srl

open CheckedInt

namespace Date

/-- `Date::toTM`. -/
def toTM (date : Date) : Tm where
  tm_sec := 0
  tm_min := 0
  tm_hour := 0
  tm_mday := date.day.toNat
  tm_mon := date.month.toNat - 1
  tm_year := date.year.toInt - 1900
  tm_wday := if date.dayOfWeek = 7 then 0 else date.dayOfWeek
  tm_yday := date.dayOfYear - 1
  tm_isdst := -1

theorem toTM_dateTime (dt : DateTime) :
    dt.toTM = { dt.toDate.toTM with tm_sec := dt.second, tm_min := dt.minute, tm_hour := dt.hour } := rfl

/-- The 29th of February that a year without one has on the 28th. -/
def leaveLeapDay (date : Date) : Date :=
  if date.month = 2 ∧ date.day = 29 then if !date.isLeapYear then { date with day := 28 } else date else date

def addToYear (date : Date) (years : Int) : Option Date := do
  let year ← int (date.year.toInt + years)
  updateJulianInt (leaveLeapDay { date with year := Int32.ofInt year })

/-- The 1st of January of the year. -/
def newYear (date : Date) : Date := updateJulian { date with day := 1, month := 1 }

variable {date d : Date} {years : Int}

/-- The days of the year before a month, in the table and in the formula. -/
theorem daysInYear_eq (leap : Bool) {m : Nat} (hm : 3 ≤ m ∧ m ≤ 12) :
    ((daysInYear leap).getD m 0 : Int) + monthStart 11 = (if leap then 366 else 365) + monthStart (m - 2) :=
  (by decide : ∀ m ≤ 12, 3 ≤ m → ∀ leap, ((daysInYear leap).getD m 0 : Int) + monthStart 11 =
    (if leap then 366 else 365) + monthStart (m - 2)) m hm.2 hm.1 leap

theorem dayOfYear_eq (hv : Valid date.day date.month date.year.toInt) (hy : -4799 ≤ date.year.toInt) :
    (date.dayOfYear : Int) = date.updateJulian.julian - date.newYear.julian + 1 := by
  obtain ⟨Y, hY⟩ := Int.eq_ofNat_of_zero_le (show 0 ≤ date.year.toInt + 4799 by omega)
  have hm := hv.months
  have hone : (1 : UInt8).toNat = 1 := rfl
  have hfirst := @julian_eq { date with day := 1, month := 1 } Y 11 (by simp only; decide)
    ⟨.inl ⟨(by decide : (1 : UInt8).toNat ≤ 2), hY, rfl⟩⟩
  rw [newYear, hfirst, hone, dayOfYear]
  obtain h | h : date.month.toNat ≤ 2 ∨ 3 ≤ date.month.toNat := by omega
  · have hstart : ∀ m ≤ 2, 1 ≤ m → ∀ leap,
        ((daysInYear leap).getD m 0 : Int) + monthStart 11 = monthStart (m + 10) := by decide
    have hdays := hstart _ h hm.1 date.isLeapYear
    rw [julian_eq hm (⟨.inl ⟨h, hY, rfl⟩⟩ : March _ _ Y _)]
    omega
  · have hdays := daysInYear_eq date.isLeapYear ⟨h, hm.2⟩
    have hyear := yearStart_succ Y
    rw [show ((Y + 1 : Nat) : Int) - 4800 = date.year.toInt by omega] at hyear
    rw [julian_eq hm (⟨.inr ⟨h, by omega, rfl⟩⟩ : March _ _ (Y + 1) _), hyear]
    rw [isLeapYear_eq] at hdays ⊢
    simp only [decide_eq_true_eq] at hdays
    omega

theorem tm_wday_eq (hjulian : 0 ≤ date.julian) : date.toTM.tm_wday = (date.julian + 1) % 7 := by
  have hday : date.dayOfWeek = date.julian % 7 + 1 := by
    rw [dayOfWeek, Int.tmod_eq_emod_of_nonneg hjulian]
    exact toNat_ofInt (by omega) (by omega)
  show (if date.dayOfWeek = 7 then 0 else date.dayOfWeek) = _
  rw [hday]
  split <;> omega

/-- `d` lies `years` years after `date`, on the same day or the 28th of February for the 29th. -/
structure YearsLater (date : Date) (years : Int) (d : Date) : Prop where
  year_eq : d.year.toInt = date.year.toInt + years
  month_eq : d.month = date.month
  day_eq : d.day = if date.month = 2 ∧ date.day = 29 ∧ ¬Leap d.year.toInt then 28 else date.day
  julian_eq : d.julian = d.updateJulian.julian

theorem leaveLeapDay_eq (date : Date) : leaveLeapDay date =
    { date with day := if date.month = 2 ∧ date.day = 29 ∧ ¬Leap date.year.toInt then 28 else date.day } := by
  unfold leaveLeapDay
  rw [isLeapYear_eq]
  by_cases hday : date.month = 2 ∧ date.day = 29
  · rw [if_pos hday]
    by_cases hleap : Leap date.year.toInt
    · have hkeep : ¬(date.month = 2 ∧ date.day = 29 ∧ ¬Leap date.year.toInt) := fun hmove => hmove.2.2 hleap
      rw [decide_eq_true hleap, if_neg hkeep]
      rfl
    · have hmove : date.month = 2 ∧ date.day = 29 ∧ ¬Leap date.year.toInt := ⟨hday.1, hday.2, hleap⟩
      rw [decide_eq_false hleap, if_pos hmove]
      rfl
  · have hkeep : ¬(date.month = 2 ∧ date.day = 29 ∧ ¬Leap date.year.toInt) := fun hmove => hday ⟨hmove.1, hmove.2.1⟩
    rw [if_neg hday, if_neg hkeep]

theorem addToYear_inv (h : addToYear date years = some d) : YearsLater date years d := by
  obtain ⟨⟨hlow, hhigh⟩, h⟩ := bind_inv h
  obtain rfl := updateJulianInt_inv h
  have hyear := Int32.toInt_ofInt_of_le hlow (by omega : date.year.toInt + years < 2 ^ 31)
  rw [leaveLeapDay_eq]
  exact ⟨hyear, rfl, rfl, rfl⟩

theorem addToYear_isSome (hm : date.month.toNat ≤ 12) (hnew : Counted (date.year.toInt + years)) :
    (addToYear date years).isSome := by
  obtain ⟨hlow, hhigh⟩ := hnew
  have hyear := Int32.toInt_ofInt_of_le (by omega) (by omega : date.year.toInt + years < 2 ^ 31)
  have hcounted : Counted (Int32.ofInt (date.year.toInt + years)).toInt := by
    rw [hyear]
    exact ⟨hlow, hhigh⟩
  unfold addToYear
  rw [int_bind ⟨by omega, by omega⟩, leaveLeapDay_eq]
  exact Option.isSome_iff_exists.mpr ⟨_, updateJulianInt_eq hcounted hm⟩

/-- The day of the year and the weekday are those that the julian number says, and `addToYear` keeps to it. -/
theorem toTM_addToYear (hv : Valid date.day date.month date.year.toInt)
    (hy : -4712 ≤ date.year.toInt ∧ date.year.toInt ≤ 32767) (hjulian : date.julian = date.updateJulian.julian) :
    (date.dayOfYear : Int) = date.julian - date.newYear.julian + 1 ∧
      date.toTM.tm_yday = date.dayOfYear - 1 ∧ date.toTM.tm_wday = (date.julian + 1) % 7 ∧
      ∀ years, (∀ d, addToYear date years = some d → YearsLater date years d) ∧
        (Counted (date.year.toInt + years) → (addToYear date years).isSome) := by
  have hlow := (julian_bounds hv hy).1
  refine ⟨?_, rfl, tm_wday_eq (by omega), fun years => ⟨fun d => addToYear_inv, addToYear_isSome hv.months.2⟩⟩
  rw [hjulian]
  exact dayOfYear_eq hv (by omega)

theorem toTM_addToYear_leap_day :
    ((⟨29, 2, 2000, 2451604⟩ : Date).dayOfYear : Int) = 2451604 - (newYear ⟨29, 2, 2000, 2451604⟩).julian + 1 ∧
      (⟨29, 2, 2000, 2451604⟩ : Date).toTM.tm_yday = (⟨29, 2, 2000, 2451604⟩ : Date).dayOfYear - 1 ∧
      (⟨29, 2, 2000, 2451604⟩ : Date).toTM.tm_wday = (2451604 + 1) % 7 ∧
      ∀ years, (∀ d, addToYear ⟨29, 2, 2000, 2451604⟩ years = some d → YearsLater ⟨29, 2, 2000, 2451604⟩ years d) ∧
        (Counted (2000 + years) → (addToYear ⟨29, 2, 2000, 2451604⟩ years).isSome) :=
  toTM_addToYear ⟨by decide, by decide⟩ ⟨by decide, by decide⟩ (by decide)

end Date

end Srl
