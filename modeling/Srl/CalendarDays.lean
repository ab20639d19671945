import Srl.Calendar

namespace Srl

namespace Date

/-- A year and a month counted from March; the calendar year `year` ends in the year `Y`. -/
structure March (year : Int) (month Y N : Nat) : Prop where
  cases : month ≤ 2 ∧ year + 4799 = Y ∧ N = month + 10 ∨ 3 ≤ month ∧ year + 4800 = Y ∧ N = month - 2

/-- The days before a year that begins in March. -/
def yearStart (Y : Nat) : Int := 1461 * (Y : Int) / 4 - 3 * ((Y : Int) / 100 + 1) / 4

/-- The days before a month of such a year. -/
def monthStart (N : Nat) : Int := 367 * (N : Int) / 12

theorem March.exists {year : Int} {month : Nat} (hm : 1 ≤ month ∧ month ≤ 12) (hy : -4799 ≤ year) :
    ∃ Y N, March year month Y N ∧ 1 ≤ N ∧ N ≤ 12 := by
  obtain h | h : month ≤ 2 ∨ 3 ≤ month := by omega
  · exact ⟨(year + 4799).toNat, month + 10, ⟨by omega⟩, by omega⟩
  · exact ⟨(year + 4800).toNat, month - 2, ⟨by omega⟩, by omega⟩

theorem leap_shift (Z : Nat) : Leap ((Z : Int) - 4800) ↔ Z % 4 = 0 ∧ (Z % 100 ≠ 0 ∨ Z % 400 = 0) := by
  have h₄ : ((Z : Int) - 4800) % 4 = (Z % 4 : Nat) := by omega
  have h₁₀₀ : ((Z : Int) - 4800) % 100 = (Z % 100 : Nat) := by omega
  have h₄₀₀ : ((Z : Int) - 4800) % 400 = (Z % 400 : Nat) := by omega
  unfold Leap
  rw [h₄, h₁₀₀, h₄₀₀]
  omega

theorem days_succ (Y : Nat) :
    1461 * ((Y + 1 : Nat) : Int) / 4 = 1461 * (Y : Int) / 4 + if (Y + 1) % 4 = 0 then 366 else 365 := by
  obtain h | h | h | h : Y % 4 = 0 ∨ Y % 4 = 1 ∨ Y % 4 = 2 ∨ Y % 4 = 3 := by omega
  · rw [if_neg (by omega)]
    omega
  · rw [if_neg (by omega)]
    omega
  · rw [if_neg (by omega)]
    omega
  · rw [if_pos (by omega)]
    omega

theorem centuries_succ (Y : Nat) :
    3 * (((Y + 1 : Nat) : Int) / 100 + 1) / 4 = 3 * ((Y : Int) / 100 + 1) / 4 +
      if (Y + 1) % 100 = 0 ∧ (Y + 1) % 400 ≠ 0 then 1 else 0 := by
  by_cases hlast : (Y + 1) % 100 = 0
  · obtain ⟨k, hk⟩ : ∃ k, Y + 1 = 100 * (k + 1) := ⟨(Y + 1) / 100 - 1, by omega⟩
    have h₁ : ((Y + 1 : Nat) : Int) / 100 = k + 1 := by omega
    have h₂ : (Y : Int) / 100 = k := by omega
    rw [h₁, h₂]
    obtain h | h | h | h : k % 4 = 0 ∨ k % 4 = 1 ∨ k % 4 = 2 ∨ k % 4 = 3 := by omega
    · rw [if_pos (by omega)]
      omega
    · rw [if_pos (by omega)]
      omega
    · rw [if_pos (by omega)]
      omega
    · rw [if_neg (by omega)]
      omega
  · have h : ((Y + 1 : Nat) : Int) / 100 = (Y : Int) / 100 := by omega
    rw [h, if_neg (by omega), add_zero]

/-- The year that ends in the last days of February is a leap year or not. -/
theorem yearStart_succ (Y : Nat) :
    yearStart (Y + 1) = yearStart Y + if Leap (((Y + 1 : Nat) : Int) - 4800) then 366 else 365 := by
  have hleap := leap_shift (Y + 1)
  unfold yearStart
  rw [days_succ, centuries_succ]
  by_cases h : Leap (((Y + 1 : Nat) : Int) - 4800)
  · obtain ⟨h₄, h₁₀₀⟩ := hleap.mp h
    rw [if_pos h, if_pos h₄, if_neg (by omega)]
    omega
  · rw [if_neg h]
    rw [hleap] at h
    obtain h₄ | ⟨h₄, h₁₀₀⟩ : (Y + 1) % 4 ≠ 0 ∨ (Y + 1) % 4 = 0 ∧ (Y + 1) % 100 = 0 ∧ (Y + 1) % 400 ≠ 0 := by
      omega
    · rw [if_neg h₄, if_neg (by omega)]
      omega
    · rw [if_pos h₄, if_pos h₁₀₀]
      omega

theorem monthStart_succ {N : Nat} (hN : 1 ≤ N ∧ N ≤ 11) (year : Int) {month : Nat}
    (h : month ≤ 2 ∧ N = month + 10 ∨ 3 ≤ month ∧ N = month - 2) (hm : 1 ≤ month ∧ month ≤ 12) :
    monthStart (N + 1) = monthStart N + monthLength year month := by
  have key : ∀ m, 1 ≤ m → m ≤ 12 → m ≠ 2 →
      monthStart ((if m ≤ 2 then m + 10 else m - 2) + 1) = monthStart (if m ≤ 2 then m + 10 else m - 2) +
        (if m = 4 ∨ m = 6 ∨ m = 9 ∨ m = 11 then 30 else 31 : Nat) := by decide
  have hne : month ≠ 2 := by omega
  have hk := key month hm.1 hm.2 hne
  have hif : (if month ≤ 2 then month + 10 else month - 2) = N := by
    split <;> omega
  rw [hif] at hk
  rw [hk, monthLength, if_neg hne]

variable {date : Date} {Y N : Nat}

theorem julian_eq (hm : 1 ≤ date.month.toNat ∧ date.month.toNat ≤ 12)
    (h : March date.year.toInt date.month.toNat Y N) :
    date.updateJulian.julian = date.day.toNat - 32075 + yearStart Y + monthStart N := by
  rw [julian_updateJulian (by omega) h.cases, yearStart, monthStart]
  omega

/-- The days of a month lie between those before it and those before the next one. -/
theorem day_bound (hv : Valid date.day date.month date.year.toInt)
    (h : March date.year.toInt date.month.toNat Y N) :
    monthStart 1 < date.day.toNat + monthStart N ∧
      (N ≤ 11 → date.day.toNat + monthStart N ≤ monthStart (N + 1)) ∧
      date.day.toNat + monthStart N ≤ monthStart 1 + (yearStart (Y + 1) - yearStart Y) := by
  obtain ⟨hm, hd⟩ := hv
  have hmono : ∀ N, 1 ≤ N → N ≤ 12 → monthStart 1 ≤ monthStart N ∧ monthStart N + 31 ≤ 398 := by decide
  have hNbound : 1 ≤ N ∧ N ≤ 12 := by
    have := h.cases
    omega
  obtain ⟨hlow, hhigh⟩ := hmono N hNbound.1 hNbound.2
  have hone : monthStart 1 = 30 := rfl
  have htwelve : monthStart 12 = 367 := rfl
  have hlast : N ≤ 11 → date.day.toNat + monthStart N ≤ monthStart (N + 1) := by
    intro hN
    have hcases := h.cases
    rw [monthStart_succ ⟨hNbound.1, hN⟩ date.year.toInt (by omega) hm]
    omega
  refine ⟨by omega, hlast, ?_⟩
  rw [yearStart_succ]
  obtain hN | hN : N ≤ 11 ∨ N = 12 := by omega
  · have hle : ∀ N, 1 ≤ N → N ≤ 11 → monthStart (N + 1) ≤ monthStart 12 := by decide
    have := hlast hN
    have := hle N hNbound.1 hN
    split <;> omega
  · have hcases := h.cases
    have hmonth : date.month.toNat = 2 := by omega
    have hyear : ((Y + 1 : Nat) : Int) - 4800 = date.year.toInt := by omega
    rw [hyear, hN, htwelve, hone]
    rw [hmonth, monthLength, if_pos rfl] at hd
    split at hd
    next hleap => rw [if_pos hleap]; omega
    next hleap => rw [if_neg hleap]; omega

theorem yearStart_mono {Y Y' : Nat} (h : Y < Y') : yearStart (Y + 1) ≤ yearStart Y' := by
  have hstep : ∀ Z, yearStart Z ≤ yearStart (Z + 1) := by
    intro Z
    rw [yearStart_succ]
    split <;> omega
  exact monotone_nat_of_le_succ hstep h

theorem monthStart_mono {N N' : Nat} (h : N ≤ N') : monthStart N ≤ monthStart N' := by
  unfold monthStart
  omega

/-- Two calendar days with one julian number are the same day. -/
theorem eq_of_julian_eq {d d' : Date} (hv : Valid d.day d.month d.year.toInt)
    (hv' : Valid d'.day d'.month d'.year.toInt) (hy : -4799 ≤ d.year.toInt) (hy' : -4799 ≤ d'.year.toInt)
    (h : d.updateJulian.julian = d'.updateJulian.julian) :
    d.day = d'.day ∧ d.month = d'.month ∧ d.year = d'.year := by
  obtain ⟨Y, N, hM, hN⟩ := March.exists hv.months hy
  obtain ⟨Y', N', hM', hN'⟩ := March.exists hv'.months hy'
  obtain ⟨hlow, hmid, hhigh⟩ := day_bound hv hM
  obtain ⟨hlow', hmid', hhigh'⟩ := day_bound hv' hM'
  rw [julian_eq hv.months hM, julian_eq hv'.months hM'] at h
  have hYY : Y = Y' := by
    by_contra hne
    obtain hlt | hlt : Y < Y' ∨ Y' < Y := by omega
    · have := yearStart_mono hlt
      omega
    · have := yearStart_mono hlt
      omega
  subst hYY
  have hNN : N = N' := by
    by_contra hne
    have hd := hv.days.1
    have hd' := hv'.days.1
    obtain hlt | hlt : N + 1 ≤ N' ∨ N' + 1 ≤ N := by omega
    · have := monthStart_mono hlt
      have := hmid (by omega)
      omega
    · have := monthStart_mono hlt
      have := hmid' (by omega)
      omega
  subst hNN
  have hcases := hM.cases
  have hcases' := hM'.cases
  have hm := hv.months
  have hm' := hv'.months
  refine ⟨UInt8.toNat_inj.mp (by omega), UInt8.toNat_inj.mp (by omega), Int32.toInt_inj.mp (by omega)⟩

/-- Only the last of four periods has the day that is left over. -/
theorem last_of_four {p n : Nat} (hp : p % 4 = 1) (h : p * n / 4 + p / 4 + 1 ≤ p * (n + 1) / 4) : n % 4 = 3 := by
  have hmod : p * n % 4 = n % 4 := by
    rw [Nat.mul_mod, hp, Nat.one_mul, Nat.mod_mod]
  rw [Nat.mul_succ] at h
  omega

/-- A last day of February is the 366th day of a year that begins in March. -/
theorem Steps.leap {A B C D M : Nat} (h : Steps A B C D 366 M) : Leap (100 * (B : Int) + D + 1 - 4800) := by
  obtain ⟨hcentury, hyear, -, hD, -, -, -, hA, hC⟩ := h
  have hfour : D % 4 = 3 := last_of_four (p := 1461) rfl (by omega)
  have hhundred : D = 99 → B % 4 = 3 := fun h => last_of_four (p := 146097) rfl (by omega)
  have hshift : 100 * (B : Int) + D + 1 - 4800 = ((100 * B + D + 1 : Nat) : Int) - 4800 := by omega
  rw [hshift, leap_shift]
  refine ⟨by omega, ?_⟩
  obtain h99 | h99 : D = 99 ∨ D ≤ 98 := by omega
  · have := hhundred h99
    exact Or.inr (by omega)
  · exact Or.inl (by omega)

/-- `_update_ymd` gives a day of the calendar. -/
theorem valid_updateYmd (hlow : 38 ≤ date.julian) (hhigh : date.julian ≤ 13689325) :
    Valid date.updateYmd.day date.updateYmd.month date.updateYmd.year.toInt ∧
      -4799 ≤ date.updateYmd.year.toInt := by
  obtain ⟨B, C, D, E, M, hsteps, hd, hm, hy⟩ := @updateYmd_eq date (by omega) (by omega)
  generalize date.updateYmd = u at hd hm hy ⊢
  have hM := hsteps.M_le
  have hmonth := hsteps.month
  have hE := hsteps.E_le
  obtain ⟨hm₁, hm₂⟩ := month_cases hM hm
  have hpos := hsteps.E_pos
  have hday : (153 * M + 2) / 5 < E ∧ E ≤ (153 * (M + 1) + 2) / 5 := by omega
  have hfirst : 1 ≤ 100 * B + D := by
    have hcentury := hsteps.century
    have hyear := hsteps.year
    by_contra hzero
    obtain ⟨rfl, rfl⟩ : B = 0 ∧ D = 0 := by omega
    omega
  refine ⟨⟨by omega, by omega, ?_⟩, by omega⟩
  obtain hM' | hM' : M = 11 ∨ M ≤ 10 := by omega
  · -- February ends with the year that began in March.
    have hfeb : u.month.toNat = 2 := by omega
    rw [hfeb, monthLength, if_pos rfl]
    by_cases hleap : Leap u.year.toInt
    · rw [if_pos hleap]
      omega
    · have hne : E ≠ 366 := by
        rintro rfl
        have hyear : u.year.toInt = 100 * (B : Int) + D + 1 - 4800 := by omega
        exact hleap (hyear ▸ hsteps.leap)
      rw [if_neg hleap]
      omega
  · have key : ∀ M ≤ 10, (153 * (M + 1) + 2) / 5 - (153 * M + 2) / 5 ≤
        (if M + 3 - 12 * (M / 10) = 4 ∨ M + 3 - 12 * (M / 10) = 6 ∨ M + 3 - 12 * (M / 10) = 9 ∨
          M + 3 - 12 * (M / 10) = 11 then 30 else 31) := by decide
    have hk := key M hM'
    rw [← hm] at hk
    rw [monthLength, if_neg (by omega)]
    omega

/-- The day after a calendar day. -/
def nextDay (date : Date) : Date :=
  if date.day.toNat < monthLength date.year.toInt date.month.toNat then { date with day := date.day + 1 }
  else if date.month.toNat < 12 then { date with day := 1, month := date.month + 1 }
  else { date with day := 1, month := 1, year := date.year + 1 }

theorem toNat_succ {n : UInt8} (h : n.toNat < 255) : (n + 1).toNat = n.toNat + 1 := by
  rw [UInt8.toNat_add]
  simp only [UInt8.reduceToNat]
  omega

theorem toInt_succ {n : Int32} (h : n.toInt < 2147483647) : (n + 1).toInt = n.toInt + 1 := by
  have hlow := n.le_toInt
  rw [Int32.toInt_add]
  have hone : (1 : Int32).toInt = 1 := rfl
  rw [hone, Int.bmod_eq_of_le (by omega) (by omega)]

/-- The day after has the next julian number. -/
theorem julian_nextDay (hv : Valid date.day date.month date.year.toInt)
    (hy : -4799 ≤ date.year.toInt ∧ date.year.toInt < 2147483647) :
    (nextDay date).updateJulian.julian = date.updateJulian.julian + 1 := by
  obtain ⟨Y, N, hM, hN⟩ := March.exists hv.months hy.1
  have hm := hv.months
  have hday := hv.days
  have hle := hv.day_le
  have hcases := hM.cases
  rw [julian_eq hm hM]
  unfold nextDay
  split
  next h =>
    have hdate := @julian_eq { date with day := date.day + 1 } _ _ hm hM
    rw [hdate, toNat_succ (by omega)]
    omega
  next h =>
    split
    next h12 =>
      have hmonth : (date.month + 1).toNat = date.month.toNat + 1 := toNat_succ (by omega)
      obtain h2 | h2 : date.month.toNat = 2 ∨ date.month.toNat ≠ 2 := by omega
      · have hM' : March date.year.toInt (date.month + 1).toNat (Y + 1) 1 := ⟨by omega⟩
        have hdate := @julian_eq { date with day := 1, month := date.month + 1 } _ _ (by rw [hmonth]; omega) hM'
        have hyear : ((Y + 1 : Nat) : Int) - 4800 = date.year.toInt := by omega
        have hone : (1 : UInt8).toNat = 1 := rfl
        have hstart : monthStart 1 = 30 ∧ monthStart 12 = 367 := ⟨rfl, rfl⟩
        obtain rfl : N = 12 := by omega
        rw [hdate, yearStart_succ, hyear, hone]
        rw [h2, monthLength, if_pos rfl] at h hday
        split at h
        next hleap => rw [if_pos hleap] at hday ⊢; omega
        next hleap => rw [if_neg hleap] at hday ⊢; omega
      · have hM' : March date.year.toInt (date.month + 1).toNat Y (N + 1) := ⟨by omega⟩
        have hdate := @julian_eq { date with day := 1, month := date.month + 1 } _ _ (by rw [hmonth]; omega) hM'
        have hmonths := monthStart_succ (N := N) (by omega) date.year.toInt (by omega) hm
        have hone : (1 : UInt8).toNat = 1 := rfl
        rw [hdate, hmonths, hone]
        omega
    next h12 =>
      have hyear := toInt_succ hy.2
      have hM' : March (date.year + 1).toInt (1 : UInt8).toNat Y (N + 1) := by
        have hone : (1 : UInt8).toNat = 1 := rfl
        exact ⟨by omega⟩
      have hdate := @julian_eq { date with day := 1, month := 1, year := date.year + 1 } _ _
        (by simp only; decide) hM'
      have hmonths := monthStart_succ (N := N) (by omega) date.year.toInt (by omega) hm
      have hone : (1 : UInt8).toNat = 1 := rfl
      rw [hdate, hmonths, hone]
      omega

theorem julian_first : (ofYmd 1 1 (-4712)).julian = 38 := by
  rw [julian_ofYmd (Y := 87) (N := 11) (by decide) (by decide)]
  rfl

theorem julian_last : (ofYmd 31 12 32767).julian = 13689325 := by
  rw [julian_ofYmd (Y := 37567) (N := 10) (by decide) (by decide)]
  rfl

theorem yearStart_le {Y Y' : Nat} (h : Y ≤ Y') : yearStart Y ≤ yearStart Y' := by
  obtain rfl | h := Nat.eq_or_lt_of_le h
  · rfl
  · have hstep := yearStart_succ Y
    have := yearStart_mono h
    split at hstep <;> omega

/-- The years of the range have the julian numbers of the range. -/
theorem julian_bounds (hv : Valid date.day date.month date.year.toInt)
    (hy : -4712 ≤ date.year.toInt ∧ date.year.toInt ≤ 32767) :
    38 ≤ date.updateJulian.julian ∧ date.updateJulian.julian ≤ 13689325 := by
  obtain ⟨Y, N, hM, hN⟩ := March.exists hv.months (show -4799 ≤ date.year.toInt by omega)
  have hcases := hM.cases
  have hday := hv.days
  have hmonths := hv.months
  obtain ⟨hfirst, hmid, hend⟩ := day_bound hv hM
  have hone : monthStart 1 = 30 := rfl
  have heleven : monthStart 11 = 336 := rfl
  have hstart : yearStart 87 = 31776 ∧ yearStart 88 = 32142 ∧ yearStart 37567 = 13721064 := ⟨rfl, rfl, rfl⟩
  rw [julian_eq hv.months hM]
  constructor
  · obtain h | h : Y = 87 ∨ 88 ≤ Y := by omega
    · have hmonth := @monthStart_mono 11 N (by omega)
      rw [h]
      omega
    · have := yearStart_le h
      omega
  · obtain h | h : Y = 37567 ∨ Y + 1 ≤ 37567 := by omega
    · have hmonth := @monthStart_mono (N + 1) 11 (by omega)
      have := hmid (by omega)
      rw [h]
      omega
    · have := yearStart_le h
      omega

/-- A julian number of the range is one of a year of the range. -/
theorem year_bounds (hv : Valid date.day date.month date.year.toInt) (hy : -4799 ≤ date.year.toInt)
    (h : 38 ≤ date.updateJulian.julian ∧ date.updateJulian.julian ≤ 13689325) :
    -4712 ≤ date.year.toInt ∧ date.year.toInt ≤ 32767 := by
  obtain ⟨Y, N, hM, hN⟩ := March.exists hv.months hy
  have hcases := hM.cases
  have hday := hv.days
  have hmonths := hv.months
  obtain ⟨hfirst, hmid, hend⟩ := day_bound hv hM
  have hone : monthStart 1 = 30 := rfl
  have heleven : monthStart 11 = 336 := rfl
  have hstart : yearStart 87 = 31776 ∧ yearStart 37567 = 13721064 ∧ yearStart 37568 = 13721430 :=
    ⟨rfl, rfl, rfl⟩
  rw [julian_eq hv.months hM] at h
  constructor
  · by_contra hlow
    obtain hY | ⟨rfl, hN'⟩ : Y + 1 ≤ 87 ∨ Y = 87 ∧ N ≤ 10 := by omega
    · have := yearStart_le hY
      omega
    · have hmonth := @monthStart_mono (N + 1) 11 (by omega)
      have := hmid (by omega)
      omega
  · by_contra hhigh
    obtain hY | ⟨rfl, hN'⟩ : 37568 ≤ Y ∨ Y = 37567 ∧ 11 ≤ N := by omega
    · have := yearStart_le hY
      omega
    · have hmonth := @monthStart_mono 11 N (by omega)
      omega

/-- The days from the year `-4712` to the year `32767` and their julian numbers stand for each other. -/
theorem calendar_round_trip :
    (∀ date : Date, Valid date.day date.month date.year.toInt →
      -4712 ≤ date.year.toInt ∧ date.year.toInt ≤ 32767 →
      date.updateJulian.updateYmd = date.updateJulian ∧
        (nextDay date).updateJulian.julian = date.updateJulian.julian + 1) ∧
    ∀ date : Date, (ofYmd 1 1 (-4712)).julian ≤ date.julian ∧ date.julian ≤ (ofYmd 31 12 32767).julian →
      Valid date.updateYmd.day date.updateYmd.month date.updateYmd.year.toInt ∧
        (-4712 ≤ date.updateYmd.year.toInt ∧ date.updateYmd.year.toInt ≤ 32767) ∧
        date.updateYmd.updateJulian.julian = date.julian := by
  have hback : ∀ date : Date, 38 ≤ date.julian ∧ date.julian ≤ 13689325 →
      Valid date.updateYmd.day date.updateYmd.month date.updateYmd.year.toInt ∧
        (-4712 ≤ date.updateYmd.year.toInt ∧ date.updateYmd.year.toInt ≤ 32767) ∧
        date.updateYmd.updateJulian.julian = date.julian := by
    intro date h
    obtain ⟨hvalid, hyear⟩ := valid_updateYmd h.1 h.2
    have hjulian := julian_updateYmd date (by omega) (by omega)
    exact ⟨hvalid, year_bounds hvalid hyear (by rwa [hjulian]), hjulian⟩
  refine ⟨?_, ?_⟩
  · intro date hv hy
    have hbounds := julian_bounds hv hy
    refine ⟨?_, julian_nextDay hv ⟨by omega, by omega⟩⟩
    obtain ⟨hvalid, hyear, hjulian⟩ := hback date.updateJulian hbounds
    obtain ⟨hd, hm, hyr⟩ := eq_of_julian_eq hvalid hv (by omega) (by omega) hjulian
    have hkeep : date.updateJulian.updateYmd.julian = date.updateJulian.julian := updateYmd_keeps_julian _
    generalize date.updateJulian.updateYmd = u at hd hm hyr hkeep
    obtain ⟨day, month, year, julian⟩ := u
    simp only at hd hm hyr hkeep
    subst hd hm hyr hkeep
    rfl
  · rw [julian_first, julian_last]
    exact hback

theorem calendar_round_trip_new_year :
    (⟨31, 12, 1999, 0⟩ : Date).updateJulian.updateYmd = (⟨31, 12, 1999, 0⟩ : Date).updateJulian ∧
      (nextDay ⟨31, 12, 1999, 0⟩).updateJulian.julian = (⟨31, 12, 1999, 0⟩ : Date).updateJulian.julian + 1 :=
  calendar_round_trip.1 ⟨31, 12, 1999, 0⟩ ⟨by decide, by decide⟩ (by decide)

end Date

end Srl
