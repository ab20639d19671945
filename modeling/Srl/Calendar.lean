import Srl.DateTime

namespace Srl

namespace Date

/-- The steps of `_update_ymd` for a day number above 0, and the bounds that they keep. -/
structure Steps (A B C D E M : Nat) : Prop where
  century : A = C + 146097 * B / 4
  year : C = E + 1461 * D / 4
  month : M = (5 * (E - 1) + 2) / 153
  D_le : D ≤ 99
  E_pos : 1 ≤ E
  E_le : E ≤ 366
  M_le : M ≤ 11
  A_le : A ≤ 146097 * (B + 1) / 4
  C_le : C ≤ 1461 * (D + 1) / 4

theorem steps {A B C D E M : Nat} (hA : 1 ≤ A) (hB : B = 4 * (A + 36524) / 146097 - 1)
    (hC : C = A - 146097 * B / 4) (hD : D = 4 * (C + 365) / 1461 - 1) (hE : E = C - 1461 * D / 4)
    (hM : M = (5 * (E - 1) + 2) / 153) :
    Steps A B C D E M ∧ 146097 * B / 4 < A ∧ 1461 * D / 4 < C ∧ C ≤ 36525 := by
  have hcentury : 146097 * B / 4 < A ∧ A ≤ 146097 * (B + 1) / 4 := by omega
  have hC₁ : 1 ≤ C ∧ C ≤ 36525 := by omega
  have hyear : D ≤ 99 ∧ 1461 * D / 4 < C ∧ C ≤ 1461 * (D + 1) / 4 := by omega
  have hE₁ : 1 ≤ E ∧ E ≤ 366 := by omega
  exact ⟨⟨by omega, by omega, hM, hyear.1, hE₁.1, hE₁.2, by omega, hcentury.2, hyear.2.2⟩, hcentury.1,
    hyear.2.1, hC₁.2⟩

theorem toNat_add {a b : UInt32} (h : a.toNat + b.toNat < 2 ^ 32) : (a + b).toNat = a.toNat + b.toNat := by
  rw [UInt32.toNat_add, Nat.mod_eq_of_lt h]

theorem toNat_mul {a b : UInt32} (h : a.toNat * b.toNat < 2 ^ 32) : (a * b).toNat = a.toNat * b.toNat := by
  rw [UInt32.toNat_mul, Nat.mod_eq_of_lt h]

theorem toNat_sub {a b : UInt32} (h : b.toNat ≤ a.toNat) : (a - b).toNat = a.toNat - b.toNat :=
  UInt32.toNat_sub_of_le _ _ (UInt32.le_iff_toNat_le.mpr h)

/-- The number of the period that a day is in. -/
theorem toNat_period {x k c d : UInt32} (h : k.toNat * (x.toNat + c.toNat) < 2 ^ 32) (hk : 0 < k.toNat)
    (hd : 1 ≤ k.toNat * (x.toNat + c.toNat) / d.toNat) :
    (k * (x + c) / d - 1).toNat = k.toNat * (x.toNat + c.toNat) / d.toNat - 1 := by
  have hsum : x.toNat + c.toNat < 2 ^ 32 := Nat.lt_of_le_of_lt (Nat.le_mul_of_pos_left _ hk) h
  have hmul : (k * (x + c)).toNat = k.toNat * (x.toNat + c.toNat) := by
    rw [toNat_mul (by rwa [toNat_add hsum]), toNat_add hsum]
  have hdiv : (k * (x + c) / d).toNat = k.toNat * (x.toNat + c.toNat) / d.toNat := by
    rw [UInt32.toNat_div, hmul]
  rw [toNat_sub (by rwa [hdiv]), hdiv]
  rfl

/-- The days of a period that are over. -/
theorem toNat_rest {x k y : UInt32} (h : k.toNat * y.toNat < 2 ^ 32) (hx : k.toNat * y.toNat / 4 ≤ x.toNat) :
    (x - k * y / 4).toNat = x.toNat - k.toNat * y.toNat / 4 := by
  have hdiv : (k * y / 4).toNat = k.toNat * y.toNat / 4 := by rw [UInt32.toNat_div, toNat_mul h]; rfl
  rw [toNat_sub (by rwa [hdiv]), hdiv]

/-- `_update_ymd`, as far as no step of it leaves its range. -/
theorem updateYmd_eq {date : Date} (hlow : 1 ≤ date.julian + 32045) (hhigh : date.julian + 32045 ≤ 13721370) :
    ∃ B C D E M : Nat, Steps (date.julian + 32045).toNat B C D E M ∧
      date.updateYmd.day.toNat = E - (153 * M + 2) / 5 ∧
      date.updateYmd.month.toNat = M + 3 - 12 * (M / 10) ∧
      date.updateYmd.year.toInt = 100 * B + D - 4800 + (M / 10 : Nat) := by
  let A := UInt32.ofInt (date.julian + 32045)
  let B := (4 * (A + 36524)) / 146097 - 1
  let C := A - (146097 * B) / 4
  let D := (4 * (C + 365)) / 1461 - 1
  let E := C - ((1461 * D) / 4)
  let M := (5 * (E - 1) + 2) / 153
  have hA : A.toNat = (date.julian + 32045).toNat := by
    simp [A, UInt32.ofInt]
    omega
  have hA₁ : 1 ≤ A.toNat ∧ A.toNat ≤ 13721370 := by omega
  have hB : B.toNat = 4 * (A.toNat + 36524) / 146097 - 1 :=
    toNat_period (by simp only [UInt32.reduceToNat]; omega) (by decide) (by simp only [UInt32.reduceToNat]; omega)
  have hB₁ : 146097 * B.toNat / 4 < A.toNat := by omega
  have hC : C.toNat = A.toNat - 146097 * B.toNat / 4 :=
    toNat_rest (by simp only [UInt32.reduceToNat]; omega) (by simp only [UInt32.reduceToNat]; omega)
  have hC₁ : 1 ≤ C.toNat ∧ C.toNat ≤ 36525 := by omega
  have hD : D.toNat = 4 * (C.toNat + 365) / 1461 - 1 :=
    toNat_period (by simp only [UInt32.reduceToNat]; omega) (by decide) (by simp only [UInt32.reduceToNat]; omega)
  have hD₁ : 1461 * D.toNat / 4 < C.toNat := by omega
  have hE : E.toNat = C.toNat - 1461 * D.toNat / 4 :=
    toNat_rest (by simp only [UInt32.reduceToNat]; omega) (by simp only [UInt32.reduceToNat]; omega)
  have hE₁ : 1 ≤ E.toNat ∧ E.toNat ≤ 366 := by omega
  have hM : M.toNat = (5 * (E.toNat - 1) + 2) / 153 := by
    have h₁ : (E - 1).toNat = E.toNat - 1 := toNat_sub hE₁.1
    have h₂ : (5 * (E - 1)).toNat = 5 * (E.toNat - 1) := by
      rw [toNat_mul (by rw [h₁]; simp only [UInt32.reduceToNat]; omega), h₁]; rfl
    have h₃ : (5 * (E - 1) + 2).toNat = 5 * (E.toNat - 1) + 2 := by
      rw [toNat_add (by rw [h₂]; simp only [UInt32.reduceToNat]; omega), h₂]; rfl
    rw [UInt32.toNat_div, h₃]
    rfl
  have hsteps := (steps hA₁.1 hB hC hD hE hM).1
  have hM₁ : M.toNat ≤ 11 := hsteps.M_le
  have hM₂ : (M / 10).toNat = M.toNat / 10 := UInt32.toNat_div _ _
  refine ⟨B.toNat, C.toNat, D.toNat, E.toNat, M.toNat, hA ▸ hsteps, ?_, ?_, ?_⟩
  · have hlen : ((153 * M + 2) / 5).toNat = (153 * M.toNat + 2) / 5 := by
      have h₁ : (153 * M).toNat = 153 * M.toNat := toNat_mul (by simp only [UInt32.reduceToNat]; omega)
      have h₂ : (153 * M + 2).toNat = 153 * M.toNat + 2 := by
        rw [toNat_add (by rw [h₁]; simp only [UInt32.reduceToNat]; omega), h₁]; rfl
      rw [UInt32.toNat_div, h₂]
      rfl
    show (E - (153 * M + 2) / 5).toUInt8.toNat = _
    rw [UInt32.toNat_toUInt8, toNat_sub (by omega), hlen]
    omega
  · have h₁ : (M + 3).toNat = M.toNat + 3 := toNat_add (by simp only [UInt32.reduceToNat]; omega)
    have h₂ : (12 * (M / 10)).toNat = 12 * (M.toNat / 10) := by
      rw [toNat_mul (by rw [hM₂]; simp only [UInt32.reduceToNat]; omega), hM₂]; rfl
    show (M + 3 - 12 * (M / 10)).toUInt8.toNat = _
    rw [UInt32.toNat_toUInt8, toNat_sub (by omega), h₁, h₂]
    omega
  · have hyear : 100 * B.toNat + D.toNat + M.toNat / 10 ≤ 37567 := by omega
    have h₁ : (100 * B).toNat = 100 * B.toNat := toNat_mul (by simp only [UInt32.reduceToNat]; omega)
    have h₂ : (100 * B + D).toNat = 100 * B.toNat + D.toNat := by rw [toNat_add (by omega), h₁]
    have h₃ : (100 * B + D - 4800 + M / 10).toNat =
        (100 * B.toNat + D.toNat + M.toNat / 10 + 4294962496) % 4294967296 := by
      rw [UInt32.toNat_add, UInt32.toNat_sub, h₂, hM₂]
      simp only [UInt32.reduceToNat]
      omega
    show (100 * B + D - 4800 + M / 10).toInt32.toInt = _
    have h₄ : (100 * B + D - 4800 + M / 10).toInt32.toInt =
        if 2 * (100 * B + D - 4800 + M / 10).toNat < 2 ^ 32
          then ((100 * B + D - 4800 + M / 10).toNat : Int)
          else (100 * B + D - 4800 + M / 10).toNat - 2 ^ 32 := BitVec.toInt_eq_toNat_cond _
    rw [h₄, h₃]
    split <;> omega

/-- The julian number of a date, with years and months counted from March of the year
-4800; a month 13 is the January of the year after. -/
theorem julian_updateJulian {date : Date} {Y N : Nat} (hm : 1 ≤ date.month.toNat ∧ date.month.toNat ≤ 13)
    (h : date.month.toNat ≤ 2 ∧ date.year.toInt + 4799 = Y ∧ N = date.month.toNat + 10 ∨
      3 ≤ date.month.toNat ∧ date.year.toInt + 4800 = Y ∧ N = date.month.toNat - 2) :
    date.updateJulian.julian =
      date.day.toNat - 32075 + 1461 * (Y : Int) / 4 + 367 * (N : Int) / 12 - 3 * ((Y : Int) / 100 + 1) / 4 := by
  obtain ⟨a, ha⟩ : ∃ a, ((date.month.toNat : Int) - 14).tdiv 12 = a := ⟨_, rfl⟩
  have ha' : a = -((14 - date.month.toNat : Nat) / 12 : Nat) := by
    rw [← ha, show (date.month.toNat : Int) - 14 = -((14 - date.month.toNat : Nat) : Int) by omega,
      Int.neg_tdiv, Int.tdiv_eq_ediv_of_nonneg (by omega)]
    omega
  have hY : date.year.toInt + 4800 + a = Y := by omega
  have hN : (date.month.toNat : Int) - 2 - a * 12 = N := by omega
  have hc : (date.year.toInt + 4900 + a).tdiv 100 = (Y : Int) / 100 + 1 := by
    rw [show date.year.toInt + 4900 + a = ((Y + 100 : Nat) : Int) by omega,
      Int.tdiv_eq_ediv_of_nonneg (by omega)]
    omega
  simp only [updateJulian, ha, hY, hN, hc]
  rw [Int.tdiv_eq_ediv_of_nonneg (by omega), Int.tdiv_eq_ediv_of_nonneg (by omega),
    Int.tdiv_eq_ediv_of_nonneg (by omega)]

theorem julian_ofYmd {day month : UInt8} {year : Int16} {Y N : Nat} (hm : 1 ≤ month.toNat ∧ month.toNat ≤ 13)
    (h : month.toNat ≤ 2 ∧ year.toInt + 4799 = Y ∧ N = month.toNat + 10 ∨
      3 ≤ month.toNat ∧ year.toInt + 4800 = Y ∧ N = month.toNat - 2) :
    (ofYmd day month year).julian =
      day.toNat - 32075 + 1461 * (Y : Int) / 4 + 367 * (N : Int) / 12 - 3 * ((Y : Int) / 100 + 1) / 4 := by
  apply julian_updateJulian hm
  simpa only [Int16.toInt_toInt32] using h

/-- The months of a calendar year, from those counted from March. -/
theorem month_cases {M m : Nat} (hM : M ≤ 11) (hm : m = M + 3 - 12 * (M / 10)) :
    m ≤ 12 ∧ (1 ≤ m ∧ m ≤ 2 ∧ M / 10 = 1 ∧ M + 1 = m + 10 ∨ 3 ≤ m ∧ M / 10 = 0 ∧ M + 1 = m - 2) := by
  omega

/-- The days before a month, in the two forms of the source. -/
theorem month_days {M : Nat} (hM : M ≤ 11) : 367 * (M + 1) / 12 = (153 * M + 2) / 5 + 30 :=
  (by decide : ∀ M ≤ 11, 367 * (M + 1) / 12 = (153 * M + 2) / 5 + 30) M hM

/-- The date that `_update_ymd` finds has the julian number it started from. -/
theorem julian_updateYmd (date : Date) (hlow : 1 ≤ date.julian + 32045)
    (hhigh : date.julian + 32045 ≤ 13721370) :
    date.updateYmd.updateJulian.julian = date.julian := by
  obtain ⟨B, C, D, E, M, ⟨hcentury, hyear, hmonth, hD, hE, hE', hM⟩, hd, hm, hy⟩ := updateYmd_eq hlow hhigh
  -- Nothing below looks into the fields again, and the kernel should not either.
  generalize date.updateYmd = u at hd hm hy ⊢
  obtain ⟨hm₁, hm₂⟩ := month_cases hM hm
  have hY : u.month.toNat ≤ 2 ∧ u.year.toInt + 4799 = (100 * B + D : Nat) ∧ M + 1 = u.month.toNat + 10 ∨
      3 ≤ u.month.toNat ∧ u.year.toInt + 4800 = (100 * B + D : Nat) ∧ M + 1 = u.month.toNat - 2 := by omega
  have hmonths := month_days hM
  have hdays : 367 * ((M + 1 : Nat) : Int) / 12 = ((153 * M + 2) / 5 : Nat) + 30 := by omega
  have hcenturies : 3 * ((B : Int) + 1) / 4 = 36525 * B - (146097 * B / 4 : Nat) := by omega
  have hyears : 1461 * ((100 * B + D : Nat) : Int) / 4 = 36525 * B + (1461 * D / 4 : Nat) := by omega
  have hdiv : ((100 * B + D : Nat) : Int) / 100 = B := by omega
  rw [julian_updateJulian (by omega) hY, hd, hdiv, hdays, hcenturies, hyears]
  have hday : (153 * M + 2) / 5 < E := by omega
  omega

/-- A month more is a later day, also behind December. -/
theorem julian_lt_next (day : UInt8) {month : UInt8} {year : Int16} (hm : 1 ≤ month.toNat ∧ month.toNat ≤ 12)
    (hy : -4799 ≤ year.toInt) : (ofYmd day month year).julian < (ofYmd day (month + 1) year).julian := by
  have hnext : (month + 1).toNat = month.toNat + 1 := by
    rw [UInt8.toNat_add]
    simp only [UInt8.reduceToNat]
    omega
  obtain ⟨Y, hY⟩ := Int.eq_ofNat_of_zero_le (show 0 ≤ year.toInt + 4799 by omega)
  have hyears : 1461 * (Y : Int) / 4 + 365 ≤ 1461 * ((Y + 1 : Nat) : Int) / 4 := by omega
  have hcenturies : 3 * (((Y + 1 : Nat) : Int) / 100 + 1) / 4 ≤ 3 * ((Y : Int) / 100 + 1) / 4 + 1 := by omega
  obtain h | h | h : month.toNat = 1 ∨ month.toNat = 2 ∨ 3 ≤ month.toNat := by omega
  · rw [julian_ofYmd (Y := Y) (N := 11) (by omega) (by omega),
      julian_ofYmd (Y := Y) (N := 12) (by omega) (by omega)]
    omega
  · rw [julian_ofYmd (Y := Y) (N := 12) (by omega) (by omega),
      julian_ofYmd (Y := Y + 1) (N := 1) (by omega) (by omega)]
    omega
  · rw [julian_ofYmd (Y := Y + 1) (N := month.toNat - 2) (by omega) (by omega),
      julian_ofYmd (Y := Y + 1) (N := month.toNat - 1) (by omega) (by omega)]
    have hmonths : 367 * ((month.toNat - 2 : Nat) : Int) / 12 < 367 * ((month.toNat - 1 : Nat) : Int) / 12 := by
      omega
    omega

/-- The years divisible by 4 that are no centuries, or by 400. -/
def Leap (year : Int) : Prop := year % 4 = 0 ∧ (year % 100 ≠ 0 ∨ year % 400 = 0)

instance (year : Int) : Decidable (Leap year) := by unfold Leap; infer_instance

def monthLength (year : Int) (month : Nat) : Nat :=
  if month = 2 then if Leap year then 29 else 28
  else if month = 4 ∨ month = 6 ∨ month = 9 ∨ month = 11 then 30
  else 31

/-- The days of the Gregorian calendar. -/
structure Valid (day month : UInt8) (year : Int) : Prop where
  months : 1 ≤ month.toNat ∧ month.toNat ≤ 12
  days : 1 ≤ day.toNat ∧ day.toNat ≤ monthLength year month.toNat

theorem Valid.day_le {day month : UInt8} {year : Int} (h : Valid day month year) : day.toNat ≤ 31 := by
  have := h.days.2
  unfold monthLength at this
  split_ifs at this <;> omega

end Date

end Srl
