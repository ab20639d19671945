import Srl.Calendar
import Srl.RpcRoundTrip
import Mathlib.Data.List.TakeWhile

namespace Srl

open Bytes XML XML.Parser

/-- A field of decimal digits is read up to its width. -/
theorem scanField_digits {w : Nat} {ds rest : Bytes} (hw : 0 < w) (hlen : ds.length = w)
    (hds : ∀ c ∈ ds, 48 ≤ c ∧ c ≤ 57) :
    scanField w (ds ++ rest) = some ((number 10 (digitsOf 10 ds) : Int), rest) := by
  obtain ⟨c, s, rfl⟩ := List.exists_cons_of_ne_nil (List.ne_nil_of_length_pos (by omega : 0 < ds.length))
  obtain ⟨hspace, hminus, hplus⟩ := (isDigit_ten (hds c (by simp))).head
  have htake : (c :: s ++ rest).take w = c :: s := by rw [← hlen, List.take_left']; rfl
  have hall : (c :: s).takeWhile (fun c => 48 ≤ c && c ≤ 57) = c :: s :=
    List.takeWhile_eq_self_iff.mpr fun x hx => by simpa using hds x hx
  have hdrop : (c :: s ++ rest).dropWhile isspace = c :: s ++ rest := by simp [hspace]
  have hsign : ¬((c :: s ++ rest).head? = some 45 ∨ (c :: s ++ rest).head? = some 43) := by simp [hminus, hplus]
  unfold scanField
  simp only [hdrop, if_neg hsign, htake, hall]
  simp [hminus]

/-- A field of a date, with its digits. -/
structure Digits (w : Nat) (n : Int) (ds : Bytes) : Prop where
  length : ds.length = w
  digits : ∀ c ∈ ds, 48 ≤ c ∧ c ≤ 57
  number : (number 10 (digitsOf 10 ds) : Int) = n

theorem Digits.scan {w : Nat} {n : Int} {ds : Bytes} (h : Digits w n ds) (hw : 0 < w) (rest : Bytes) :
    scanField w (ds ++ rest) = some (n, rest) := by
  rw [scanField_digits hw h.length h.digits, h.number]

theorem digits_twoDigits {n : Int} (hn : 0 ≤ n ∧ n < 100) : Digits 2 n (twoDigits n) := by
  have key : ∀ n < 100, (∀ c ∈ twoDigits (n : Nat), 48 ≤ c ∧ c ≤ 57) ∧
      Bytes.number 10 (digitsOf 10 (twoDigits (n : Nat))) = n := by decide
  obtain ⟨n, rfl⟩ := Int.eq_ofNat_of_zero_le hn.1
  obtain ⟨hdigits, hnumber⟩ := key n (by omega)
  exact ⟨rfl, hdigits, by rw [hnumber]⟩

theorem digits_year {n : Int} (hn : 1000 ≤ n ∧ n ≤ 9999) : Digits 4 n (val (Int32.ofInt n) 10) := by
  have hint : (Int32.ofInt n).toInt = n := Int32.toInt_ofInt_of_le (by omega) (by omega)
  obtain ⟨ds, -, hds, hnum, hval⟩ := val_spec 10 (by decide) (Int32.ofInt n)
  have hpos : ¬Int32.ofInt n < 0 := by
    rw [neg_iff, hint]
    omega
  rw [if_neg hpos] at hval
  refine ⟨length_val 10 (k := 3) (by decide) ?_ ?_, fun c hc => ?_, ?_⟩
  · rw [hint]
    exact hn.1
  · rw [hint]
    exact Int.lt_of_le_of_lt hn.2 (by decide)
  · obtain rfl | h := mem_val hc
    · rw [hval] at hc
      exact absurd rfl (hds _ hc).1.head.2.1
    · exact h
  · have hnum : Bytes.number 10 (digitsOf 10 ds) = (Int32.ofInt n).toInt.natAbs := hnum
    rw [hval, hnum, hint]
    omega

/-- The fields of a calendar time with a year of four digits. -/
structure Tm.Valid (t : Tm) : Prop where
  year : 1000 ≤ t.tm_year + 1900 ∧ t.tm_year + 1900 ≤ 9999
  mon : 0 ≤ t.tm_mon + 1 ∧ t.tm_mon + 1 < 100
  mday : 0 ≤ t.tm_mday ∧ t.tm_mday < 100
  hour : 0 ≤ t.tm_hour ∧ t.tm_hour < 100
  min : 0 ≤ t.tm_min ∧ t.tm_min < 100
  sec : 0 ≤ t.tm_sec ∧ t.tm_sec < 100

theorem strftime_eq (t : Tm) : strftime t =
    val (Int32.ofInt (t.tm_year + 1900)) 10 ++ (twoDigits (t.tm_mon + 1) ++ (twoDigits t.tm_mday ++
      84 :: (twoDigits t.tm_hour ++ 58 :: (twoDigits t.tm_min ++ 58 :: (twoDigits t.tm_sec ++ []))))) := by
  simp [strftime]

theorem mem_strftime {t : Tm} (ht : t.Valid) {c : UInt8} (hc : c ∈ strftime t) :
    48 ≤ c ∧ c ≤ 57 ∨ c = 84 ∨ c = 58 := by
  have digits := fun {w n ds} (h : Digits w n ds) => h.digits c
  simp only [strftime_eq, List.mem_append, List.mem_cons, List.not_mem_nil, or_false] at hc
  obtain h | h | h | h | h | h | h | h := hc
  · exact Or.inl (digits (digits_year ht.year) h)
  · exact Or.inl (digits (digits_twoDigits ht.mon) h)
  · exact Or.inl (digits (digits_twoDigits ht.mday) h)
  · exact Or.inr (Or.inl h)
  · exact Or.inl (digits (digits_twoDigits ht.hour) h)
  · exact Or.inr (Or.inr h)
  · exact Or.inl (digits (digits_twoDigits ht.min) h)
  · obtain h | h := h
    · exact Or.inr (Or.inr h)
    · exact Or.inl (digits (digits_twoDigits ht.sec) h)

/-- The format reads back what it writes, except that the month is taken as it stands in
the text, where January is 1. -/
theorem scan_strftime {t : Tm} (ht : t.Valid) :
    scanDateTime (strftime t) =
      some ⟨t.tm_sec, t.tm_min, t.tm_hour, t.tm_mday, t.tm_mon + 1, t.tm_year + 1900, 0, 0, 0⟩ := by
  have hcstr : (strftime t).cstr = strftime t := cstr_of_ne fun c hc => by
    rintro rfl
    exact absurd (mem_strftime ht hc) (by decide)
  rw [scanDateTime, hcstr, strftime_eq, (digits_year ht.year).scan (by decide)]
  simp only [Option.bind_eq_bind, Option.bind_some]
  rw [(digits_twoDigits ht.mon).scan (by decide)]
  simp only [Option.bind_some]
  rw [(digits_twoDigits ht.mday).scan (by decide)]
  simp only [Option.bind_some, scanChar, if_true]
  rw [(digits_twoDigits ht.hour).scan (by decide)]
  simp only [Option.bind_some, if_true]
  rw [(digits_twoDigits ht.min).scan (by decide)]
  simp only [Option.bind_some, if_true]
  rw [(digits_twoDigits ht.sec).scan (by decide)]
  rfl

theorem clean_strftime {t : Tm} (ht : t.Valid) : Clean (strftime t) := by
  have key : ∀ n < 128, (48 ≤ UInt8.ofNat n ∧ UInt8.ofNat n ≤ 57 ∨ UInt8.ofNat n = 84 ∨ UInt8.ofNat n = 58) →
      CleanChar (UInt8.ofNat n) ∧ isspace (UInt8.ofNat n) = false := by decide
  have hchar : ∀ c ∈ strftime t, CleanChar c ∧ isspace c = false := by
    intro c hc
    have hc := mem_strftime ht hc
    have hle : c ≤ 127 := by
      obtain h | rfl | rfl := hc
      · exact UInt8.le_trans h.2 (by decide)
      · decide
      · decide
    obtain ⟨n, hn, rfl⟩ := exists_ofNat hle
    exact key n hn hc
  have hmem : 84 ∈ strftime t := by simp [strftime_eq]
  refine ⟨fun c hc => (hchar c hc).1, ?_⟩
  simp only [Inked, List.any_eq_true]
  exact ⟨84, hmem, by decide⟩

namespace DateTime

variable {day month hour minute second : UInt8} {year : Int16}

/-- The fields of a time of day. -/
theorem ofFields_time (day month : UInt8) (year : Int16) (hh : hour.toNat < 24) (hm : minute.toNat < 60)
    (hs : second.toNat < 60) :
    (ofFields day month year hour minute second).hour = hour.toNat ∧
      (ofFields day month year hour minute second).minute = minute.toNat ∧
      (ofFields day month year hour minute second).second = second.toNat := by
  simp only [DateTime.hour, DateTime.minute, DateTime.second, ofFields]
  refine ⟨?_, ?_, ?_⟩
  · rw [Int.tdiv_eq_ediv_of_nonneg (by omega), Int.tmod_eq_emod_of_nonneg (by omega)]
    omega
  · rw [Int.tdiv_eq_ediv_of_nonneg (by omega), Int.tmod_eq_emod_of_nonneg (by omega)]
    omega
  · rw [Int.tmod_eq_emod_of_nonneg (by omega)]
    omega

theorem toTM_ofFields (day month : UInt8) (year : Int16) (hh : hour.toNat < 24) (hm : minute.toNat < 60)
    (hs : second.toNat < 60) :
    ((ofFields day month year hour minute second).toTM.tm_sec = second.toNat ∧
      (ofFields day month year hour minute second).toTM.tm_min = minute.toNat ∧
      (ofFields day month year hour minute second).toTM.tm_hour = hour.toNat) ∧
      (ofFields day month year hour minute second).toTM.tm_mday = day.toNat ∧
      (ofFields day month year hour minute second).toTM.tm_mon = month.toNat - 1 ∧
      (ofFields day month year hour minute second).toTM.tm_year = year.toInt - 1900 := by
  obtain ⟨h₁, h₂, h₃⟩ := ofFields_time day month year hh hm hs
  have hyear : year.toInt32.toInt - 1900 = year.toInt - 1900 := by rw [Int16.toInt_toInt32]
  exact ⟨⟨h₃, h₂, h₁⟩, rfl, rfl, hyear⟩

theorem ofInt_toNat (n : UInt8) : UInt8.ofInt n.toNat = n := by
  have := n.toNat_lt
  rw [← UInt8.toNat_inj, UInt8.ofInt, UInt8.toNat_ofNat']
  omega

/-- `DateTime(tm*)`, which takes the month to start at 0 and puts a month 13 into the next year. -/
theorem ofTm_eq (day month : UInt8) (year : Int16) {t : Tm} (hday : t.tm_mday = day.toNat)
    (hmonth : t.tm_mon + 1 = month.toNat) (hyear : t.tm_year + 1900 = year.toInt)
    (ht : 0 ≤ t.tm_hour * 3600 + t.tm_min * 60 + t.tm_sec)
    (ht' : t.tm_hour * 3600 + t.tm_min * 60 + t.tm_sec ≤ 86400) :
    ofTm t = ⟨(Date.ofYmd day month year).updateYmd, t.tm_hour * 3600 + t.tm_min * 60 + t.tm_sec⟩ := by
  have htime : rescale (t.tm_hour * 3600 + t.tm_min * 60 + t.tm_sec) =
      (0, t.tm_hour * 3600 + t.tm_min * 60 + t.tm_sec) := by
    rw [rescale, if_neg (by omega)]
  have hdate : Date.ofTm t = Date.ofYmd day month year := by
    rw [Date.ofTm, hday, hmonth, hyear, Int32.ofInt_int16ToInt, ofInt_toNat, ofInt_toNat]
    rfl
  simp [ofTm, htime, hdate, Date.addToDay]

/-- The date of the month after is another one, also when the calendar has it elsewhere. -/
theorem next_month_ne (hv : Date.Valid day month year.toInt) (hy : 1000 ≤ year.toInt ∧ year.toInt ≤ 9999) :
    ¬((Date.ofYmd day (month + 1) year).updateYmd.day = day ∧
      (Date.ofYmd day (month + 1) year).updateYmd.month = month ∧
      (Date.ofYmd day (month + 1) year).updateYmd.year = year.toInt32) := by
  rintro ⟨hday, hmonth, hyear⟩
  have hday_le := hv.day_le
  have hlt := Date.julian_lt_next day hv.months (show -4799 ≤ year.toInt by omega)
  have hnext : (month + 1).toNat = month.toNat + 1 := by
    have := hv.months
    rw [UInt8.toNat_add]
    simp only [UInt8.reduceToNat]
    omega
  obtain ⟨Y, hY⟩ := Int.eq_ofNat_of_zero_le (show 0 ≤ year.toInt + 4799 by omega)
  have hbound : 0 ≤ (Date.ofYmd day (month + 1) year).julian ∧
      (Date.ofYmd day (month + 1) year).julian ≤ 6000000 := by
    have := hv.months
    obtain h | h : month.toNat = 1 ∨ 2 ≤ month.toNat := by omega
    · rw [Date.julian_ofYmd (Y := Y) (N := 12) (by omega) (by omega)]
      omega
    · rw [Date.julian_ofYmd (Y := Y + 1) (N := month.toNat - 1) (by omega) (by omega)]
      omega
  have hjulian := Date.julian_updateYmd (Date.ofYmd day (month + 1) year) (by omega) (by omega)
  have hsame : (Date.ofYmd day (month + 1) year).updateYmd.updateJulian.julian =
      (Date.ofYmd day month year).julian := by
    simp only [Date.ofYmd, Date.updateJulian] at hday hmonth hyear ⊢
    rw [hday, hmonth, hyear]
  omega

end DateTime

namespace RpcValue

/-- The fields of a date and time come back from the text that `asXml` writes. -/
def KeepsFields (dt : DateTime) : Prop :=
  ∃ xml p str dt' p', (ofDateTime dt).asXml = some xml ∧
    (Parser.ofString xml).getNextElement = .ok (true, p) ∧
    FromXml p = .ok (.scalar .TypeDateTime str (.asDateTime dt'), p') ∧
    dt'.year = dt.year ∧ dt'.month = dt.month ∧ dt'.day = dt.day ∧
    dt'.hour = dt.hour ∧ dt'.minute = dt.minute ∧ dt'.second = dt.second

variable {day month hour minute second : UInt8} {year : Int16}

/-- What is read back is the day with the number of the same day a month later. -/
theorem fromXml_ofDateTime (hv : Date.Valid day month year.toInt) (hy : 1000 ≤ year.toInt ∧ year.toInt ≤ 9999)
    (hh : hour.toNat < 24) (hm : minute.toNat < 60) (hs : second.toNat < 60) :
    ∃ xml p str p', (ofDateTime (.ofFields day month year hour minute second)).asXml = some xml ∧
      (Parser.ofString xml).getNextElement = .ok (true, p) ∧
      FromXml p = .ok (.scalar .TypeDateTime str (.asDateTime
        ⟨(Date.ofYmd day (month + 1) year).updateYmd,
          hour.toNat * 3600 + minute.toNat * 60 + second.toNat⟩), p') := by
  obtain ⟨⟨h₁, h₂, h₃⟩, h₄, h₅, h₆⟩ :=
    DateTime.toTM_ofFields day month year hh hm hs
  have hmonths := hv.months
  have hday_le := hv.day_le
  obtain ⟨t, hteq⟩ : ∃ t, (DateTime.ofFields day month year hour minute second).toTM = t := ⟨_, rfl⟩
  rw [hteq] at h₁ h₂ h₃ h₄ h₅ h₆
  have ht : t.Valid := ⟨by omega, by omega, by omega, by omega, by omega, by omega⟩
  have hnext : (month + 1).toNat = month.toNat + 1 := by
    rw [UInt8.toNat_add]
    simp only [UInt8.reduceToNat]
    omega
  have hofTm := DateTime.ofTm_eq day (month + 1) year
    (t := ⟨t.tm_sec, t.tm_min, t.tm_hour, t.tm_mday, t.tm_mon + 1, t.tm_year + 1900 - 1900, 0, 0, -1⟩)
    h₄ (by simp only; omega) (by simp only; omega) (by simp only; omega) (by simp only; omega)
  have hmake : Scalar.dateTime.make (strftime t) = some (.scalar .TypeDateTime (strftime t) (.asDateTime
      ⟨(Date.ofYmd day (month + 1) year).updateYmd,
        hour.toNat * 3600 + minute.toNat * 60 + second.toNat⟩)) := by
    rw [Scalar.make, readDateTime, scan_strftime ht]
    simp only [Option.bind_eq_bind, Option.bind_some, hofTm]
    rw [h₁, h₂, h₃]
  have hclean := clean_strftime ht
  obtain ⟨p, p', hp, hrun, -⟩ := fromXml_text (d := .scalar .dateTime [] (strftime t) [])
    ⟨by decide, hclean.plainText, by decide, fun _ => by rw [hmake]; rfl⟩ trivial rfl
  rw [Doc.meaning, if_pos hclean.inked, hmake, Option.getD_some] at hrun
  refine ⟨_, p, _, p', ?_, hp, hrun⟩
  rw [ofDateTime, hteq]
  exact asXml_scalar (s := .dateTime) _ hclean.encode rfl

/-- No date with a year of four digits is read back as it was. -/
theorem not_keepsFields (hv : Date.Valid day month year.toInt) (hy : 1000 ≤ year.toInt ∧ year.toInt ≤ 9999)
    (hh : hour.toNat < 24) (hm : minute.toNat < 60) (hs : second.toNat < 60) :
    ¬KeepsFields (.ofFields day month year hour minute second) := by
  rintro ⟨xml, p, str, dt', p', hxml, hp, hrun, hyear, hmonth, hday, -⟩
  obtain ⟨xml', q, str', q', hxml', hq, hrun'⟩ := fromXml_ofDateTime hv hy hh hm hs
  cases Option.some.inj (hxml.symm.trans hxml')
  cases Except.ok.inj (hp.symm.trans hq)
  cases Except.ok.inj (hrun.symm.trans hrun')
  exact DateTime.next_month_ne hv hy ⟨hday, hmonth, hyear⟩

theorem not_keepsFields_new_year :
    ¬KeepsFields (.ofFields 31 12 1999 23 59 59) :=
  not_keepsFields ⟨by decide, by decide⟩ (by decide) (by decide) (by decide) (by decide)

theorem not_keepsFields_july :
    ¬∀ (day month hour minute second : UInt8) (year : Int16), Date.Valid day month year.toInt →
      1000 ≤ year.toInt ∧ year.toInt ≤ 9999 → hour.toNat < 24 → minute.toNat < 60 → second.toNat < 60 →
      KeepsFields (.ofFields day month year hour minute second) := by
  intro h
  obtain ⟨xml, p, str, dt', p', hxml, hp, hrun, -, hmonth, -⟩ :=
    h 17 7 14 8 55 1998 ⟨by decide, by decide⟩ (by decide) (by decide) (by decide) (by decide)
  obtain ⟨xml', q, str', q', hxml', hq, hrun'⟩ := @fromXml_ofDateTime 17 7 14 8 55 1998
    ⟨by decide, by decide⟩ (by decide) (by decide) (by decide) (by decide)
  cases Option.some.inj (hxml.symm.trans hxml')
  cases Except.ok.inj (hp.symm.trans hq)
  cases Except.ok.inj (hrun.symm.trans hrun')
  exact absurd hmonth (by decide)

end RpcValue

end Srl
