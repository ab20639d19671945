import Srl.Bytes

namespace Srl

/-- The fields of `struct tm` that the conversions fill in. -/
structure Tm where
  tm_sec : Int
  tm_min : Int
  tm_hour : Int
  tm_mday : Int
  tm_mon : Int
  tm_year : Int
  tm_wday : Int
  tm_yday : Int
  tm_isdst : Int
  deriving DecidableEq, Repr

/-- `Date`; arithmetic on its fields is done in `int`, whose range is never left here. -/
structure Date where
  day : UInt8
  month : UInt8
  year : Int32
  julian : Int
  deriving DecidableEq, Repr

namespace Date

def updateJulian (date : Date) : Date :=
  let y := date.year.toInt
  let m : Int := date.month.toNat
  let d : Int := date.day.toNat
  { date with
    julian := d - 32075 + (1461 * (y + 4800 + (m - 14).tdiv 12)).tdiv 4 +
      (367 * (m - 2 - (m - 14).tdiv 12 * 12)).tdiv 12 -
      (3 * (y + 4900 + (m - 14).tdiv 12).tdiv 100).tdiv 4 }

/-- `_update_ymd`, in `unsigned int` as in the source. -/
def updateYmd (date : Date) : Date :=
  let A := UInt32.ofInt (date.julian + 32045)
  let B := (4 * (A + 36524)) / 146097 - 1
  let C := A - (146097 * B) / 4
  let D := (4 * (C + 365)) / 1461 - 1
  let E := C - ((1461 * D) / 4)
  let M := (5 * (E - 1) + 2) / 153
  { date with
    month := (M + 3 - 12 * (M / 10)).toUInt8
    day := (E - (153 * M + 2) / 5).toUInt8
    year := (100 * B + D - 4800 + M / 10).toInt32 }

/-- `Date(uint8 day, uint8 month, int16 year)`. -/
def ofYmd (day month : UInt8) (year : Int16) : Date := updateJulian ⟨day, month, year.toInt32, 0⟩

/-- `Date(tm*)`. -/
def ofTm (dt : Tm) : Date :=
  updateJulian ⟨UInt8.ofInt dt.tm_mday, UInt8.ofInt (dt.tm_mon + 1), Int32.ofInt (dt.tm_year + 1900), 0⟩

def addToDay (date : Date) (days : Int) : Date := updateYmd { date with julian := date.julian + days }

def isLeapYear (date : Date) : Bool :=
  let y := date.year.toInt
  (y.tmod 4 = 0 && y.tmod 100 ≠ 0) || y.tmod 400 = 0

/-- The rows of `__days_in_year`. -/
def daysInYear (leap : Bool) : List Nat :=
  if leap then [0, 0, 31, 60, 91, 121, 152, 182, 213, 244, 274, 305, 335, 366]
  else [0, 0, 31, 59, 90, 120, 151, 181, 212, 243, 273, 304, 334, 365]

def dayOfYear (date : Date) : Nat := (daysInYear date.isLeapYear).getD date.month.toNat 0 + date.day.toNat

/-- A `uint8`, as in the source. -/
def dayOfWeek (date : Date) : Int := (UInt8.ofInt (date.julian.tmod 7 + 1)).toNat

variable {a b : Date}

/-- `_update_ymd` looks at the julian number only. -/
theorem updateYmd_congr (h : a.julian = b.julian) : a.updateYmd = b.updateYmd := by
  cases a
  cases b
  cases h
  rfl

-- With the fields out of sight the kernel does not work them out to compare the records.
theorem updateYmd_keeps_julian (date : Date) : date.updateYmd.julian = date.julian := by
  obtain ⟨day, month, year, h⟩ : ∃ day month year, date.updateYmd = ⟨day, month, year, date.julian⟩ := ⟨_, _, _, rfl⟩
  rw [h]

end Date

/-- `DateTime`, a `Date` and the seconds since midnight, which are whole numbers here. -/
structure DateTime extends Date where
  time : Int
  deriving DecidableEq, Repr

namespace DateTime

def hour (dt : DateTime) : Int := (dt.time.tdiv 3600).tmod 24

def minute (dt : DateTime) : Int := (dt.time.tdiv 60).tmod 60

def second (dt : DateTime) : Int := dt.time.tmod 60

/-- `Time::rescale`: the days it takes off the seconds, and the seconds that stay. -/
def rescale (time : Int) : Int × Int :=
  if time > 86400 ∨ time < 0 then (time.tdiv 86400, time - time.tdiv 86400 * 86400) else (0, time)

/-- `DateTime(day, month, year, hour, minute, second)`. -/
def ofFields (day month : UInt8) (year : Int16) (hour minute second : UInt8) : DateTime :=
  ⟨Date.ofYmd day month year, hour.toNat * 3600 + minute.toNat * 60 + second.toNat⟩

/-- `DateTime(tm*)`. -/
def ofTm (dt : Tm) : DateTime :=
  let (days, time) := rescale (dt.tm_hour * 3600 + dt.tm_min * 60 + dt.tm_sec)
  ⟨(Date.ofTm dt).addToDay days, time⟩

/-- The copy constructor, which works the fields out again. -/
def copy (dt : DateTime) : DateTime := ⟨dt.toDate.updateYmd, dt.time⟩

/-- `Date::toTM` and `Time::toTM`. -/
def toTM (dt : DateTime) : Tm where
  tm_sec := dt.second
  tm_min := dt.minute
  tm_hour := dt.hour
  tm_mday := dt.day.toNat
  tm_mon := dt.month.toNat - 1
  tm_year := dt.year.toInt - 1900
  tm_wday := if dt.dayOfWeek = 7 then 0 else dt.dayOfWeek
  tm_yday := dt.dayOfYear - 1
  tm_isdst := -1

end DateTime

/-- A number of `strftime` with at least two digits. -/
def twoDigits (n : Int) : Bytes := [UInt8.ofInt (48 + n / 10 % 10), UInt8.ofInt (48 + n % 10)]

/-- `strftime` with the format `%Y%m%dT%H:%M:%S`. -/
def strftime (dt : Tm) : Bytes :=
  Bytes.val (Int32.ofInt (dt.tm_year + 1900)) 10 ++ twoDigits (dt.tm_mon + 1) ++ twoDigits dt.tm_mday ++
    84 :: twoDigits dt.tm_hour ++ 58 :: twoDigits dt.tm_min ++ 58 :: twoDigits dt.tm_sec

/-- A `%d` field of `sscanf` with a maximal width. -/
def scanField (width : Nat) (s : Bytes) : Option (Int × Bytes) :=
  let s := s.dropWhile isspace
  let signed := s.head? = some 45 ∨ s.head? = some 43
  let digits := ((if signed then (s.drop 1).take (width - 1) else s.take width)).takeWhile
    fun c => 48 ≤ c && c ≤ 57
  if digits = [] then none
  else
    let n : Int := Bytes.number 10 (Bytes.digitsOf 10 digits)
    some (if s.head? = some 45 then -n else n, s.drop ((if signed then 1 else 0) + digits.length))

/-- A literal character of a `sscanf` format. -/
def scanChar (c : UInt8) : Bytes → Option Bytes
  | x :: s => if x = c then some s else none
  | [] => none

/-- `sscanf` with `%4d%2d%2dT%2d:%2d:%2d`, when it fills all six fields. -/
def scanDateTime (s : Bytes) : Option Tm := do
  let (year, s) ← scanField 4 s.cstr
  let (mon, s) ← scanField 2 s
  let (mday, s) ← scanField 2 s
  let s ← scanChar 84 s
  let (hour, s) ← scanField 2 s
  let s ← scanChar 58 s
  let (min, s) ← scanField 2 s
  let s ← scanChar 58 s
  let (sec, _) ← scanField 2 s
  some ⟨sec, min, hour, mday, mon, year, 0, 0, 0⟩

end Srl
