import HttpEcho.Text.Numeral

/-!
# Dates and times of day

The proleptic Gregorian calendar in universal time. Inside, a year starts in March, so that a leap day
is the last day of its year, of its four years, of its century or of its four centuries.
-/

namespace HttpEcho

structure Date where
  year : Int
  month : Nat
  day : Nat
  deriving DecidableEq, Repr

namespace Date

/-- Days from the first of March of year 0 to the first of January 1970. -/
def epochOffset : Int := 719468

def daysPerFourCenturies : Nat := 146097

/-- Days of a century that does not end with a leap day. -/
def daysPerCentury : Nat := 36524

/-- Days of four years that end with a leap day. -/
def daysPerFourYears : Nat := 1461

/-- The month and the day of the month, counted from March as month 0, of a day of the year. -/
def monthAndDay (dayOfYear : Nat) : Nat × Nat :=
  let month := (5 * dayOfYear + 2) / 153
  (month, dayOfYear - (153 * month + 2) / 5 + 1)

/-- The date of a day counted from the first of January 1970. -/
def ofDays (days : Int) : Date :=
  let shifted := days + epochOffset
  let era := shifted / daysPerFourCenturies
  let dayOfEra := (shifted % daysPerFourCenturies).toNat
  let century := min (dayOfEra / daysPerCentury) 3
  let dayOfCentury := dayOfEra - century * daysPerCentury
  let fourYears := dayOfCentury / daysPerFourYears
  let dayOfFourYears := dayOfCentury % daysPerFourYears
  let yearOfFour := min (dayOfFourYears / 365) 3
  let (month, day) := monthAndDay (dayOfFourYears - yearOfFour * 365)
  let year := era * 400 + (century * 100 + fourYears * 4 + yearOfFour : Nat)
  if month < 10 then ⟨year, month + 3, day⟩ else ⟨year + 1, month - 9, day⟩

/-- At least four digits, and a sign where there are more or the year is before 0. -/
def yearText (year : Int) : Text :=
  if 0 ≤ year ∧ year ≤ 9999 then Text.ofNatPadded 4 year.toNat
  else (if year < 0 then '-' else '+') :: Text.ofNatPadded 4 year.natAbs

def text (d : Date) : Text :=
  yearText d.year ++ '-' :: Text.ofNatPadded 2 d.month ++ '-' :: Text.ofNatPadded 2 d.day

end Date

/-- Seconds since the start of 1970 and nanoseconds. A leap second is the second before it with
`10 ^ 9` nanoseconds or more. -/
structure Instant where
  seconds : Int
  nanos : Nat
  deriving DecidableEq, Repr

namespace Instant

def secondsPerDay : Nat := 86400

def day (t : Instant) : Int := t.seconds / secondsPerDay

def date (t : Instant) : Date := Date.ofDays t.day

def secondOfDay (t : Instant) : Nat := (t.seconds % secondsPerDay).toNat

/-- Hours, minutes and seconds with colons. A leap second is second 60. -/
def timeText (t : Instant) : Text :=
  let s := t.secondOfDay
  Text.ofNatPadded 2 (s / 3600) ++ ':' :: Text.ofNatPadded 2 (s / 60 % 60) ++ ':' ::
    Text.ofNatPadded 2 (s % 60 + t.nanos / 1000000000)

/-- Whole microseconds, those of a leap second above its full second included. -/
def micros (t : Instant) : Nat := t.nanos / 1000

/-- Date and time with six digits of fraction, which are left out if there are no microseconds. -/
def timestamp (t : Instant) : Text :=
  t.date.text ++ 'T' :: t.timeText ++
    (if t.micros = 0 then [] else '.' :: Text.ofNatPadded 6 (t.micros % 1000000))

def logTime (t : Instant) : Text := t.date.text ++ ' ' :: t.timeText

def weekdays : List Text := ["Mon", "Tue", "Wed", "Thu", "Fri", "Sat", "Sun"].map String.toList

def months : List Text :=
  ["Jan", "Feb", "Mar", "Apr", "May", "Jun", "Jul", "Aug", "Sep", "Oct", "Nov", "Dec"].map String.toList

/-- The form of a `Date` header. The first day of 1970 was a Thursday. -/
def httpDate (t : Instant) : Text :=
  weekdays.getD ((t.day + 3) % 7).toNat [] ++ ", ".toList ++ Text.ofNatPadded 2 t.date.day ++ ' ' ::
    months.getD (t.date.month - 1) [] ++ ' ' :: Date.yearText t.date.year ++ ' ' :: t.timeText ++
    " GMT".toList

end Instant

end HttpEcho
