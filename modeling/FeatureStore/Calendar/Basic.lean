/-!
# Dates and instants

Days of the proleptic Gregorian calendar over a wide but bounded range of
years, and instants of such a day in universal time with nanoseconds. Both are
written as in RFC 3339, years of more than four digits or before the year zero
with their sign. The last day has no successor (`Date.next?`), so the last
second has none either (`Instant.nextSecond?`).
-/

namespace FeatureStore

/-- The year has a twenty-ninth of February. -/
def isLeapYear (year : Int) : Bool :=
  year % 4 == 0 && (year % 100 != 0 || year % 400 == 0)

/-- The number of days of a month. -/
def daysInMonth (year : Int) (month : Nat) : Nat :=
  if month = 2 then (if isLeapYear year then 29 else 28)
  else if month = 4 ∨ month = 6 ∨ month = 9 ∨ month = 11 then 30
  else 31

/-- The years that dates may lie in. -/
def firstYear : Int := -262143

/-- The last year that dates may lie in. -/
def lastYear : Int := 262142

/-- The day exists and lies in the range of years. -/
def IsCivilDay (year : Int) (month day : Nat) : Prop :=
  firstYear ≤ year ∧ year ≤ lastYear ∧ 1 ≤ month ∧ month ≤ 12 ∧ 1 ≤ day ∧
    day ≤ daysInMonth year month

instance (year : Int) (month day : Nat) : Decidable (IsCivilDay year month day) := by
  unfold IsCivilDay
  infer_instance

/-- A day of the calendar. -/
structure Date where
  year : Int
  month : Nat
  day : Nat
  isCivil : IsCivilDay year month day
  deriving DecidableEq

namespace Date

/-- The day of a year, month and day number, if it exists. -/
def ofCivil? (year : Int) (month day : Nat) : Option Date :=
  if h : IsCivilDay year month day then some ⟨year, month, day, h⟩ else none

/-- The day after. -/
def next? (d : Date) : Option Date :=
  if d.day < daysInMonth d.year d.month then ofCivil? d.year d.month (d.day + 1)
  else if d.month < 12 then ofCivil? d.year (d.month + 1) 1
  else ofCivil? (d.year + 1) 1 1

/-- The day before. -/
def previous? (d : Date) : Option Date :=
  if 1 < d.day then ofCivil? d.year d.month (d.day - 1)
  else if 1 < d.month then ofCivil? d.year (d.month - 1) (daysInMonth d.year (d.month - 1))
  else ofCivil? (d.year - 1) 12 31

end Date

/-- A natural number in decimal with zeros in front up to a width. -/
def paddedDigits (width n : Nat) : List Char :=
  let digits := Nat.toDigits 10 n
  List.replicate (width - digits.length) '0' ++ digits

/-- The text of a year: four digits, or a sign and at least four digits outside `0` to `9999`. -/
def yearDigits (year : Int) : List Char :=
  if year < 0 then '-' :: paddedDigits 4 year.natAbs
  else if 9999 < year then '+' :: paddedDigits 4 year.natAbs
  else paddedDigits 4 year.natAbs

namespace Date

/-- The characters of a date: year, month and day with hyphens between them. -/
def chars (d : Date) : List Char :=
  yearDigits d.year ++ '-' :: paddedDigits 2 d.month ++ '-' :: paddedDigits 2 d.day

/-- The text of a date. -/
def text (d : Date) : String := String.ofList d.chars

end Date

/-- An instant in universal time: the day, the second of the day and the nanoseconds since that
second began. During a leap second the nanoseconds go on counting past one second. -/
structure Instant where
  date : Date
  second : Nat
  nanosecond : Nat
  second_lt : second < 86400
  nanosecond_lt : nanosecond < 2000000000
  deriving DecidableEq

namespace Instant

/-- The instant one second later; a leap second is left behind, whatever its fraction. -/
def nextSecond? (t : Instant) : Option Instant :=
  let nanosecond := if t.nanosecond < 1000000000 then t.nanosecond else t.nanosecond - 1000000000
  have bound : nanosecond < 2000000000 := by
    have := t.nanosecond_lt
    simp only [nanosecond]
    split <;> omega
  if h : t.second + 1 < 86400 then some ⟨t.date, t.second + 1, nanosecond, h, bound⟩
  else t.date.next?.map fun next => ⟨next, 0, nanosecond, by omega, bound⟩

/-- The fraction of a second in as few of 0, 3, 6 or 9 digits as lose nothing. -/
def fractionDigits (nanosecond : Nat) : List Char :=
  if nanosecond = 0 then []
  else if nanosecond % 1000000 = 0 then '.' :: paddedDigits 3 (nanosecond / 1000000)
  else if nanosecond % 1000 = 0 then '.' :: paddedDigits 6 (nanosecond / 1000)
  else '.' :: paddedDigits 9 nanosecond

/-- The time of day; a leap second is written as second sixty. -/
def timeChars (t : Instant) : List Char :=
  let leap := 1000000000 ≤ t.nanosecond
  let second := t.second % 60 + if leap then 1 else 0
  let nanosecond := if leap then t.nanosecond - 1000000000 else t.nanosecond
  paddedDigits 2 (t.second / 3600) ++ ':' :: paddedDigits 2 (t.second / 60 % 60) ++
    ':' :: paddedDigits 2 second ++ fractionDigits nanosecond

/-- The text of an instant. -/
def text (t : Instant) : String :=
  String.ofList (t.date.chars ++ 'T' :: t.timeChars ++ ['Z'])

end Instant

end FeatureStore
