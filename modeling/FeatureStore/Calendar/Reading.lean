import FeatureStore.Calendar.Basic
import FeatureStore.Decimal.Reading
import FeatureStore.Text.Blank

/-!
# Reading dates and instants

Two grammars of one shape. The strict one is RFC 3339: every field has its full
width and the year four digits. The lenient one lets a field be shorter, gives
years an optional sign and allows blanks before fields and marks. An instant is
moved to universal time by its offset; a local time is refused if that leaves
the range of years.
-/

namespace FeatureStore.Calendar

/-- Between `least` and `most` decimal digits, as many as there are: their value and the rest. -/
def digits? (least most : Nat) (cs : List Char) : Option (Nat × List Char) :=
  let run := (cs.take most).takeWhile Char.isDigit
  if run.length < least then none else some (digitsValue run, cs.drop run.length)

/-- A mark that has to come next. -/
def mark? (c : Char) : List Char → Option (List Char)
  | d :: rest => if d = c then some rest else none
  | [] => none

/-- A year: up to four digits, or a sign and any number of digits. -/
def year? (cs : List Char) : Option (Int × List Char) :=
  match cs with
  | '-' :: rest => (digits? 1 rest.length rest).map fun (n, tail) => (-(n : Int), tail)
  | '+' :: rest => (digits? 1 rest.length rest).map fun (n, tail) => ((n : Int), tail)
  | _ => (digits? 1 4 cs).map fun (n, tail) => ((n : Int), tail)

/-- A lenient field of one or two digits behind blanks. -/
def field? (cs : List Char) : Option (Nat × List Char) := digits? 1 2 (trimLeft cs)

/-- A lenient date in front of a text; blanks may stand before the marks if `blanks` is true. -/
def lenientDate? (blanks : Bool) (cs : List Char) : Option (Date × List Char) := do
  let skip := fun rest => if blanks then trimLeft rest else rest
  let (year, rest) ← year? (trimLeft cs)
  let rest ← mark? '-' (skip rest)
  let (month, rest) ← field? rest
  let rest ← mark? '-' (skip rest)
  let (day, rest) ← field? rest
  let date ← Date.ofCivil? year month day
  return (date, rest)

/-- The fraction of a second in nanoseconds, if a point comes next; digits beyond the ninth are
read and dropped. -/
def fraction? : List Char → Option (Nat × List Char)
  | '.' :: rest =>
    let run := rest.takeWhile Char.isDigit
    let kept := run.take 9
    if run.isEmpty then none
    else some (digitsValue kept * Nat.pow 10 (9 - kept.length), rest.dropWhile Char.isDigit)
  | cs => some (0, cs)

/-- The minutes of an offset behind its sign: hours and minutes of two digits each. The colon
between them is read by `separator`. -/
def offsetMinutes? (separator : List Char → Option (List Char)) (cs : List Char) :
    Option (Nat × List Char) := do
  let (hours, rest) ← digits? 2 2 cs
  let rest ← separator rest
  let (minutes, rest) ← digits? 2 2 rest
  if 60 ≤ minutes ∨ 24 ≤ hours then none
  else return (60 * hours + minutes, rest)

/-- An offset from universal time in minutes: `Z`, or a sign, hours and minutes. The minus sign
may also be the mathematical one. -/
def offset? (separator : List Char → Option (List Char)) :
    List Char → Option (Int × List Char)
  | [] => none
  | c :: rest =>
    if c = 'Z' ∨ c = 'z' then some (0, rest)
    else if c = '+' then (offsetMinutes? separator rest).map fun (n, tail) => ((n : Int), tail)
    else if c = '-' ∨ c.toNat = 0x2212 then
      (offsetMinutes? separator rest).map fun (n, tail) => (-(n : Int), tail)
    else none

/-- The instant of a local date and time at an offset in minutes. Second sixty is a leap second
after second fifty-nine. -/
def instantAt? (date : Date) (hour minute second nanosecond : Nat) (offset : Int) :
    Option Instant := do
  if 24 ≤ hour ∨ 60 ≤ minute ∨ 61 ≤ second ∨ 1000000000 ≤ nanosecond then none
  else
    let leap := second = 60
    let nano := if leap then nanosecond + 1000000000 else nanosecond
    let civil := 3600 * hour + 60 * minute + (if leap then 59 else second)
    let universal : Int := (civil : Int) - 60 * offset
    let day ←
      if universal < 0 then date.previous?
      else if 86400 ≤ universal then date.next?
      else some date
    let ofDay := (universal % 86400).toNat
    if h : ofDay < 86400 ∧ nano < 2000000000 then some ⟨day, ofDay, nano, h.1, h.2⟩ else none

/-- The mark between the date and the time of an instant. -/
def timeMark? : List Char → Option (List Char)
  | c :: rest => if c = 'T' ∨ c = 't' ∨ c = ' ' then some rest else none
  | [] => none

/-- The whole text has been read. -/
def atEnd? {α : Type} : α × List Char → Option α
  | (a, []) => some a
  | _ => none

end FeatureStore.Calendar

namespace FeatureStore

namespace Date

open Calendar

/-- Reads a date of year, month and day with hyphens between them, blanks only before fields. -/
def read? (text : String) : Option Date := (lenientDate? false text.toList).bind atEnd?

/-- Reads a date that may have blanks before every field and mark and at the end. -/
def readLenient? (text : String) : Option Date :=
  (lenientDate? true text.toList).bind fun (date, rest) => atEnd? (date, trimLeft rest)

end Date

namespace Instant

open Calendar

/-- Reads an instant in the strict grammar of RFC 3339. -/
def read? (text : String) : Option Instant := do
  let (year, rest) ← digits? 4 4 text.toList
  let rest ← mark? '-' rest
  let (month, rest) ← digits? 2 2 rest
  let rest ← mark? '-' rest
  let (day, rest) ← digits? 2 2 rest
  let rest ← timeMark? rest
  let (hour, rest) ← digits? 2 2 rest
  let rest ← mark? ':' rest
  let (minute, rest) ← digits? 2 2 rest
  let rest ← mark? ':' rest
  let (second, rest) ← digits? 2 2 rest
  let (nanosecond, rest) ← fraction? rest
  let offset ← (offset? (mark? ':') rest).bind atEnd?
  let date ← Date.ofCivil? year month day
  instantAt? date hour minute second nanosecond offset

/-- The offset of a lenient instant: universal time by name, or an offset whose colon may be
left out or stand among blanks. -/
def lenientOffset? (cs : List Char) : Option (Int × List Char) :=
  if (cs.take 3).map Char.toLower = ['u', 't', 'c'] then some (0, cs.drop 3)
  else offset? (fun rest => some (rest.dropWhile fun c => c = ':' || isBlank c)) cs

/-- Reads an instant in the lenient grammar. -/
def readLenient? (text : String) : Option Instant := do
  let (date, rest) ← lenientDate? true text.toList
  let rest ← timeMark? rest
  let (hour, rest) ← field? rest
  let rest ← mark? ':' (trimLeft rest)
  let (minute, rest) ← field? rest
  let rest ← mark? ':' (trimLeft rest)
  let (second, rest) ← field? rest
  let (nanosecond, rest) ← fraction? rest
  let offset ← (lenientOffset? (trimLeft rest)).bind atEnd?
  instantAt? date hour minute second nanosecond offset

end Instant

end FeatureStore
