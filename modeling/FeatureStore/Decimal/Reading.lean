import FeatureStore.Decimal.Binary64

/-!
# Reading decimal text

Integers and floating point numbers written in decimal. An integer is an
optional sign and digits, and must fit sixty-four bits with sign. A floating
point number may have a fraction, an exponent or one of the words for the
infinities and not-a-number, and is rounded once from its exact value.
-/

namespace FeatureStore

/-- The value of a run of decimal digits. -/
def digitsValue (digits : List Char) : Nat :=
  digits.foldl (fun n c => 10 * n + (c.toNat - '0'.toNat)) 0

/-- All of one or more characters are decimal digits. -/
def isDigits (cs : List Char) : Bool := !cs.isEmpty && cs.all Char.isDigit

/-- The sign in front of a number (true for a minus) and what follows it. -/
def splitSign : List Char → Bool × List Char
  | '-' :: rest => (true, rest)
  | '+' :: rest => (false, rest)
  | cs => (false, cs)

/-- An integer from its sign and absolute value. -/
def signed (negative : Bool) (n : Nat) : Int := if negative then -(n : Int) else n

/-- Within the range of sixty-four bit integers with sign. -/
def fitsInt64 (n : Int) : Bool := decide (-(Nat.pow 2 63 : Int) ≤ n) && decide (n < (Nat.pow 2 63 : Int))

/-- Reads an integer of sixty-four bits: an optional sign and digits, nothing else. -/
def readInt64? (text : String) : Option Int :=
  let (negative, digits) := splitSign text.toList
  if isDigits digits then
    let n := signed negative (digitsValue digits)
    if fitsInt64 n then some n else none
  else none

namespace Binary64

/-- The number nearest to `digits * 10 ^ exponent`. Exponents far outside the range of the
format are answered without forming the power: beyond `10 ^ 310` all numbers are infinite, and
below `10 ^ (-330)` all are zero. -/
def ofDecimal (negative : Bool) (digits : Nat) (exponent : Int) : Binary64 :=
  let size : Int := Nat.log2 digits / 3 + 1
  if digits = 0 then ⟨negative, 0⟩
  else if 310 < exponent then infinity negative
  else if exponent + size < -330 then ⟨negative, 0⟩
  else if exponent < 0 then ofRatio negative digits (Nat.pow 10 exponent.natAbs)
  else ofRatio negative (digits * Nat.pow 10 exponent.natAbs) 1

/-- An optional exponent: the letter, an optional sign and digits. -/
def readExponent? : List Char → Option Int
  | [] => some 0
  | c :: rest =>
    if c = 'e' ∨ c = 'E' then
      let (negative, digits) := splitSign rest
      if isDigits digits then some (signed negative (digitsValue digits)) else none
    else none

/-- Digits with an optional point among them and an optional exponent; at least one digit
stands before the exponent. -/
def readDecimal? (negative : Bool) (cs : List Char) : Option Binary64 :=
  let whole := cs.takeWhile Char.isDigit
  let rest := cs.dropWhile Char.isDigit
  let (fraction, tail) := match rest with
    | '.' :: more => (more.takeWhile Char.isDigit, more.dropWhile Char.isDigit)
    | _ => ([], rest)
  if whole.isEmpty && fraction.isEmpty then none
  else (readExponent? tail).map fun exponent =>
    ofDecimal negative (digitsValue (whole ++ fraction)) (exponent - (fraction.length : Int))

/-- Reads a floating point number: an optional sign, then digits or, in any case of letters,
`inf`, `infinity` or `nan`. -/
def read? (text : String) : Option Binary64 :=
  let (negative, body) := splitSign text.toList
  let word := body.map Char.toLower
  if word = "inf".toList ∨ word = "infinity".toList then some (infinity negative)
  else if word = "nan".toList then some (nan negative)
  else readDecimal? negative body

end Binary64

end FeatureStore
