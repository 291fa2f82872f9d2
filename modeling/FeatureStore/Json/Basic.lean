import FeatureStore.Decimal.Reading

/-!
# JSON documents

A document as data, and the reading of its numbers. An integer token within the
sixty-four bits of its sign stays an integer; every other number, a negative
zero included, becomes a binary64 number. The digits of such a number are kept
as long as they fit sixty-four bits; they are rounded, and then scaled by one
power of ten, which rounds once more.

A part of a text can be well formed and still stand for no data, such as a
number beyond the range of binary64. It is kept as `Json.unreadable`, which no
reader of data accepts, and does no harm where nothing is read.
-/

namespace FeatureStore

/-- A JSON document. Fields keep their order and may repeat. -/
inductive Json where
  /-- Well formed, but no data: a number out of range, a string with half a surrogate pair, an
  object with such a string for a key, or a container inside too many others. -/
  | unreadable
  | null
  | bool (value : Bool)
  | integer (value : Int)
  | float (value : Binary64)
  | string (value : String)
  | array (items : List Json)
  | object (fields : List (String × Json))
  deriving Inhabited

namespace Binary64

/-- The product of two finite numbers. -/
def mul (x y : Binary64) : Binary64 :=
  ofRatio (x.negative != y.negative) (x.units * y.units) (Nat.pow 2 2148)

/-- The quotient of two finite numbers, the divisor not zero. -/
def div (x y : Binary64) : Binary64 :=
  ofRatio (x.negative != y.negative) x.units y.units

/-- The number nearest to a power of ten. -/
def tenTo (n : Nat) : Binary64 := ofRatio false (Nat.pow 10 n) 1

/-- The number `x * 10 ^ exponent`, rounded at the multiplication or division by the power. A
power below the range of the format is divided out in two steps. -/
def scaleTen (x : Binary64) (exponent : Int) : Binary64 :=
  if x.isZero then x
  else if 0 ≤ exponent then
    if exponent ≤ 308 then x.mul (tenTo exponent.natAbs) else infinity x.negative
  else if exponent.natAbs ≤ 308 then x.div (tenTo exponent.natAbs)
  else if exponent.natAbs ≤ 616 then (x.div (tenTo 308)).div (tenTo (exponent.natAbs - 308))
  else ⟨x.negative, 0⟩

end Binary64

namespace Json

/-- The digits taken into a whole number while it stays below `2 ^ 64`: the number reached and
how many digits were left out. -/
def takeDigits (start : Nat) : List Char → Nat × Nat
  | [] => (start, 0)
  | c :: rest =>
    let next := 10 * start + (c.toNat - '0'.toNat)
    if next < Nat.pow 2 64 then takeDigits next rest else (start, rest.length + 1)

/-- A number with a fraction or an exponent, or too long for an integer. -/
def readFloat (negative : Bool) (whole fraction : List Char) (exponent : Int) : Json :=
  let (head, dropped) := takeDigits 0 whole
  let (kept, unread) := takeDigits head fraction
  let scale := exponent + (dropped : Int) - ((fraction.length : Int) - (unread : Int))
  let x := (Binary64.ofRatio negative kept 1).scaleTen scale
  if x.isFinite then .float x else .unreadable

/-- Digits that begin with a zero only if there is no other. -/
def startsPlain : List Char → Bool
  | [] => false
  | ['0'] => true
  | c :: _ => c != '0'

/-- A number token: an optional minus, digits without a needless leading zero, an optional
fraction and an optional exponent. A number beyond the range of binary64 is unreadable. -/
def readNumber? (token : List Char) : Option Json :=
  let (negative, body) := match token with
    | '-' :: rest => (true, rest)
    | cs => (false, cs)
  let whole := body.takeWhile Char.isDigit
  let rest := body.dropWhile Char.isDigit
  if !startsPlain whole then none
  else match rest with
    | [] =>
      let n := digitsValue whole
      if negative then
        if n = 0 ∨ Nat.pow 2 63 < n then some (readFloat true whole [] 0)
        else some (.integer (-(n : Int)))
      else if n < Nat.pow 2 64 then some (.integer n)
      else some (readFloat false whole [] 0)
    | '.' :: more =>
      let fraction := more.takeWhile Char.isDigit
      if fraction.isEmpty then none
      else (Binary64.readExponent? (more.dropWhile Char.isDigit)).map
        (readFloat negative whole fraction)
    | _ => (Binary64.readExponent? rest).map (readFloat negative whole [])

end Json

end FeatureStore
