import FeatureStore.Decimal.Binary64

/-!
# Shortest decimal text

The decimal digits of a finite number: the fewest that read back to it, and of
those the ones nearest to it (`Binary64.shortest`). A decimal reads back exactly
if it lies between the midpoints to the two neighbouring numbers, the midpoints
included when the last bit is zero. For each digit count the only candidates are
the two decimals of that many digits around the value, so they are tried in turn.

A `DecimalLayout` says which of two equally near decimals is taken and how the
digits are written. The three layouts of the library differ in both, in where
positional notation ends and in whether a whole number keeps a fraction.
-/

namespace FeatureStore

/-- The decimal `digits * 10 ^ exponent`. -/
structure Decimal where
  digits : Nat
  exponent : Int
  deriving DecidableEq, Repr, Inhabited

/-- The decimal without up to `fuel` of the zeros at its end. -/
def Decimal.trimZeros : Nat → Nat → Int → Decimal
  | 0, digits, exponent => ⟨digits, exponent⟩
  | fuel + 1, digits, exponent =>
    if digits % 10 = 0 ∧ digits ≠ 0 then trimZeros fuel (digits / 10) (exponent + 1)
    else ⟨digits, exponent⟩

namespace Binary64

/-- The decimal `digits * 10 ^ exponent` in units of `2 ^ (-1075)`, as a quotient. -/
def halfUnits (digits : Nat) (exponent : Int) : Nat × Nat :=
  if exponent < 0 then (digits * Nat.pow 2 1075, Nat.pow 10 exponent.natAbs)
  else (digits * Nat.pow 2 1075 * Nat.pow 10 exponent.natAbs, 1)

/-- The decimal reads back to the positive number of this magnitude. -/
def readsBack (magnitude digits : Nat) (exponent : Int) : Bool :=
  let (num, den) := halfUnits digits exponent
  let low := (unitsOf (magnitude - 1) + unitsOf magnitude) * den
  let high := (unitsOf magnitude + unitsOf (magnitude + 1)) * den
  if magnitude % 2 = 0 then decide (low ≤ num) && decide (num ≤ high)
  else decide (low < num) && decide (num < high)

/-- The exponent of the leading decimal digit of a positive number of units. -/
def leadingExponent (units : Nat) : Int :=
  ((Nat.toDigits 10 (units * Nat.pow 10 400 / Nat.pow 2 1074)).length : Int) - 401

/-- Which of two neighbouring decimals is taken for a value halfway between them. -/
inductive TieRule where
  /-- The greater one. -/
  | up
  /-- The one with an even last digit. -/
  | toEven
  deriving DecidableEq, Repr

/-- The lower neighbour `below` is taken for a value that lies `rest` of `step` above it. -/
def TieRule.takesLower (ties : TieRule) (below rest step : Nat) : Bool :=
  decide (2 * rest < step) ||
    (decide (2 * rest = step) && ties == .toEven && below % 2 == 0)

/-- The candidate on the grid of `10 ^ exponent` that reads back, the nearer one if both do. -/
def onGrid? (ties : TieRule) (magnitude : Nat) (exponent : Int) : Option Decimal :=
  let units := unitsOf magnitude
  let num := if exponent < 0 then units * Nat.pow 10 exponent.natAbs else units
  let den := if exponent < 0 then Nat.pow 2 1074 else Nat.pow 2 1074 * Nat.pow 10 exponent.natAbs
  let below := num / den
  let low := readsBack magnitude below exponent
  let high := readsBack magnitude (below + 1) exponent
  if low && high then
    some ⟨if ties.takesLower below (num % den) den then below else below + 1, exponent⟩
  else if low then some ⟨below, exponent⟩
  else if high then some ⟨below + 1, exponent⟩
  else none

/-- The shortest decimal of the absolute value of a finite number. -/
def shortest (ties : TieRule) (x : Binary64) : Decimal :=
  if x.isZero then ⟨0, 0⟩
  else
    let leading := leadingExponent x.units
    let grids := (List.range 17).map fun n : Nat => leading - (n : Int)
    match grids.findSome? (onGrid? ties x.magnitude) with
    | some d => Decimal.trimZeros 18 d.digits d.exponent
    | none => ⟨0, 0⟩

end Binary64

/-- How a number is written. -/
structure DecimalLayout where
  /-- What is taken for a number halfway between two decimals of the fewest digits. -/
  ties : Binary64.TieRule
  /-- The least exponent of the leading digit that is still written positionally. -/
  leastPositional : Option Int
  /-- The greatest exponent of the leading digit that is still written positionally. -/
  greatestPositional : Option Int
  /-- A whole number written positionally ends in `.0`. -/
  keepsFraction : Bool
  /-- A positive exponent has a plus sign. -/
  signsExponent : Bool

namespace DecimalLayout

/-- Positional at every size, whole numbers without a fraction: the form of numbers in
statements, geometry texts and values. -/
def plain : DecimalLayout := ⟨.up, none, none, false, false⟩

/-- The form of numbers inside a quoted operand. -/
def operand : DecimalLayout := ⟨.up, some (-4), some 15, true, false⟩

/-- The form of numbers in a JSON document. -/
def document : DecimalLayout := ⟨.toEven, some (-5), some 15, true, true⟩

/-- The digits with a point after the first `whole` of them. -/
def splitAt (digits : List Char) (whole : Nat) (keepsFraction : Bool) : List Char :=
  if digits.length ≤ whole then
    digits ++ List.replicate (whole - digits.length) '0' ++
      (if keepsFraction then ['.', '0'] else [])
  else digits.take whole ++ '.' :: digits.drop whole

/-- Positional notation of digits whose leading digit has the exponent `leading`. -/
def positional (digits : List Char) (leading : Int) (keepsFraction : Bool) : List Char :=
  if leading < 0 then '0' :: '.' :: (List.replicate (leading.natAbs - 1) '0' ++ digits)
  else splitAt digits (leading.toNat + 1) keepsFraction

/-- Scientific notation: the first digit, the others behind a point, and the exponent. -/
def scientific (digits : List Char) (leading : Int) (signsExponent : Bool) : List Char :=
  digits.take 1 ++ (if digits.length ≤ 1 then [] else '.' :: digits.drop 1) ++
    'e' :: (if signsExponent && decide (0 < leading) then ['+'] else []) ++
    (toString leading).toList

/-- Whether a leading exponent is written positionally. -/
def isPositional (layout : DecimalLayout) (leading : Int) : Bool :=
  layout.leastPositional.all (fun least => decide (least ≤ leading)) &&
    layout.greatestPositional.all (fun greatest => decide (leading ≤ greatest))

end DecimalLayout

namespace Binary64

/-- The text of a number in a layout. -/
def text (layout : DecimalLayout) (x : Binary64) : String :=
  if x.isNaN then "NaN"
  else
    let sign := if x.negative then ['-'] else []
    if x.isInfinite then String.ofList (sign ++ ['i', 'n', 'f'])
    else
      let d := x.shortest layout.ties
      let digits := Nat.toDigits 10 d.digits
      let leading := d.exponent + (digits.length : Int) - 1
      let body :=
        if x.isZero || layout.isPositional leading then
          DecimalLayout.positional digits leading layout.keepsFraction
        else DecimalLayout.scientific digits leading layout.signsExponent
      String.ofList (sign ++ body)

/-- The text of a number in statements: positional, without a needless fraction. -/
def plainText (x : Binary64) : String := x.text .plain

end Binary64

end FeatureStore
