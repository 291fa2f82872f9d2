/-!
# Binary64 numbers

A floating point number of the interchange format with eleven exponent and
fifty-two fraction bits, held as its sign and the natural number that its other
sixty-three bits spell. That number grows with the absolute value, so every
comparison is a comparison of naturals, and each finite number is a whole
multiple of the smallest positive one (`Binary64.units`). Rounding
(`Binary64.ofRatio`) is therefore one division of naturals.
-/

namespace FeatureStore

/-- The quotient of two naturals rounded to the nearest natural, a half to the even one. -/
def roundHalfEven (num den : Nat) : Nat :=
  let q := num / den
  let r := num % den
  if 2 * r < den then q
  else if den < 2 * r then q + 1
  else if q % 2 = 0 then q else q + 1

/-- A binary64 number: its sign bit and the natural number spelt by the other bits. -/
structure Binary64 where
  negative : Bool
  magnitude : Nat
  deriving DecidableEq, Repr, Inhabited

namespace Binary64

/-- The weight of the lowest exponent bit. -/
def fractionLimit : Nat := Nat.pow 2 52

/-- The magnitude of the two infinities; anything above it is not a number. -/
def infinityMagnitude : Nat := 2047 * Nat.pow 2 52

/-- The positive zero. -/
def zero : Binary64 := ⟨false, 0⟩

/-- The infinity of a sign. -/
def infinity (negative : Bool) : Binary64 := ⟨negative, infinityMagnitude⟩

/-- The quiet not-a-number of a sign. -/
def nan (negative : Bool) : Binary64 := ⟨negative, infinityMagnitude + Nat.pow 2 51⟩

/-- Neither infinite nor a not-a-number. -/
def isFinite (x : Binary64) : Bool := decide (x.magnitude < infinityMagnitude)

/-- Not a number. -/
def isNaN (x : Binary64) : Bool := decide (infinityMagnitude < x.magnitude)

/-- One of the two infinities. -/
def isInfinite (x : Binary64) : Bool := x.magnitude == infinityMagnitude

/-- One of the two zeros. -/
def isZero (x : Binary64) : Bool := x.magnitude == 0

/-- The opposite number. -/
def neg (x : Binary64) : Binary64 := { x with negative := !x.negative }

/-- The absolute value belonging to a finite magnitude, in units of `2 ^ (-1074)`. -/
def unitsOf (magnitude : Nat) : Nat :=
  let exponent := magnitude / fractionLimit
  let fraction := magnitude % fractionLimit
  if exponent = 0 then fraction else (fractionLimit + fraction) * Nat.pow 2 (exponent - 1)

/-- The absolute value of a finite number, in units of `2 ^ (-1074)`. -/
def units (x : Binary64) : Nat := unitsOf x.magnitude

/-- The number nearest to `num / den`, ties to the even neighbour; what is too large becomes
an infinity. The quotient is counted in units of `2 ^ (-1074)` and shortened to fifty-three
bits; the magnitude of the result is then the kept bits plus the number of dropped ones in the
exponent's place, whether the result is normal, subnormal or carried into the next binade. -/
def ofRatio (negative : Bool) (num den : Nat) : Binary64 :=
  let total := num * Nat.pow 2 1074
  let dropped := Nat.log2 (total / den) - 52
  let kept := roundHalfEven total (den * Nat.pow 2 dropped)
  ⟨negative, min infinityMagnitude (dropped * fractionLimit + kept)⟩

/-- The number nearest to an integer. -/
def ofInt (n : Int) : Binary64 := ofRatio (decide (n < 0)) n.natAbs 1

/-- The product of a finite number and `num / den`, rounded once. -/
def scale (x : Binary64) (num den : Nat) : Binary64 :=
  ofRatio x.negative (x.units * num) (Nat.pow 2 1074 * den)

/-- The place of a number in the order in which `-NaN` comes first, then the numbers by value
with the negative zero before the positive one, and `NaN` last. -/
def totalKey (x : Binary64) : Int :=
  if x.negative then -(x.magnitude : Int) - 1 else x.magnitude

/-- The place of a number among the numbers by value; the two zeros share one. -/
def valueKey (x : Binary64) : Int :=
  if x.negative then -(x.magnitude : Int) else x.magnitude

/-- Equality by value: a not-a-number equals nothing, the two zeros equal each other. -/
def sameValue (x y : Binary64) : Bool :=
  !x.isNaN && !y.isNaN && x.valueKey == y.valueKey

/-- Strict order by value, false when either side is not a number. -/
def less (x y : Binary64) : Bool :=
  !x.isNaN && !y.isNaN && decide (x.valueKey < y.valueKey)

/-- The total order of `totalKey`. -/
def totalCompare (x y : Binary64) : Ordering := compare x.totalKey y.totalKey

end Binary64

end FeatureStore
