import FeatureStore.Decimal.Reading

/-!
# Cells and rows

A row is delivered as the texts of its values, each with the class that the
database stores it in. Cells are ordered as the database orders them: no value
first, then numbers by their size, then texts, then bytes (`compareCells`).
-/

namespace FeatureStore

/-- The class that a value is stored in. -/
inductive CellKind where
  | integer
  | real
  | text
  /-- Bytes, written as hexadecimal digits. -/
  | blob
  deriving DecidableEq, Repr, Inhabited

namespace CellKind

/-- The values of the class are numbers. -/
def isNumeric : CellKind → Bool
  | .integer => true
  | .real => true
  | _ => false

/-- The place of the class among the others; numbers share one. -/
def rank : CellKind → Nat
  | .integer => 0
  | .real => 0
  | .text => 1
  | .blob => 2

end CellKind

/-- A value of a row. -/
structure Cell where
  kind : CellKind
  text : String
  deriving DecidableEq, Repr, Inhabited

/-- The values of a row, some of which may be missing. -/
abbrev Row := List (Option Cell)

/-- The text of the value at an index; none if the value is missing or the row is shorter. -/
def Row.text? (row : Row) (index : Nat) : Option String := (row[index]?.join).map Cell.text

/-- The order of two numbers, if both texts can be read as numbers of their class. -/
def compareNumbers? (a b : Cell) : Option Ordering :=
  if a.kind = .integer ∧ b.kind = .integer then do
    return compare (← readInt64? a.text) (← readInt64? b.text)
  else do
    return (← Binary64.read? a.text).totalCompare (← Binary64.read? b.text)

/-- The order of two values. Numbers that cannot be read are ordered as texts. -/
def compareValues (a b : Cell) : Ordering :=
  if a.kind.isNumeric && b.kind.isNumeric then
    (compareNumbers? a b).getD (compare a.text b.text)
  else (compare a.kind.rank b.kind.rank).then (compare a.text b.text)

/-- The order of two cells. -/
def compareCells : Option Cell → Option Cell → Ordering
  | none, none => .eq
  | none, some _ => .lt
  | some _, none => .gt
  | some a, some b => compareValues a b

end FeatureStore
