import FeatureStore.Read.Cell
import Mathlib.Tactic

/-!
# The order of sort cells

A cell that rows may be sorted by is missing, a text, bytes, or a whole number that can be read
(`isSortCell`). On such cells `compareCells` compares what `sortValue` makes of them
(`compareCells_eq_order`): the place of the class, then the number, then the text. That order is
a linear one, so sort cells are ordered totally and transitively, whatever classes they mix.
-/

set_option autoImplicit false

namespace FeatureStore

open Std

/-- What the order of a sort cell depends on: the place of its class, its number and its text. -/
structure SortValue where
  rank : Nat
  number : Int
  text : String
  deriving DecidableEq

namespace SortValue

/-- The order of two sort values: by class, then by number, then by text. -/
def order : SortValue → SortValue → Ordering :=
  compareLex (compareOn SortValue.rank)
    (compareLex (compareOn SortValue.number) (compareOn SortValue.text))

instance : TransCmp order :=
  inferInstanceAs (TransCmp (compareLex (compareOn SortValue.rank)
    (compareLex (compareOn SortValue.number) (compareOn SortValue.text))))

theorem order_eq (a b : SortValue) :
    order a b = (compare a.rank b.rank).then
      ((compare a.number b.number).then (compare a.text b.text)) := rfl

/-- Sort values of the same place are the same. -/
theorem eq_of_order_eq {a b : SortValue} (h : order a b = .eq) : a = b := by
  rw [order_eq, Ordering.then_eq_eq, Ordering.then_eq_eq] at h
  obtain ⟨hr, hn, ht⟩ := h
  rcases a with ⟨r, n, t⟩
  rcases b with ⟨r', n', t'⟩
  simp only [LawfulEqOrd.compare_eq_iff_eq] at hr hn ht
  subst hr hn ht
  rfl

end SortValue

/-- The whole number, text or bytes of a cell can be compared with those of any other. -/
def Cell.isSortable (c : Cell) : Bool :=
  match c.kind with
  | .integer => (readInt64? c.text).isSome
  | .real => false
  | .text => true
  | .blob => true

/-- Rows may be sorted by the cell. -/
def isSortCell : Option Cell → Bool
  | none => true
  | some c => c.isSortable

/-- What the order of a cell depends on; a missing value comes before all others. -/
def sortValue : Option Cell → SortValue
  | none => ⟨0, 0, ""⟩
  | some ⟨.integer, text⟩ => ⟨1, (readInt64? text).getD 0, ""⟩
  | some ⟨.real, text⟩ => ⟨1, 0, text⟩
  | some ⟨.text, text⟩ => ⟨2, 0, text⟩
  | some ⟨.blob, text⟩ => ⟨3, 0, text⟩

/-- Whole numbers that can be read are compared as numbers. -/
theorem compareValues_integer {s t : String} {m n : Int} (hs : readInt64? s = some m)
    (ht : readInt64? t = some n) :
    compareValues ⟨.integer, s⟩ ⟨.integer, t⟩ = compare m n := by
  simp [compareValues, compareNumbers?, CellKind.isNumeric, hs, ht]

/-- Sort cells are compared as their sort values are. -/
theorem compareCells_eq_order {a b : Option Cell} (ha : isSortCell a = true)
    (hb : isSortCell b = true) :
    compareCells a b = SortValue.order (sortValue a) (sortValue b) := by
  -- only two whole numbers are compared by their values; classes or texts decide otherwise
  rcases a with _ | ⟨ka, s⟩ <;> rcases b with _ | ⟨kb, t⟩
  · rfl
  · cases kb <;> rfl
  · cases ka <;> rfl
  · cases ka with
    | real => simp [isSortCell, Cell.isSortable] at ha
    | integer =>
      obtain ⟨m, hm⟩ := Option.isSome_iff_exists.1 ha
      cases kb with
      | real => simp [isSortCell, Cell.isSortable] at hb
      | integer =>
        obtain ⟨n, hn⟩ := Option.isSome_iff_exists.1 hb
        show compareValues ⟨.integer, s⟩ ⟨.integer, t⟩ = _
        rw [compareValues_integer hm hn, SortValue.order_eq]
        simp [sortValue, show readInt64? s = some m from hm,
          show readInt64? t = some n from hn]
      | text => rfl
      | blob => rfl
    | text =>
      cases kb with
      | real => simp [isSortCell, Cell.isSortable] at hb
      | integer => rfl
      | text => rfl
      | blob => rfl
    | blob =>
      cases kb with
      | real => simp [isSortCell, Cell.isSortable] at hb
      | integer => rfl
      | text => rfl
      | blob => rfl

/-- Of two different keys of one class, the texts differ. -/
theorem text_ne_of_compareCells_lt {a b : Cell} (ha : a.isSortable = true)
    (hk : a.kind = b.kind) (h : compareCells (some a) (some b) = .lt) : a.text ≠ b.text := by
  intro ht
  rcases a with ⟨ka, s⟩
  rcases b with ⟨kb, t⟩
  obtain rfl : ka = kb := hk
  obtain rfl : s = t := ht
  rw [compareCells_eq_order (a := some ⟨ka, s⟩) (b := some ⟨ka, s⟩) ha ha,
    @ReflCmp.compare_self _ SortValue.order] at h
  exact Ordering.noConfusion h

end FeatureStore
