import FeatureStore.Text.Split

/-!
# Ruled grids

A grid of texts drawn with rules around its cells. A column is as wide as its
longest line, counted in characters, with a space on both sides; texts stand at
the left of their cells. A text with line breaks takes several lines of its row.
A double rule stands below the header (`Grid.text`).
-/

namespace FeatureStore

/-- A header and rows of as many cells. -/
structure Grid where
  header : List String
  rows : List (List String)
  deriving DecidableEq, Repr, Inhabited

namespace Grid

/-- The lines of a cell. -/
def cellLines (cell : String) : List String := (splitAll '\n' cell.toList).map String.ofList

/-- The length of the longest line of a cell. -/
def cellWidth (cell : String) : Nat := ((cellLines cell).map String.length).foldl max 0

/-- The greater width of each column. -/
def wider (a b : List Nat) : List Nat :=
  List.zipWithAll (fun x y => max (x.getD 0) (y.getD 0)) a b

/-- The width of each column, without the spaces beside the text. -/
def widths (g : Grid) : List Nat :=
  ((g.header :: g.rows).map (·.map cellWidth)).foldl wider []

/-- A line of one character, crossed between two columns. -/
def rule (edge cross : String) (fill : Char) (widths : List Nat) : String :=
  edge ++ cross.intercalate (widths.map fun w => "".pushn fill (w + 2)) ++ edge

/-- One line of a cell, filled up with spaces. -/
def paddedLine (line : String) (width : Nat) : String :=
  " " ++ line.pushn ' ' (width - line.length) ++ " "

/-- The line of an index of a row; a cell with fewer lines is blank there. -/
def rowLine (widths : List Nat) (cells : List (List String)) (index : Nat) : String :=
  let parts := (cells.zip widths).map fun (lines, w) => paddedLine (lines.getD index "") w
  "|" ++ "|".intercalate parts ++ "|"

/-- The lines of a row. -/
def rowLines (widths : List Nat) (row : List String) : List String :=
  let cells := row.map cellLines
  (List.range ((cells.map List.length).foldl max 0)).map (rowLine widths cells)

/-- The rows with a rule between each two. -/
def ruledRows (widths : List Nat) : List (List String) → List String
  | [] => []
  | [row] => rowLines widths row
  | row :: rest => rowLines widths row ++ rule "|" "+" '-' widths :: ruledRows widths rest

/-- All lines of a grid. -/
def lines (g : Grid) : List String :=
  let border := rule "+" "+" '-' g.widths
  border :: rowLines g.widths g.header ++ rule "+" "=" '=' g.widths ::
    ruledRows g.widths g.rows ++ [border]

/-- The text of a grid, without a line break at its end. -/
def text (g : Grid) : String := "\n".intercalate g.lines

end Grid

end FeatureStore
