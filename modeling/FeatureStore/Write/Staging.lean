import FeatureStore.Change
import FeatureStore.Error
import FeatureStore.Table.Arena

/-!
# Staged rows

The values of one feature are collected row by row before anything is written.
Every table has a list of rows, and every row below the root knows the row of the
parent table that it belongs to. The current row of a table is its last row, as
long as that belongs to the current row of the parent. New rows and values go to
current rows; a value opens the row it needs, but only if the parent has one.
-/

namespace FeatureStore

/-- A row that is to be written. -/
structure StagedRow where
  /-- The index of the row of the parent table that the row belongs to. -/
  parentRow : Option Nat
  /-- The values by column, in the order in which the columns were first set. -/
  values : List (String × Option String)
  deriving DecidableEq, Repr, Inhabited

/-- The values with that of one column set. -/
def setColumn (column : String) (value : Option String) :
    List (String × Option String) → List (String × Option String)
  | [] => [(column, value)]
  | (name, old) :: rest =>
    if name = column then (name, value) :: rest else (name, old) :: setColumn column value rest

namespace StagedRow

/-- A row without values. -/
def empty (parentRow : Option Nat) : StagedRow := ⟨parentRow, []⟩

/-- The value of a column, if it is set; a column may be set to no value. -/
def get? (row : StagedRow) (column : String) : Option (Option String) := row.values.lookup column

/-- The row with the value of a column set. -/
def set (row : StagedRow) (column : String) (value : Option String) : StagedRow :=
  { row with values := setColumn column value row.values }

end StagedRow

/-- The rows of all tables, by number of the table. -/
structure Staging where
  arena : Arena
  rows : List (List StagedRow)
  deriving Inhabited

namespace Staging

/-- A feature without values: one row of the root table. -/
def start (tree : TableTree) : Staging :=
  let arena := Arena.ofTree tree
  ⟨arena, (List.range arena.size).map fun table => if table = 0 then [StagedRow.empty none] else []⟩

/-- The rows of a table. -/
def rowsOf (s : Staging) (table : Nat) : List StagedRow := (s.rows[table]?).getD []

/-- The last row of each table of a chain, if it belongs to that of the table before. Gives the
last one. -/
def currentAlong (s : Staging) (parentRow : Option Nat) : List Nat → Option Nat
  | [] => parentRow
  | table :: rest =>
    match (s.rowsOf table).getLast? with
    | some row =>
      if row.parentRow = parentRow then
        s.currentAlong (some ((s.rowsOf table).length - 1)) rest
      else none
    | none => none

/-- The current row of a table. -/
def currentRow? (s : Staging) (table : Nat) : Option Nat :=
  s.currentAlong none (s.arena.chain table)

/-- The number of the table with a path. -/
def tableOf (s : Staging) (path : String) : Except Error Nat :=
  match s.arena.idOf? path with
  | some table => .ok table
  | none => .error (.unregisteredPath path)

/-- The rows of one table changed. -/
def updateTable (s : Staging) (table : Nat) (change : List StagedRow → List StagedRow) : Staging :=
  { s with rows := s.rows.modify table change }

/-- A new row of the table with a path, under the current row of its parent. Gives the index of
the row. -/
def addRow (s : Staging) (path : String) : Except Error (Nat × Staging) := do
  let table ← s.tableOf path
  let parentRow ← match s.arena.parent? table with
    | none => .ok none
    | some parent =>
      -- a row without a parent row to belong to cannot be opened
      match s.currentRow? parent with
      | some row => .ok (some row)
      | none => .error (.unregisteredPath path)
  return ((s.rowsOf table).length, s.updateTable table (· ++ [StagedRow.empty parentRow]))

/-- The deeper of two tables; of equally deep ones the later. -/
def deeper (a : Arena) (best : Option Nat) (table : Nat) : Option Nat :=
  let depth (id : Nat) : Nat := ((a.get? id).map ArenaNode.depth).getD 0
  match best with
  | some other => if depth table < depth other then best else some table
  | none => some table

/-- The deepest table whose path begins a path. -/
def resolve? (s : Staging) (path : String) : Option Nat :=
  let candidates := (List.range s.arena.size).filter fun id => isPathPrefix (s.arena.path id) path
  candidates.foldl (deeper s.arena) none

/-- A value of a column, or its absence, on the current row of the table that a path leads to. -/
def addValue (s : Staging) (path column : String) (value : Option String) :
    Except Error Staging := do
  match s.resolve? path with
  | none => throw (.unregisteredPath path)
  | some table =>
    let (row, opened) ← match s.currentRow? table with
      | some row => pure (row, s)
      | none => s.addRow (s.arena.path table)
    return opened.updateTable table fun rows => rows.modify row (·.set column value)

/-- One operation. -/
def applyOp (s : Staging) : ValueOp → Except Error Staging
  | .row path => (s.addRow path).map Prod.snd
  | .value path column value => s.addValue path column (some value)
  | .null path column => s.addValue path column none

/-- The operations of a list up to the first that fails, and its failure. -/
def applyUntilError (s : Staging) : List ValueOp → Staging × Option Error
  | [] => (s, none)
  | op :: rest =>
    match s.applyOp op with
    | .ok next => next.applyUntilError rest
    | .error e => (s, some e)

/-- All operations of a list. -/
def apply (s : Staging) (ops : List ValueOp) : Except Error Staging := ops.foldlM applyOp s

/-! ## Looking at staged rows -/

/-- The parent row that rows of a table are asked for by; the root table has no parent. -/
def parentKey (s : Staging) (table parentRow : Nat) : Option Nat :=
  (s.arena.parent? table).map fun _ => parentRow

/-- The indexes of the rows of a table that belong to a row of the parent. -/
def rowsUnder (s : Staging) (table : Nat) (parentRow : Option Nat) : List Nat :=
  ((s.rowsOf table).zipIdx.filter fun (row, _) => row.parentRow == parentRow).map Prod.snd

/-- The number of rows of the table with a path that belong to a row of the parent. -/
def rowCount (s : Staging) (path : String) (parentRow : Nat) : Except Error Nat :=
  (s.tableOf path).map fun table => (s.rowsUnder table (s.parentKey table parentRow)).length

/-- The index of a row of a table, counted among those that belong to a row of the parent. -/
def nthRow (s : Staging) (table parentRow n : Nat) : Except Error Nat :=
  match (s.rowsUnder table (s.parentKey table parentRow))[n]? with
  | some row => .ok row
  | none => .error (.missingRow (s.arena.path table) n)

/-- A row of a table. -/
def row (s : Staging) (table index : Nat) : Except Error StagedRow :=
  match (s.rowsOf table)[index]? with
  | some row => .ok row
  | none => .error (.missingRow (s.arena.path table) index)

/-- The values of a column on all rows of the table with a path that set it. -/
def relatedValues (s : Staging) (path column : String) : Except Error (List (Option String)) :=
  (s.tableOf path).map fun table => (s.rowsOf table).filterMap (·.get? column)

end Staging

end FeatureStore
