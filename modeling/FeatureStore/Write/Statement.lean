import FeatureStore.Error
import FeatureStore.Sql.Dialect

/-!
# Statements of a write

A write is a list of statements as data. A statement may need identifiers that
the database gives to rows inserted before; they are put in when the statement is
run, from the identifiers captured so far (`Statement.sql`). An identifier of
digits alone is written as a number and any other as a text.
-/

namespace FeatureStore

/-- An identifier as a literal. -/
def idLiteral (id : String) : Piece :=
  if !id.toList.isEmpty && id.toList.all Char.isDigit then .text id else .quoted id

/-- A staged row: the number of its table and its index. -/
structure RowRef where
  table : Nat
  row : Nat
  deriving DecidableEq, Repr, Inhabited

/-- The identifiers that the database gave to rows. -/
structure CapturedIds where
  entries : List (RowRef × String)
  deriving DecidableEq, Repr, Inhabited

namespace CapturedIds

/-- No identifiers. -/
def empty : CapturedIds := ⟨[]⟩

/-- The identifier of a row. -/
def get? (ids : CapturedIds) (row : RowRef) : Option String := ids.entries.lookup row

/-- The identifier of a row, which has to be known. -/
def get (ids : CapturedIds) (row : RowRef) : Except Error String :=
  match ids.get? row with
  | some id => .ok id
  | none => .error (.internal (.idNotCaptured row.table row.row))

/-- One more identifier; a row keeps its latest one. -/
def insert (ids : CapturedIds) (row : RowRef) (id : String) : CapturedIds :=
  ⟨(row, id) :: ids.entries.filter fun entry => entry.1 != row⟩

/-- The number of rows with an identifier. -/
def size (ids : CapturedIds) : Nat := ids.entries.length

end CapturedIds

/-- A value that is written. -/
inductive StoredValue where
  | missing
  | text (value : String)
  /-- A geometry from well-known text, in a reference system. -/
  | geometry (value : String) (srid : Nat)
  /-- An identifier known beforehand. -/
  | id (value : String)
  /-- The identifier that the database gives to a row. -/
  | idOf (row : RowRef)
  deriving DecidableEq, Repr, Inhabited

/-- One statement of a write. -/
inductive Statement where
  /-- The row with an identifier is removed. -/
  | delete (table column id : String)
  /-- A row is inserted; `id` is its identifier if the writer gave one, and `key` the column whose
  value the database gives back. -/
  | insert (table : String) (row : RowRef) (id : Option String)
      (columns : List (String × StoredValue)) (key : String)
  /-- A row of a junction links two rows. -/
  | link (table parentField childField : String) (parent child : RowRef)
  /-- The row of the parent is pointed at that of the child. -/
  | pointAt (table field key : String) (parent child : RowRef)
  deriving DecidableEq, Repr, Inhabited

namespace StoredValue

/-- The literal of a value. -/
def sql (ids : CapturedIds) : StoredValue → Except Error Sql
  | .missing => .ok [.text "NULL"]
  | .text value => .ok [.quoted value]
  | .geometry value srid => .ok (Dialect.geometryLiteral (.quoted value) srid)
  | .id value => .ok [idLiteral value]
  | .idOf row => (ids.get row).map fun id => [idLiteral id]

end StoredValue

namespace Statement

/-- What a statement does. -/
def kindName : Statement → String
  | .delete _ _ _ => "DELETE"
  | .insert _ _ _ _ _ => "INSERT"
  | .link _ _ _ _ _ => "JUNCTION INSERT"
  | .pointAt _ _ _ _ _ => "FOREIGN KEY UPDATE"

/-- The table that a statement changes. -/
def table : Statement → String
  | .delete table _ _ => table
  | .insert table _ _ _ _ => table
  | .link table _ _ _ _ => table
  | .pointAt table _ _ _ _ => table

/-- The row whose identifier the statement gives back. -/
def capture? : Statement → Option RowRef
  | .insert _ row _ _ _ => some row
  | _ => none

/-- The identifier that the writer gave. -/
def id? : Statement → Option String
  | .delete _ _ id => some id
  | .insert _ _ id _ _ => id
  | _ => none

/-- The statement removes a row. -/
def isDelete : Statement → Bool
  | .delete _ _ _ => true
  | _ => false

/-- The text of a statement, with the identifiers captured so far. -/
def sql (ids : CapturedIds) : Statement → Except Error Sql
  | .delete table column id =>
    .ok [.text ("DELETE FROM " ++ table ++ " WHERE " ++ column ++ "="), idLiteral id,
      .text (" RETURNING " ++ column)]
  | .insert table _ _ columns key =>
    if columns.isEmpty then
      .ok (Sql.ofText ("INSERT INTO " ++ table ++ " DEFAULT VALUES RETURNING " ++ key))
    else do
      let values ← columns.mapM fun (_, value) => value.sql ids
      let names := ",".intercalate (columns.map Prod.fst)
      return .text ("INSERT INTO " ++ table ++ " (" ++ names ++ ") VALUES ") ::
        Sql.parenthesized (Sql.separated "," values) ++ Sql.ofText (" RETURNING " ++ key)
  | .link table parentField childField parent child => do
    let first ← ids.get parent
    let second ← ids.get child
    return [.text ("INSERT INTO " ++ table ++ " (" ++ parentField ++ "," ++ childField ++
      ") VALUES ("), idLiteral first, .text ",", idLiteral second, .text ")"]
  | .pointAt table field key parent child => do
    let target ← ids.get child
    let source ← ids.get parent
    return [.text ("UPDATE " ++ table ++ " SET " ++ field ++ "="), idLiteral target,
      .text (" WHERE " ++ key ++ "="), idLiteral source]

/-- The text of a statement, rendered. -/
def text (ids : CapturedIds) (statement : Statement) : Except Error String :=
  (statement.sql ids).map (Sql.render 0)

end Statement

end FeatureStore
