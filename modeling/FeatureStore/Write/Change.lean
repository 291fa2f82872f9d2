import FeatureStore.Table.Tree
import FeatureStore.Write.Staging
import FeatureStore.Write.Statement

/-!
# Changes as statements

The statements of a change, in the order in which they have to run. A new feature
is its rows: every row is inserted behind the row of its parent, then linked to
it if the relation asks for that, and then followed by the rows below it. A
changed feature is removed and inserted again under its identifier.
-/

namespace FeatureStore

/-- A staged value as it is written to a column. -/
def StoredValue.ofStaged (srid : Nat) (kind : ColumnKind) : Option String → StoredValue
  | none => .missing
  | some value => if kind = .spatial then .geometry value srid else .text value

/-! ## One row -/

/-- The column that takes the identifier given by the writer. -/
def givenColumns (t : Table) (id : Option String) : List (String × StoredValue) :=
  match id with
  | some id => [(t.idColumn, .id id)]
  | none => []

/-- The column that takes the identifier of the parent row. -/
def parentColumns (t : Table) (parent : Option RowRef) : List (String × StoredValue) :=
  match t.relation?, parent with
  | some relation, some parent =>
    match relation.kind with
    | .oneToOneMerge => [(relation.targetField, .idOf parent)]
    | .oneToMany => [(relation.targetField, .idOf parent)]
    | _ => []
  | _, _ => []

/-- The columns with one more, if it is staged, not the primary key and not there yet. -/
def addStagedColumn (srid : Nat) (t : Table) (staged : StagedRow)
    (columns : List (String × StoredValue)) (column : Column) : List (String × StoredValue) :=
  if column.name = t.primaryKey || columns.any (·.1 == column.name) then columns
  else match staged.get? column.name with
    | some value => columns ++ [(column.name, StoredValue.ofStaged srid column.kind value)]
    | none => columns

/-- The columns that are written when a row is inserted. -/
def insertColumns (srid : Nat) (t : Table) (staged : StagedRow) (parent : Option RowRef)
    (id : Option String) : List (String × StoredValue) :=
  (t.columns.filter Column.isStored).foldl (addStagedColumn srid t staged)
    (givenColumns t id ++ parentColumns t parent)

/-- The statement that inserts a row. -/
def insertStatement (srid : Nat) (t : Table) (row : RowRef) (staged : StagedRow)
    (parent : Option RowRef) (id : Option String) : Statement :=
  .insert t.name row id (insertColumns srid t staged parent id) t.primaryKey

/-- The statement that links a row to that of its parent, if the relation asks for one. -/
def linkStatements (t : Table) (row : RowRef) (parent : Option RowRef) : List Statement :=
  match t.relation?, parent with
  | some relation, some parent =>
    match relation.kind, relation.junction with
    | .manyToMany, some junction =>
      [.link junction.table junction.sourceField junction.targetField parent row]
    | .oneToOneReference, _ =>
      [.pointAt relation.sourceTable relation.sourceField relation.sourcePrimaryKey parent row]
    | _, _ => []
  | _, _ => []

/-- The row of the parent that a staged row belongs to. -/
def parentRef (s : Staging) (t : Table) (row : RowRef) (staged : StagedRow) :
    Except Error (Option RowRef) :=
  match s.arena.parent? row.table, staged.parentRow with
  | some parent, some index => .ok (some ⟨parent, index⟩)
  | some _, none => .error (.missingRow t.path row.row)
  | none, _ => .ok none

/-! ## All rows -/

namespace TableTree

mutual
/-- The statements that insert a row of the table at the top of a tree, and all rows below it. `id`
is the number of the table, and `given` the identifier that the writer gave. -/
def emit (srid : Nat) (s : Staging) (id : Nat) (given : Option String) :
    TableTree → Nat → Except Error (List Statement)
  | .node t children, row => do
    let staged ← s.row id row
    -- the statement may refer to the parent row, which is inserted before
    let parent ← parentRef s t ⟨id, row⟩ staged
    let below ← emitList srid s (id + 1) row children
    return insertStatement srid t ⟨id, row⟩ staged parent given ::
      linkStatements t ⟨id, row⟩ parent ++ below

/-- The statements that insert the rows of some tables under a row of their parent. The first table
has the number `id`. -/
def emitList (srid : Nat) (s : Staging) (id parentRow : Nat) :
    List TableTree → Except Error (List Statement)
  | [] => .ok []
  | tree :: rest => do
    let count ← s.rowCount tree.root.path parentRow
    let rows ← (List.range count).mapM fun n => do
      tree.emit srid s id none (← s.nthRow id parentRow n)
    let others ← emitList srid s (id + tree.size) parentRow rest
    return rows.flatten ++ others
end

/-- The statement that removes a feature. -/
def deleteStatement (tree : TableTree) (id : String) : Statement :=
  .delete tree.root.name tree.root.idColumn id

/-- The statements of a change. -/
def changeStatements (tree : TableTree) (srid : Nat) (kind : ChangeKind) (s : Staging) :
    Except Error (List Statement) :=
  match kind with
  | .create => tree.emit srid s 0 none 0
  | .update id => (tree.emit srid s 0 (some id) 0).map (tree.deleteStatement id :: ·)
  | .delete id => .ok [tree.deleteStatement id]

end TableTree

end FeatureStore
