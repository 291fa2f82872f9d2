import FeatureStore.Path.Segments
import FeatureStore.Table.Relation

/-!
# Trees of tables

The tables of one feature type, each with its columns and keys and the relations
on the way from the root. Tables are listed in pre-order, a table before its
children and children in order (`TableTree.tables`).
-/

namespace FeatureStore

/-- What a column holds, and so how it is selected and written. -/
inductive ColumnKind where
  | value
  /-- The identifier of the feature. -/
  | identifier
  | spatial
  | temporal
  | date
  /-- A fixed text that is selected but never stored. -/
  | constant (text : String)
  deriving DecidableEq, Repr, Inhabited

/-- A column of a table and the property that it belongs to. -/
structure Column where
  name : String
  property : String
  kind : ColumnKind
  deriving DecidableEq, Repr, Inhabited

/-- The column is written when a row is inserted. -/
def Column.isStored (c : Column) : Bool :=
  match c.kind with
  | .constant _ => false
  | _ => true

/-- One table of a tree. -/
structure Table where
  name : String
  /-- The path of the table from the root, such as `parcel/[id=parcel_id]address`. -/
  path : String
  /-- The relations on the way from the root; none for the root itself. -/
  relations : List Relation
  columns : List Column
  sortKey : String
  sortKeyUnique : Bool
  primaryKey : String
  /-- A condition on the rows of the table. -/
  filter : Option Filter
  deriving Inhabited

namespace Table

/-- The relation to the parent. -/
def relation? (t : Table) : Option Relation := t.relations.getLast?

/-- The kind of the relation to the parent. -/
def kind (t : Table) : RelationKind := (t.relation?.map Relation.kind).getD .none

/-- The table has no parent. -/
def isRoot (t : Table) : Bool := t.relations.isEmpty

/-- The column of a name. -/
def column? (t : Table) (name : String) : Option Column := t.columns.find? (·.name == name)

/-- The first column that holds the identifier of the feature. -/
def identifier? (t : Table) : Option Column := t.columns.find? (·.kind == .identifier)

/-- The name of the column that identifies a feature: the identifier column, or else the primary
key. -/
def idColumn (t : Table) : String := (t.identifier?.map Column.name).getD t.primaryKey

end Table

/-- A table and the trees below it. -/
inductive TableTree where
  | node (table : Table) (children : List TableTree)
  deriving Inhabited

namespace TableTree

/-- The table at the top. -/
def root : TableTree → Table
  | .node table _ => table

/-- The trees below the table at the top. -/
def children : TableTree → List TableTree
  | .node _ children => children

mutual
/-- All tables in pre-order. -/
def tables : TableTree → List Table
  | .node table children => table :: tablesOfList children

/-- All tables of a list of trees. -/
def tablesOfList : List TableTree → List Table
  | [] => []
  | tree :: rest => tree.tables ++ tablesOfList rest
end

mutual
/-- The number of tables. -/
def size : TableTree → Nat
  | .node _ children => sizeOfList children + 1

/-- The number of tables of a list of trees. -/
def sizeOfList : List TableTree → Nat
  | [] => 0
  | tree :: rest => tree.size + sizeOfList rest
end

mutual
/-- For every table in pre-order the chain of tables from the top down to it. `above` is the chain
that leads to the top. -/
def chainsFrom (above : List Table) : TableTree → List (List Table)
  | .node table children => (above ++ [table]) :: chainsOfList (above ++ [table]) children

/-- The chains of a list of trees. -/
def chainsOfList (above : List Table) : List TableTree → List (List Table)
  | [] => []
  | tree :: rest => tree.chainsFrom above ++ chainsOfList above rest
end

/-- For every table in pre-order the chain of tables from the root down to it. -/
def chains (t : TableTree) : List (List Table) := t.chainsFrom []

/-- The table with a path; slashes in front of the path do not count. -/
def find? (t : TableTree) (path : String) : Option Table :=
  t.tables.find? (·.path == withoutSlashes path)

/-- The first table that has a column for a property, and that column. -/
def property? (t : TableTree) (property : String) : Option (Table × Column) :=
  t.tables.findSome? fun table =>
    (table.columns.find? (·.property == property)).map fun column => (table, column)

/-- The root is the only table without a parent. -/
def isWellFormed (t : TableTree) : Bool :=
  (t.tables.filter (·.kind == .none)).length == 1 && t.root.isRoot &&
    (t.tables.drop 1).all (!·.isRoot)

end TableTree

end FeatureStore
