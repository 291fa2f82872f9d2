import FeatureStore.Error
import FeatureStore.Query
import FeatureStore.Sql.Dialect
import FeatureStore.Table.Tree

/-!
# Storage

Where the features of one type are kept: their tree of tables, the dialect of
the database, the reference system of its geometries and the collation that is
blind to accents. A property name leads to a table and one of its columns
(`Storage.resolve`).
-/

namespace FeatureStore

/-- The reference system of geometries unless a configuration names another. -/
def defaultSrid : Nat := 4326

/-- Where the features of one type are kept. -/
structure Storage where
  tree : TableTree
  dialect : Dialect
  srid : Nat
  collation : Option String
  deriving Inhabited

namespace Storage

/-- The storage of a tree in the default reference system and without a collation. -/
def plain (tree : TableTree) (dialect : Dialect) : Storage := ⟨tree, dialect, defaultSrid, none⟩

/-- The root table. -/
def root (s : Storage) : Table := s.tree.root

/-- The table and the column that a property is read from. The identifier is offered under its own
name, and the columns of the root table under theirs, unless a mapped property has the name. -/
def resolve (s : Storage) (property : String) : Except Error (Table × String) :=
  match s.tree.property? property with
  | some (table, column) => .ok (table, column.name)
  | none =>
    if property = idProperty then .ok (s.root, s.root.idColumn)
    else match s.root.column? property with
      | some column => .ok (s.root, column.name)
      | none => .error (.mapping property .unknownProperty)

/-- The column of the root table that a sort key names. -/
def sortColumn (s : Storage) (property : String) : Except Error String := do
  let (table, column) ← s.resolve property
  if table.isRoot then return column else throw (.mapping property .sortKeyBelowRoot)

end Storage

end FeatureStore
