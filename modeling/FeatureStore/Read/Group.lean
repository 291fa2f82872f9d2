import FeatureStore.Configuration
import FeatureStore.Read.Window
import FeatureStore.Table.Derivation

/-!
# Join groups

The root table and every other table with columns is read by a statement of its
own. The statement joins the table along its relations and gives, for each row,
the sort keys of the tables on the chain from the root and then the columns of
the table. Rows of different groups belong together if they agree in the sort
keys of the tables that their chains share.
-/

namespace FeatureStore

/-- The sort key of one table of a chain, as it is selected. -/
structure ChainKey where
  /-- The path of the table. -/
  path : String
  table : Alias
  column : String
  /-- The key tells rows apart; otherwise the rows are numbered in its order. -/
  isUnique : Bool
  deriving DecidableEq, Inhabited

namespace ChainKey

/-- The label of the sort key at an index of the chain. -/
def label (index : Nat) : String :=
  if index = 0 then rootKeyLabel else rootKeyLabel ++ "_" ++ toString index

/-- The key with its label, as it is selected. -/
def select (key : ChainKey) (index : Nat) : Sql :=
  let column := Sql.column key.table key.column
  let value := if key.isUnique then column else Sql.around "ROW_NUMBER() OVER (ORDER BY " column ")"
  value ++ Sql.ofText (" AS " ++ label index)

end ChainKey

/-- A table that is read by a statement of its own. -/
structure JoinGroup where
  path : String
  /-- The sort keys of the tables on the chain from the root. -/
  keys : List ChainKey
  /-- The alias of the table. -/
  leaf : Alias
  columns : List Column
  joins : List Join
  deriving Inhabited

namespace JoinGroup

/-- The sort key of a table with an alias. -/
def chainKey (t : Table) (name : Alias) : ChainKey := ⟨t.path, name, t.sortKey, t.sortKeyUnique⟩

/-- The group of the last table of a chain. -/
def ofChain (s : Storage) (restriction : Option Sql) (chain : List Table) (table : Table) :
    Except Error JoinGroup := do
  let names := aliasChain 0 table.relations
  let own := tableAliases table.relations names
  let keys := (chain.zip own).map fun (t, name) => chainKey t name
  let joins ← s.joins ⟨true, restriction⟩ table.relations names
  return ⟨table.path, keys, own.getLast?.getD outerRoot, table.columns, joins⟩

/-- A column as it is selected. -/
def selectColumn (s : Storage) (table : Alias) (column : Column) : Sql :=
  let stored := Sql.column table column.name
  match column.kind with
  | .constant text => [.quoted text, .text (" AS " ++ column.name)]
  | .spatial => s.dialect.geometryText stored
  | .temporal => s.dialect.timeText stored
  | .date => s.dialect.dateText stored
  | .value => stored
  | .identifier => stored

end JoinGroup

/-- The table has a statement of its own. -/
def Table.isRead (t : Table) : Bool := t.isRoot || !t.columns.isEmpty

/-- What is prepared for all reads of one feature type. -/
structure ReadPlan where
  featureType : String
  storage : Storage
  countsMatched : Bool
  /-- The groups in pre-order of their tables. -/
  groups : List JoinGroup
  deriving Inhabited

namespace ReadPlan

/-- The groups of a tree. The conditions on the rows of tables cannot be blind to accents: they are
fixed before any collation is. -/
def groupsOf (s : Storage) : Except Error (List JoinGroup) := do
  let plain : Storage := { s with collation := none }
  let root ← s.root.filter.mapM (plain.rowCondition (.named "A"))
  let restriction := root.map plain.rowConditionSql
  let groups ← s.tree.chains.mapM fun chain => do
    match chain.getLast? with
    | some table =>
      if table.isRead then return some (← JoinGroup.ofChain plain restriction chain table)
      else return none
    | none => return none
  return groups.filterMap id

/-- The plan of a feature type that is kept in a storage. -/
def ofStorage (featureType : String) (s : Storage) (countsMatched : Bool) :
    Except Error ReadPlan := do
  return ⟨featureType, s, countsMatched, ← groupsOf s⟩

/-- The plan of a feature type under a configuration. -/
def ofMapping (c : Configuration) (mapping : FeatureMapping) : Except Error ReadPlan := do
  let tree ← TableTree.ofMapping mapping
  ofStorage mapping.name (c.storage tree) c.countsMatched

end ReadPlan

end FeatureStore
