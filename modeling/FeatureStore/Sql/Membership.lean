import FeatureStore.Sql.Join

/-!
# Conditions on features

A predicate on columns of the root table is a test of the select around it. A
predicate on another table becomes a membership: the sort key of the root row is
among those of a sub-select that joins the table and tests its rows. The
sub-select stands one level inside the select around it. A predicate reads at
most one table besides the root (`Storage.joinedTable`).
-/

namespace FeatureStore

/-- Which rows the sub-select of a membership keeps. -/
inductive Selection where
  /-- Those that pass a test. -/
  | rows (test : Test)
  /-- Those with one of some values, grouped by feature; if `complete`, only the features that have
  every one of the values. -/
  | elements (column : Scalar) (values : List Value) (complete : Bool)
  deriving Inhabited

/-- The root row is one of those that a sub-select finds. -/
structure Membership where
  /-- The root table of the sub-select. -/
  table : String
  /-- The sort key of the root table, which both selects compare. -/
  sortKey : String
  joins : List Join
  selection : Selection
  isNegated : Bool
  deriving Inhabited

/-- An atom of a condition on features. -/
inductive FeatureAtom where
  | test (t : Test)
  | member (m : Membership)
  deriving Inhabited

/-- A condition on features. -/
abbrev FeatureCondition := Condition FeatureAtom

/-- The root table of the select that a condition belongs to. -/
def outerRoot : Alias := .slot 0 0

/-- The root table of a sub-select in a condition. -/
def innerRoot : Alias := .slot 1 0

namespace Selection

/-- The text of a selection behind the keyword of the condition. -/
def sql (s : Storage) (sortKey : String) : Selection → Sql
  | .rows test => s.testSql test
  | .elements column values complete =>
    let value := column.sql s.dialect s.srid
    let group := .text " GROUP BY " :: Sql.column innerRoot sortKey
    let count :=
      if complete then
        Sql.around " HAVING count(distinct " value (") = " ++ toString values.length)
      else []
    value ++ .text " IN " :: Value.listSql values ++ group ++ count

end Selection

namespace Membership

/-- The sub-select. -/
def selectSql (s : Storage) (m : Membership) : Sql :=
  let joins := if m.joins.isEmpty then [] else Join.listSql s m.joins ++ Sql.ofText " "
  .text "SELECT " :: Sql.column innerRoot m.sortKey ++ .text (" FROM " ++ m.table ++ " ") ::
    .alias innerRoot :: .text " " :: joins ++ .text "WHERE " :: m.selection.sql s m.sortKey

/-- The text of a membership. -/
def sql (s : Storage) (m : Membership) : Sql :=
  Sql.column outerRoot m.sortKey ++ .text (if m.isNegated then " NOT IN " else " IN ") ::
    Sql.parenthesized (m.selectSql s)

end Membership

namespace FeatureAtom

/-- The text of an atom. -/
def sql (s : Storage) : FeatureAtom → Sql
  | .test t => s.testSql t
  | .member m => m.sql s

end FeatureAtom

/-- The negation of a condition. A membership is negated in its operator. -/
def FeatureCondition.negated : FeatureCondition → FeatureCondition
  | .atom (.member m) => .atom (.member { m with isNegated := !m.isNegated })
  | condition => .negation condition

namespace Storage

/-- The one table besides the root that some properties are read from, if there is one. `found` is
the table found so far. -/
def joinedTableFrom (s : Storage) (found : Option Table) :
    List String → Except Error (Option Table)
  | [] => .ok found
  | property :: rest => do
    let (table, _) ← s.resolve property
    if table.isRoot then s.joinedTableFrom found rest
    else match found with
      | some previous =>
        if previous.path = table.path then s.joinedTableFrom (some table) rest
        else throw (.mapping property (.combinedTables previous.name table.name))
      | none => s.joinedTableFrom (some table) rest

/-- The one table besides the root that some properties are read from, if there is one. -/
def joinedTable (s : Storage) (properties : List String) : Except Error (Option Table) :=
  s.joinedTableFrom none properties

/-- The membership of the root row among those of a sub-select that reads a table. -/
def membership (s : Storage) (table : Table) (select : Scope → Except Error Selection) :
    Except Error FeatureCondition := do
  let names := aliasChain 1 table.relations
  let joins ← s.joins JoinOptions.keysOnly table.relations names
  let leaf := ((tableAliases table.relations names).getLast?).getD innerRoot
  let selection ← select (.feature [(s.root.path, innerRoot), (table.path, leaf)])
  return .atom (.member ⟨s.root.name, s.root.sortKey, joins, selection, false⟩)

/-- The condition that a predicate on features stands for. -/
def featurePredicate (s : Storage) (negated : Bool) (predicate : Predicate) :
    Except Error FeatureCondition := do
  match ← s.joinedTable predicate.properties with
  | none =>
    return .atom (.test (← s.test (.feature [(s.root.path, outerRoot)]) negated predicate))
  | some table =>
    s.membership table fun scope => (s.test scope negated predicate).map .rows

/-- The condition that a relation between arrays stands for. Two literals are compared at once; a
property may only contain or overlap an array. -/
def featureArray (s : Storage) (relation : ArrayRelation) (left right : Operand) :
    Except Error FeatureCondition :=
  match left.members?, right.members? with
  | some first, some second => .ok (.constant (relation.holds first second))
  | _, _ => do
    let (value, values, relation) ← relation.readAgainst left right
    let name := value.subject
    if relation != .overlaps && relation != .contains then
      throw (.mapping name (.unsupportedArrayOperator relation.shown))
    let table := (← s.joinedTable [name]).getD s.root
    s.membership table fun scope =>
      (s.scalar scope value).map (.elements · values (relation == .contains))

/-- The condition that a filter on features stands for. -/
def featureCondition (s : Storage) (filter : Filter) : Except Error FeatureCondition :=
  filter.lower s.featurePredicate s.featureArray FeatureCondition.negated

/-- The text of a condition on features. -/
def featureConditionSql (s : Storage) (condition : FeatureCondition) : Sql :=
  condition.sql (FeatureAtom.sql s)

/-- The text of a filter on features in a statement at a level. -/
def filterText (s : Storage) (filter : Filter) (level : Nat) : Except Error String :=
  (s.featureCondition filter).map fun condition => (s.featureConditionSql condition).render level

/-- The text of a filter on the rows of one table. -/
def rowFilterText (s : Storage) (filter : Filter) (table : String) : Except Error String :=
  (s.rowCondition (.named table) filter).map fun condition =>
    (s.rowConditionSql condition).render 0

end Storage

/-! ## The condition of a whole select -/

/-- What the rows of the root table have to fulfil. -/
structure Restriction where
  /-- The condition that belongs to the table. -/
  row : Option RowCondition
  /-- The condition of the reader. -/
  feature : Option FeatureCondition
  deriving Inhabited

namespace Restriction

/-- The text of a restriction, if it restricts at all. -/
def sql? (s : Storage) (r : Restriction) : Option Sql :=
  match r.row.map s.rowConditionSql, r.feature.map s.featureConditionSql with
  | some row, some feature => some (row ++ .text " AND " :: feature)
  | some row, none => some row
  | none, feature => feature

end Restriction

namespace Storage

/-- The restriction on root rows: the row filter of the root table and a filter of the reader. -/
def restriction (s : Storage) (filter : Option Filter) : Except Error Restriction := do
  let row ← s.root.filter.mapM (s.rowCondition outerRoot)
  let feature ← filter.mapM s.featureCondition
  return ⟨row, feature⟩

/-- The text of the restriction in a statement at a level. -/
def restrictionText (s : Storage) (filter : Option Filter) (level : Nat) :
    Except Error (Option String) :=
  (s.restriction filter).map fun r => (r.sql? s).map (Sql.render level)

end Storage

end FeatureStore
