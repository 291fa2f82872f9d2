import FeatureStore.Sql.Lowering

/-!
# Joins

The joins along the relations from the root table to another one. A junction is
joined first and the table behind it next. A join may carry the condition on the
rows of its table; if that asks for the position of a row, the table is replaced
by a sub-select that numbers the rows of each parent.
-/

namespace FeatureStore

/-- One side of a join: a table, its alias and the column compared. -/
structure JoinSide where
  table : String
  name : Alias
  field : String
  deriving DecidableEq, Inhabited

/-- The join of one table. -/
structure Join where
  kind : JoinKind
  source : JoinSide
  target : JoinSide
  /-- A condition on the rows joined. -/
  filter : Option RowCondition
  /-- The rows of the target are numbered within each row of the source. -/
  isNumbered : Bool
  /-- The rows of the source whose partners are numbered; all of them unless it is given. -/
  restriction : Option Sql
  deriving Inhabited

/-- The text of a kind of join in front of its keyword. -/
def JoinKind.keyword : JoinKind → String
  | .inner => ""
  | .left => "LEFT "

namespace Join

/-- A join on the equality of two columns. -/
def onKeys (kind : JoinKind) (source target : JoinSide) : Join :=
  ⟨kind, source, target, none, false, none⟩

/-- The table joined, or the sub-select that numbers its rows. -/
def targetSql (j : Join) : Sql :=
  if j.isNumbered then
    let restriction := match j.restriction with
      | some condition => Sql.around " WHERE " condition " ORDER BY 1"
      | none => []
    let columns := "A." ++ j.source.field ++ " AS A" ++ j.source.field ++ ", B.*, " ++
      positionColumn ++ "() OVER (PARTITION BY B." ++ j.target.field ++ " ORDER BY B." ++
      j.target.field ++ ") AS " ++ positionColumn
    let tables := j.source.table ++ " A " ++ j.kind.keyword ++ "JOIN " ++ j.target.table ++
      " B ON (A." ++ j.source.field ++ "=B." ++ j.target.field ++ ")"
    Sql.around ("(SELECT " ++ columns ++ " FROM " ++ tables) restriction ")"
  else Sql.ofText j.target.table

/-- The text of a join. -/
def sql (s : Storage) (j : Join) : Sql :=
  let filter := match j.filter with
    | some condition => Sql.around " AND (" (s.rowConditionSql condition) ")"
    | none => []
  .text (j.kind.keyword ++ "JOIN ") :: j.targetSql ++ .text " " :: .alias j.target.name ::
    .text " ON (" :: Sql.column j.source.name j.source.field ++ .text "=" ::
    Sql.column j.target.name j.target.field ++ filter ++ Sql.ofText ")"

/-- The texts of some joins with blanks between them. -/
def listSql (s : Storage) (joins : List Join) : Sql := Sql.separated " " (joins.map (Join.sql s))

end Join

/-! ## Aliases along relations -/

/-- The number of tables joined along some relations, junctions among them. -/
def joinedCount : List Relation → Nat
  | [] => 0
  | relation :: relations => relation.tableCount + joinedCount relations

/-- The aliases of the root table and of the tables joined along some relations, in the select that
stands `depth` levels inside the statement. -/
def aliasChain (depth : Nat) (relations : List Relation) : List Alias :=
  (List.range (1 + joinedCount relations)).map (Alias.slot depth)

/-- The aliases of the tables that are no junctions, the root first. -/
def tableAliases : List Relation → List Alias → List Alias
  | _, [] => []
  | [], name :: _ => [name]
  | relation :: relations, name :: names =>
    name :: tableAliases relations (names.drop (relation.tableCount - 1))

/-! ## Joins along relations -/

/-- What is added to the joins on keys. -/
structure JoinOptions where
  /-- The conditions on the rows of the tables joined. -/
  withFilters : Bool
  /-- The condition on the root table inside a sub-select that numbers rows. -/
  restriction : Option Sql
  deriving Inhabited

/-- Joins on keys alone. -/
def JoinOptions.keysOnly : JoinOptions := ⟨false, none⟩

namespace Storage

/-- The condition on the target of a relation, if it is asked for. -/
def joinFilter (s : Storage) (options : JoinOptions) (relation : Relation) (target : Alias) :
    Except Error (Option RowCondition) :=
  match relation.targetFilter, options.withFilters with
  | some filter, true => (s.rowCondition target filter).map some
  | _, _ => .ok none

/-- The joins of one relation without a junction. -/
def directJoin (options : JoinOptions) (relation : Relation) (source target : Alias)
    (filter : Option RowCondition) : Join :=
  { kind := relation.joinKind
    source := ⟨relation.sourceTable, source, relation.sourceField⟩
    target := ⟨relation.targetTable, target, relation.targetField⟩
    filter := filter
    isNumbered := options.withFilters && relation.usesPosition
    restriction := options.restriction }

/-- The joins of one relation over a junction. -/
def junctionJoins (options : JoinOptions) (relation : Relation) (junction : Junction)
    (source middle target : Alias) (filter : Option RowCondition) : List Join :=
  let kind := if junction.joinKind = .left then .left else relation.joinKind
  [ Join.onKeys kind ⟨relation.sourceTable, source, relation.sourceField⟩
      ⟨junction.table, middle, junction.sourceField⟩,
    { kind := relation.joinKind
      source := ⟨junction.table, middle, junction.targetField⟩
      target := ⟨relation.targetTable, target, relation.targetField⟩
      filter := filter
      isNumbered := options.withFilters && relation.usesPosition
      restriction := none } ]

/-- The joins along some relations, whose tables have these aliases. The list ends where the aliases
do. Only a table joined directly to the root can be restricted by the condition on the root. -/
def joins (s : Storage) (options : JoinOptions) :
    List Relation → List Alias → Except Error (List Join)
  | relation :: relations, source :: rest =>
    let inner : JoinOptions := { options with restriction := none }
    match relation.junction, rest with
    | none, target :: more => do
      let filter ← s.joinFilter options relation target
      let others ← s.joins inner relations (target :: more)
      return directJoin options relation source target filter :: others
    | some junction, middle :: target :: more => do
      let filter ← s.joinFilter options relation target
      let others ← s.joins inner relations (target :: more)
      return junctionJoins options relation junction source middle target filter ++ others
    | _, _ => .ok []
  | _, _ => .ok []

end Storage

end FeatureStore
