import FeatureStore.Path.Basic

/-!
# Relations

The link from a table to its parent: its kind, the columns it equates on both
sides, and the junction between them if there is one.
-/

namespace FeatureStore

/-- How the rows of a table relate to those of its parent. -/
inductive RelationKind where
  /-- The root table, which has no parent. -/
  | none
  /-- Both rows share the primary key of the parent. -/
  | oneToOneMerge
  /-- The parent's row holds the primary key of the child's row. -/
  | oneToOneReference
  /-- The child's rows hold the primary key of the parent's row. -/
  | oneToMany
  /-- A junction table holds the primary keys of both. -/
  | manyToMany
  deriving DecidableEq, Repr, Inhabited

namespace RelationKind

/-- One row of the parent may have several rows of the child. -/
def isMultiValued : RelationKind → Bool
  | .oneToMany => true
  | .manyToMany => true
  | _ => false

/-- The name of a kind. -/
def name : RelationKind → String
  | .none => "NONE"
  | .oneToOneMerge => "ONE_TO_ONE_MERGE"
  | .oneToOneReference => "ONE_TO_ONE_REFERENCE"
  | .oneToMany => "ONE_TO_MANY"
  | .manyToMany => "MANY_TO_MANY"

end RelationKind

/-- The table between the two sides of a many-to-many relation. -/
structure Junction where
  table : String
  /-- Its column for the key of the parent. -/
  sourceField : String
  /-- Its column for the key of the child. -/
  targetField : String
  joinKind : JoinKind
  deriving DecidableEq, Repr, Inhabited

/-- The link of a table to its parent. The source is the parent, the target the child. -/
structure Relation where
  kind : RelationKind
  sourceTable : String
  sourceField : String
  sourcePrimaryKey : String
  targetTable : String
  targetField : String
  targetPrimaryKey : String
  junction : Option Junction
  joinKind : JoinKind
  /-- A condition on the rows of the target. -/
  targetFilter : Option Filter
  deriving Inhabited

namespace Relation

/-- The number of tables that a join along the relation adds. -/
def tableCount (r : Relation) : Nat := if r.junction.isSome then 2 else 1

/-- The condition on the target asks for the position of a row. -/
def usesPosition (r : Relation) : Bool := r.targetFilter.any Filter.usesPosition

end Relation

end FeatureStore
