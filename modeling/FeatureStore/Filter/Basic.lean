import FeatureStore.Filter.Geometry
import FeatureStore.Filter.Temporal
import FeatureStore.Filter.Value

/-!
# Filters

A filter is a boolean combination of conditions on one feature. The conditions
are predicates over operands, relations between arrays, and the two truth
values. The same language serves for conditions on the rows of one table, where
a property names a column.
-/

namespace FeatureStore

/-- A comparison of two scalars. -/
inductive Comparison where
  | eq
  | ne
  | lt
  | le
  | gt
  | ge
  deriving DecidableEq

/-- How two geometries lie to each other. -/
inductive SpatialRelation where
  | intersects
  | disjoint
  | equals
  | touches
  | within
  | overlaps
  | crosses
  | contains
  deriving DecidableEq

/-- How two ranges of time lie to each other. -/
inductive TemporalRelation where
  | after
  | before
  | during
  | disjoint
  | equals
  | intersects
  deriving DecidableEq

/-- How the members of two arrays relate. -/
inductive ArrayRelation where
  /-- The left array has every member of the right one. -/
  | contains
  /-- Every member of the left array is one of the right one. -/
  | containedBy
  /-- Both have the same members. -/
  | equals
  /-- Some member is in both. -/
  | overlaps
  deriving DecidableEq

/-- A function of operands. -/
inductive ScalarFunction where
  | upper
  | lower
  /-- Makes a comparison blind to case. -/
  | caseInsensitive
  /-- Makes a comparison blind to accents. -/
  | accentInsensitive
  /-- The number of a row within its relation. -/
  | position
  deriving DecidableEq

/-- An operand of a predicate. -/
inductive Operand where
  | property (name : String)
  | literal (value : Value)
  | geometry (value : Geometry)
  | temporal (value : TemporalLiteral)
  | interval (start stop : Operand)
  | array (values : List Value)
  | apply (function : ScalarFunction) (args : List Operand)
  deriving Inhabited

/-- A condition on operands that is not built from other conditions. -/
inductive Predicate where
  | compare (op : Comparison) (left right : Operand)
  | like (value pattern : Operand)
  | oneOf (value : Operand) (list : List Operand)
  | isNull (value : Operand)
  | between (value lower upper : Operand)
  | spatial (relation : SpatialRelation) (left right : Operand)
  | temporal (relation : TemporalRelation) (left right : Operand)
  deriving Inhabited

/-- A filter. -/
inductive Filter where
  /-- All of the arguments hold. -/
  | all (args : List Filter)
  /-- At least one of the arguments holds. -/
  | any (args : List Filter)
  | negation (arg : Filter)
  | test (predicate : Predicate)
  | array (relation : ArrayRelation) (left right : Operand)
  | constant (value : Bool)
  deriving Inhabited

namespace Operand

mutual
/-- The properties of an operand, from left to right. -/
def properties : Operand → List String
  | .property name => [name]
  | .interval start stop => start.properties ++ stop.properties
  | .apply _ args => propertiesOfList args
  | .literal _ => []
  | .geometry _ => []
  | .temporal _ => []
  | .array _ => []

/-- The properties of a list of operands. -/
def propertiesOfList : List Operand → List String
  | [] => []
  | operand :: rest => operand.properties ++ propertiesOfList rest
end

mutual
/-- The position of a row is asked for somewhere in the operand. -/
def usesPosition : Operand → Bool
  | .apply function args => function == .position || listUsesPosition args
  | .interval start stop => start.usesPosition || stop.usesPosition
  | _ => false

/-- The position of a row is asked for somewhere in the operands. -/
def listUsesPosition : List Operand → Bool
  | [] => false
  | operand :: rest => operand.usesPosition || listUsesPosition rest
end

/-- A literal of any kind. -/
def isLiteral : Operand → Bool
  | .literal _ => true
  | .geometry _ => true
  | .temporal _ => true
  | .array _ => true
  | _ => false

end Operand

namespace Predicate

/-- The operands of a predicate, from left to right. -/
def operands : Predicate → List Operand
  | .compare _ left right => [left, right]
  | .like value pattern => [value, pattern]
  | .oneOf value list => value :: list
  | .isNull value => [value]
  | .between value lower upper => [value, lower, upper]
  | .spatial _ left right => [left, right]
  | .temporal _ left right => [left, right]

/-- The properties of a predicate. -/
def properties (p : Predicate) : List String := Operand.propertiesOfList p.operands

/-- The position of a row is asked for somewhere in the predicate. -/
def usesPosition (p : Predicate) : Bool := Operand.listUsesPosition p.operands

end Predicate

namespace Filter

/-- The operands that stand directly in a filter. -/
def operands : Filter → List Operand
  | .test predicate => predicate.operands
  | .array _ left right => [left, right]
  | _ => []

mutual
/-- All properties of a filter, in the order in which they stand. -/
def properties : Filter → List String
  | .all args => propertiesOfList args
  | .any args => propertiesOfList args
  | .negation arg => arg.properties
  | .test predicate => predicate.properties
  | .array _ left right => left.properties ++ right.properties
  | .constant _ => []

/-- The properties of a list of filters. -/
def propertiesOfList : List Filter → List String
  | [] => []
  | filter :: rest => filter.properties ++ propertiesOfList rest
end

mutual
/-- The position of a row is asked for somewhere in the filter. -/
def usesPosition : Filter → Bool
  | .all args => listUsesPosition args
  | .any args => listUsesPosition args
  | .negation arg => arg.usesPosition
  | .test predicate => predicate.usesPosition
  | .array _ left right => left.usesPosition || right.usesPosition
  | .constant _ => false

/-- The position of a row is asked for somewhere in the filters. -/
def listUsesPosition : List Filter → Bool
  | [] => false
  | filter :: rest => filter.usesPosition || listUsesPosition rest
end

/-! ## Building filters on one property -/

/-- A comparison of a property with a value. -/
def compare (op : Comparison) (property : String) (value : Value) : Filter :=
  .test (.compare op (.property property) (.literal value))

/-- A property equals one of some values. -/
def oneOf (property : String) (values : List Value) : Filter :=
  .test (.oneOf (.property property) (values.map .literal))

/-- A property has no value. -/
def isNull (property : String) : Filter := .test (.isNull (.property property))

/-- A property matches a pattern. -/
def like (property pattern : String) : Filter :=
  .test (.like (.property property) (.literal (.text pattern)))

/-- A property lies between two values, both included. -/
def between (property : String) (lower upper : Value) : Filter :=
  .test (.between (.property property) (.literal lower) (.literal upper))

/-- A property relates to a geometry. -/
def spatial (relation : SpatialRelation) (property : String) (geometry : Geometry) : Filter :=
  .test (.spatial relation (.property property) (.geometry geometry))

/-- A property relates to a temporal literal. -/
def temporal (relation : TemporalRelation) (property : String) (literal : TemporalLiteral) :
    Filter :=
  .test (.temporal relation (.property property) (.temporal literal))

/-- All of some filters hold; a single filter stands for itself. -/
def conjunction : List Filter → Filter
  | [only] => only
  | args => .all args

end Filter

end FeatureStore
