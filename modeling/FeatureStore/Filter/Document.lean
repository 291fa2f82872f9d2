import FeatureStore.Filter.Basic

/-!
# Filters in documents

Filters and operands as JSON documents. A filter is a variant tagged by its
field `op`, so everything below it stands within a tagged variant; an operand is
a plain variant, found in filters and by itself. Reading descends at most as far
as the document is deep, and undoes writing.
-/

namespace FeatureStore

/-! ## Names -/

/-- The names of comparisons. -/
def Comparison.names : List (String × Comparison) :=
  [("eq", .eq), ("ne", .ne), ("lt", .lt), ("le", .le), ("gt", .gt), ("ge", .ge)]

/-- The name of a comparison. -/
def Comparison.name : Comparison → String
  | .eq => "eq"
  | .ne => "ne"
  | .lt => "lt"
  | .le => "le"
  | .gt => "gt"
  | .ge => "ge"

/-- The names of spatial relations. -/
def SpatialRelation.names : List (String × SpatialRelation) :=
  [("intersects", .intersects), ("disjoint", .disjoint), ("equals", .equals),
    ("touches", .touches), ("within", .within), ("overlaps", .overlaps), ("crosses", .crosses),
    ("contains", .contains)]

/-- The name of a spatial relation. -/
def SpatialRelation.name : SpatialRelation → String
  | .intersects => "intersects"
  | .disjoint => "disjoint"
  | .equals => "equals"
  | .touches => "touches"
  | .within => "within"
  | .overlaps => "overlaps"
  | .crosses => "crosses"
  | .contains => "contains"

/-- The names of temporal relations. -/
def TemporalRelation.names : List (String × TemporalRelation) :=
  [("after", .after), ("before", .before), ("during", .during), ("disjoint", .disjoint),
    ("equals", .equals), ("intersects", .intersects)]

/-- The name of a temporal relation. -/
def TemporalRelation.name : TemporalRelation → String
  | .after => "after"
  | .before => "before"
  | .during => "during"
  | .disjoint => "disjoint"
  | .equals => "equals"
  | .intersects => "intersects"

/-- The names of array relations. -/
def ArrayRelation.names : List (String × ArrayRelation) :=
  [("contains", .contains), ("contained_by", .containedBy), ("equals", .equals),
    ("overlaps", .overlaps)]

/-- The name of an array relation. -/
def ArrayRelation.name : ArrayRelation → String
  | .contains => "contains"
  | .containedBy => "contained_by"
  | .equals => "equals"
  | .overlaps => "overlaps"

/-- The names of functions. -/
def ScalarFunction.names : List (String × ScalarFunction) :=
  [("upper", .upper), ("lower", .lower), ("casei", .caseInsensitive),
    ("accenti", .accentInsensitive), ("position", .position)]

/-- The name of a function. -/
def ScalarFunction.name : ScalarFunction → String
  | .upper => "upper"
  | .lower => "lower"
  | .caseInsensitive => "casei"
  | .accentInsensitive => "accenti"
  | .position => "position"

/-! ## Operands -/

namespace Operand

/-- An operand from a document of at most `depth` nested variants. -/
def decode? (place : Json.Place) : Nat → Json → Option Operand
  | 0, _ => none
  | depth + 1, json => do
    match ← json.variant? with
    | ("property", some data) => return .property (← data.string?)
    | ("literal", some data) => return .literal (← Value.ofJson? data)
    | ("geometry", some data) => return .geometry (← Geometry.ofJson? data)
    | ("temporal", some data) => return .temporal (← TemporalLiteral.ofJson? place data)
    | ("interval", some data) =>
      match ← data.record? ["start", "end"] with
      | [start, stop] =>
        return .interval (← Json.required (decode? place depth) start)
          (← Json.required (decode? place depth) stop)
      | _ => none
    | ("array", some data) => return .array (← Json.list? Value.ofJson? data)
    | ("function", some data) =>
      match ← data.record? ["function", "args"] with
      | [function, args] =>
        return .apply (← Json.required (Json.named? place ScalarFunction.names) function)
          (← Json.withDefault [] (Json.list? (decode? place depth)) args)
      | _ => none
    | _ => none

/-- An operand from its document. -/
def ofJson? (place : Json.Place) (json : Json) : Option Operand :=
  decode? place (json.depth + 1) json

mutual
/-- The document of an operand. -/
def toJson : Operand → Json
  | .property name => .object [("property", .string name)]
  | .literal value => .object [("literal", value.toJson)]
  | .geometry value => .object [("geometry", value.toJson)]
  | .temporal value => .object [("temporal", value.toJson)]
  | .interval start stop =>
    .object [("interval", .object [("start", start.toJson), ("end", stop.toJson)])]
  | .array values => .object [("array", .array (values.map Value.toJson))]
  | .apply function args =>
    .object [("function",
      .object [("function", .string function.name), ("args", .array (listToJson args))])]

/-- The documents of a list of operands. -/
def listToJson : List Operand → List Json
  | [] => []
  | operand :: rest => operand.toJson :: listToJson rest
end

end Operand

/-! ## Predicates and filters -/

namespace Predicate

/-- A predicate from the name of its kind and the record of its data. -/
def ofVariant? (kind : String) (data : Json) : Option Predicate := do
  let operand := Json.required (Operand.ofJson? .tagged)
  match kind with
  | "compare" =>
    match ← data.record? ["cmp", "left", "right"] with
    | [op, left, right] =>
      return .compare (← Json.required (Json.named? .tagged Comparison.names) op) (← operand left)
        (← operand right)
    | _ => none
  | "like" =>
    match ← data.record? ["value", "pattern"] with
    | [value, pattern] => return .like (← operand value) (← operand pattern)
    | _ => none
  | "in" =>
    match ← data.record? ["value", "list"] with
    | [value, list] =>
      return .oneOf (← operand value) (← Json.required (Json.list? (Operand.ofJson? .tagged)) list)
    | _ => none
  | "is_null" =>
    match ← data.record? ["value"] with
    | [value] => return .isNull (← operand value)
    | _ => none
  | "between" =>
    match ← data.record? ["value", "lower", "upper"] with
    | [value, lower, upper] =>
      return .between (← operand value) (← operand lower) (← operand upper)
    | _ => none
  | "spatial" =>
    match ← data.record? ["function", "left", "right"] with
    | [relation, left, right] =>
      return .spatial (← Json.required (Json.named? .tagged SpatialRelation.names) relation)
        (← operand left) (← operand right)
    | _ => none
  | "temporal" =>
    match ← data.record? ["function", "left", "right"] with
    | [relation, left, right] =>
      return .temporal (← Json.required (Json.named? .tagged TemporalRelation.names) relation)
        (← operand left) (← operand right)
    | _ => none
  | _ => none

/-- The document of a predicate. -/
def toJson : Predicate → Json
  | .compare op left right =>
    .object [("op", .string "compare"), ("cmp", .string op.name), ("left", left.toJson),
      ("right", right.toJson)]
  | .like value pattern =>
    .object [("op", .string "like"), ("value", value.toJson), ("pattern", pattern.toJson)]
  | .oneOf value list =>
    .object [("op", .string "in"), ("value", value.toJson),
      ("list", .array (Operand.listToJson list))]
  | .isNull value => .object [("op", .string "is_null"), ("value", value.toJson)]
  | .between value lower upper =>
    .object [("op", .string "between"), ("value", value.toJson), ("lower", lower.toJson),
      ("upper", upper.toJson)]
  | .spatial relation left right =>
    .object [("op", .string "spatial"), ("function", .string relation.name),
      ("left", left.toJson), ("right", right.toJson)]
  | .temporal relation left right =>
    .object [("op", .string "temporal"), ("function", .string relation.name),
      ("left", left.toJson), ("right", right.toJson)]

end Predicate

namespace Filter

/-- The names of the kinds of filters, in the order of their numbers. -/
def kinds : List String :=
  ["and", "or", "not", "compare", "like", "in", "is_null", "between", "spatial", "temporal",
    "array", "bool"]

/-- A filter from a document of at most `depth` nested filters. -/
def decode? (place : Json.Place) : Nat → Json → Option Filter
  | 0, _ => none
  | depth + 1, json => do
    let (kind, data) ← json.tagged? place "op" kinds
    match kind with
    | "and" =>
      match ← data.record? ["args"] with
      | [args] => return .all (← Json.required (Json.list? (decode? .tagged depth)) args)
      | _ => none
    | "or" =>
      match ← data.record? ["args"] with
      | [args] => return .any (← Json.required (Json.list? (decode? .tagged depth)) args)
      | _ => none
    | "not" =>
      match ← data.record? ["arg"] with
      | [arg] => return .negation (← Json.required (decode? .tagged depth) arg)
      | _ => none
    | "array" =>
      match ← data.record? ["function", "left", "right"] with
      | [relation, left, right] =>
        return .array (← Json.required (Json.named? .tagged ArrayRelation.names) relation)
          (← Json.required (Operand.ofJson? .tagged) left)
          (← Json.required (Operand.ofJson? .tagged) right)
      | _ => none
    | "bool" =>
      match ← data.record? ["value"] with
      | [value] => return .constant (← Json.required Json.bool? value)
      | _ => none
    | _ => return .test (← Predicate.ofVariant? kind data)

/-- A filter from its document. -/
def ofJson? (json : Json) : Option Filter := decode? .free (json.depth + 1) json

mutual
/-- The document of a filter. -/
def toJson : Filter → Json
  | .all args => .object [("op", .string "and"), ("args", .array (listToJson args))]
  | .any args => .object [("op", .string "or"), ("args", .array (listToJson args))]
  | .negation arg => .object [("op", .string "not"), ("arg", arg.toJson)]
  | .test predicate => predicate.toJson
  | .array relation left right =>
    .object [("op", .string "array"), ("function", .string relation.name),
      ("left", left.toJson), ("right", right.toJson)]
  | .constant value => .object [("op", .string "bool"), ("value", .bool value)]

/-- The documents of a list of filters. -/
def listToJson : List Filter → List Json
  | [] => []
  | filter :: rest => filter.toJson :: listToJson rest
end

end Filter

end FeatureStore
