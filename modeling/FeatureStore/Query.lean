import FeatureStore.Filter.Document

/-!
# Queries

What a reader asks for: features of one type, as a page, in an order, matching a
filter, or the one feature with an identifier.
-/

namespace FeatureStore

/-- A property to sort by and its direction. -/
structure SortKey where
  field : String
  descending : Bool
  deriving DecidableEq

/-- The name under which every feature type offers its identifier. -/
def idProperty : String := "id"

/-- A request for features of one type. A limit of zero leaves the choice to the provider. -/
structure Query where
  featureType : String
  limit : Nat
  offset : Nat
  sortKeys : List SortKey
  filter : Option Filter
  id : Option String
  deriving Inhabited

/-- Counts in documents are below this. -/
def countLimit : Nat := Nat.pow 2 64

namespace SortKey

/-- The names of directions, true for descending. -/
def directionNames : List (String × Bool) := [("ascending", false), ("descending", true)]

/-- A sort key from its document; the direction is ascending unless given. -/
def ofJson? (json : Json) : Option SortKey := do
  match ← json.record? ["field", "direction"] with
  | [field, direction] =>
    return ⟨← Json.required Json.string? field,
      ← Json.withDefault false (Json.named? .free directionNames) direction⟩
  | _ => none

/-- The document of a sort key. -/
def toJson (key : SortKey) : Json :=
  .object [("field", .string key.field),
    ("direction", .string (if key.descending then "descending" else "ascending"))]

end SortKey

namespace Query

/-- All features of a type. -/
def all (featureType : String) : Query := ⟨featureType, 0, 0, [], none, none⟩

/-- The feature with an identifier. -/
def byId (featureType id : String) : Query := { all featureType with id := some id }

/-- The query asks for one feature by its identifier. -/
def isLookup (q : Query) : Bool := q.id.isSome

/-- The filter that applies: an identifier replaces any other filter. -/
def effectiveFilter (q : Query) : Option Filter :=
  match q.id with
  | some id => some (Filter.oneOf idProperty [.text id])
  | none => q.filter

/-- A query from its document; all but the feature type may be left out. -/
def ofJson? (json : Json) : Option Query := do
  match ← json.record? ["feature_type", "limit", "offset", "sort_keys", "filter", "id"] with
  | [featureType, limit, offset, sortKeys, filter, id] =>
    return ⟨← Json.required Json.string? featureType,
      ← Json.withDefault 0 (Json.natBelow? countLimit) limit,
      ← Json.withDefault 0 (Json.natBelow? countLimit) offset,
      ← Json.withDefault [] (Json.list? SortKey.ofJson?) sortKeys,
      ← Json.optional Filter.ofJson? filter,
      ← Json.optional Json.string? id⟩
  | _ => none

/-- The document of a query. -/
def toJson (q : Query) : Json :=
  .object [("feature_type", .string q.featureType), ("limit", .integer q.limit),
    ("offset", .integer q.offset), ("sort_keys", .array (q.sortKeys.map SortKey.toJson)),
    ("filter", Json.ofOption Filter.toJson q.filter), ("id", Json.ofOption .string q.id)]

end Query

end FeatureStore
