import FeatureStore.Json.Record
import FeatureStore.Path.Segments
import FeatureStore.Text.Blank

/-!
# Mappings of feature types

A feature type has a root table and properties, each with the source path it is
read from. A path that begins with a slash is absolute; any other continues the
path of the root table.
-/

namespace FeatureStore

/-- What a property holds. -/
inductive PropertyRole where
  | value
  | id
  | geometry
  | datetime
  | date
  /-- A nested object, whose path names a table. -/
  | object
  deriving DecidableEq, Repr, Inhabited

/-- One property of a feature type. -/
structure PropertyMapping where
  name : String
  sourcePath : String
  role : PropertyRole
  /-- A fixed text that stands for the value. -/
  constant : Option String
  deriving DecidableEq, Repr, Inhabited

/-- A feature type. -/
structure FeatureMapping where
  name : String
  /-- The path of the root table. -/
  sourcePath : String
  properties : List PropertyMapping
  deriving DecidableEq, Repr, Inhabited

namespace FeatureMapping

/-- The path of the root table without blanks around it and slashes in front. -/
def rootPath (m : FeatureMapping) : List Char := dropSlashes (trimChars m.sourcePath.toList)

/-- The absolute path of a property. -/
def resolve (m : FeatureMapping) (p : PropertyMapping) : String :=
  String.ofList <|
    match trimChars p.sourcePath.toList with
    | [] => m.rootPath
    | '/' :: absolute => absolute
    | relative => m.rootPath ++ '/' :: relative

end FeatureMapping

/-! ## Documents -/

namespace PropertyRole

/-- The names of roles. -/
def names : List (String × PropertyRole) :=
  [("value", .value), ("id", .id), ("geometry", .geometry), ("datetime", .datetime),
    ("date", .date), ("object", .object)]

/-- The name of a role. -/
def name : PropertyRole → String
  | .value => "value"
  | .id => "id"
  | .geometry => "geometry"
  | .datetime => "datetime"
  | .date => "date"
  | .object => "object"

end PropertyRole

namespace PropertyMapping

/-- A property from its document; the role is `value` unless given. -/
def ofJson? (json : Json) : Option PropertyMapping := do
  match ← json.record? ["name", "source_path", "role", "constant"] with
  | [name, sourcePath, role, constant] =>
    return ⟨← Json.required Json.string? name, ← Json.required Json.string? sourcePath,
      ← Json.withDefault .value (Json.named? .free PropertyRole.names) role,
      ← Json.optional Json.string? constant⟩
  | _ => none

/-- The document of a property. -/
def toJson (p : PropertyMapping) : Json :=
  .object [("name", .string p.name), ("source_path", .string p.sourcePath),
    ("role", .string p.role.name), ("constant", Json.ofOption .string p.constant)]

end PropertyMapping

namespace FeatureMapping

/-- A feature type from its document; it has no properties unless they are given. -/
def ofJson? (json : Json) : Option FeatureMapping := do
  match ← json.record? ["name", "source_path", "properties"] with
  | [name, sourcePath, properties] =>
    return ⟨← Json.required Json.string? name, ← Json.required Json.string? sourcePath,
      ← Json.withDefault [] (Json.list? PropertyMapping.ofJson?) properties⟩
  | _ => none

/-- The document of a feature type. -/
def toJson (m : FeatureMapping) : Json :=
  .object [("name", .string m.name), ("source_path", .string m.sourcePath),
    ("properties", .array (m.properties.map PropertyMapping.toJson))]

end FeatureMapping

end FeatureStore
