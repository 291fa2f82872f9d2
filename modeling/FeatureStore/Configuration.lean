import FeatureStore.Error
import FeatureStore.Json.Reader
import FeatureStore.Query
import FeatureStore.Sql.Storage
import FeatureStore.Table.Mapping

/-!
# Configurations

The settings of a provider of features and the feature types that it offers. A
valid configuration has a positive greatest limit, a default limit not above it,
a root table for every feature type, and no two feature types of one name
(`Configuration.fault?`).
-/

namespace FeatureStore

/-- The settings of a provider. -/
structure Configuration where
  dialect : Dialect
  /-- All features that match a query are counted, not only those of the page. -/
  countsMatched : Bool
  /-- The limit of a query that leaves it open. -/
  defaultLimit : Nat
  /-- The greatest limit that a query gets. -/
  maxLimit : Nat
  srid : Nat
  collation : Option String
  types : List FeatureMapping
  deriving Inhabited

namespace Configuration

/-- The settings of a provider that nobody configured. -/
def default : Configuration := ⟨.postgis, true, 10, 10000, defaultSrid, none, []⟩

/-- What is wrong with a list of feature types, given the names of those before it. -/
def typesFault? (names : List String) : List FeatureMapping → Option ConfigFault
  | [] => none
  | mapping :: rest =>
    if isBlankText mapping.sourcePath then some (.noSourcePath mapping.name)
    else if mapping.name ∈ names then some (.duplicateType mapping.name)
    else typesFault? (mapping.name :: names) rest

/-- The first thing that is wrong with a configuration, if there is one. -/
def fault? (c : Configuration) : Option ConfigFault :=
  if c.maxLimit = 0 then some .maxLimitZero
  else if c.maxLimit < c.defaultLimit then some (.defaultAboveMax c.defaultLimit c.maxLimit)
  else typesFault? [] c.types

/-- A configuration that nothing is wrong with. -/
def validated (c : Configuration) : Except Error Configuration :=
  match c.fault? with
  | some fault => .error (.config fault)
  | none => .ok c

/-- The feature type of a name. -/
def type? (c : Configuration) (name : String) : Option FeatureMapping :=
  c.types.find? (·.name == name)

/-- The limit that a query gets; zero leaves the choice to the configuration. -/
def effectiveLimit (c : Configuration) (requested : Nat) : Nat :=
  if requested = 0 then c.defaultLimit else min requested c.maxLimit

/-- Where the features of a tree are kept. -/
def storage (c : Configuration) (tree : TableTree) : Storage :=
  ⟨tree, c.dialect, c.srid, c.collation⟩

/-! ## Documents -/

/-- Numbers of reference systems are below this. -/
def sridLimit : Nat := Nat.pow 2 32

/-- A configuration from its document, not validated. Every setting may be left out. -/
def ofJson? (json : Json) : Option Configuration := do
  match ← json.record? ["dialect", "compute_number_matched", "default_limit", "max_limit",
    "native_srid", "accenti_collation", "types"] with
  | [dialect, countsMatched, defaultLimit, maxLimit, srid, collation, types] =>
    return ⟨← Json.withDefault default.dialect (Json.named? .free Dialect.names) dialect,
      ← Json.withDefault default.countsMatched Json.bool? countsMatched,
      ← Json.withDefault default.defaultLimit (Json.natBelow? countLimit) defaultLimit,
      ← Json.withDefault default.maxLimit (Json.natBelow? countLimit) maxLimit,
      ← Json.withDefault default.srid (Json.natBelow? sridLimit) srid,
      ← Json.optional Json.string? collation,
      ← Json.withDefault default.types (Json.list? FeatureMapping.ofJson?) types⟩
  | _ => none

/-- The document of a configuration. -/
def toJson (c : Configuration) : Json :=
  .object [("dialect", .string c.dialect.name), ("compute_number_matched", .bool c.countsMatched),
    ("default_limit", .integer c.defaultLimit), ("max_limit", .integer c.maxLimit),
    ("native_srid", .integer c.srid), ("accenti_collation", Json.ofOption .string c.collation),
    ("types", .array (c.types.map FeatureMapping.toJson))]

/-- A valid configuration from its document. -/
def ofDocument (document : Option Json) : Except Error Configuration :=
  match document.bind ofJson? with
  | some c => c.validated
  | none => .error .malformedDocument

/-- A valid configuration from a text. -/
def read (text : String) : Except Error Configuration := ofDocument (Json.parse? text)

end Configuration

end FeatureStore
