import FeatureStore.Filter.Document
import FeatureStore.Table.Tree

/-!
# Columns and relations in documents

How a column of a table and the relation of a table to its parent are laid out
in a document.
-/

namespace FeatureStore

/-- The name of a join in documents. -/
def JoinKind.name : JoinKind → String
  | .inner => "Inner"
  | .left => "Left"

/-- The document of a column's kind; the text of a constant goes with it. -/
def ColumnKind.toJson : ColumnKind → Json
  | .value => .string "value"
  | .identifier => .string "identifier"
  | .spatial => .string "spatial"
  | .temporal => .string "temporal"
  | .date => .string "date"
  | .constant text => .object [("constant", .string text)]

/-- The document of a column. -/
def Column.toJson (c : Column) : Json :=
  .object [("name", .string c.name), ("property", .string c.property), ("kind", c.kind.toJson)]

/-- The document of a junction. -/
def Junction.toJson (j : Junction) : Json :=
  .object [("table", .string j.table), ("source_field", .string j.sourceField),
    ("target_field", .string j.targetField), ("join_type", .string j.joinKind.name)]

/-- The document of a relation. -/
def Relation.toJson (r : Relation) : Json :=
  .object [("kind", .string r.kind.name), ("source_table", .string r.sourceTable),
    ("source_field", .string r.sourceField), ("source_primary_key", .string r.sourcePrimaryKey),
    ("target_table", .string r.targetTable), ("target_field", .string r.targetField),
    ("target_primary_key", .string r.targetPrimaryKey),
    ("junction", Json.ofOption Junction.toJson r.junction),
    ("join_type", .string r.joinKind.name),
    ("target_filter", Json.ofOption Filter.toJson r.targetFilter)]

end FeatureStore
