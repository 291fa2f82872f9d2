import FeatureStore.Json.Writer
import FeatureStore.Report.Grid
import FeatureStore.Table.Document
import FeatureStore.Write.Statement

/-!
# Reports

What the command line tells about a feature type: its tables, the statements of a
read, or those of a write. A report is written as a ruled grid or as a JSON
document (`Report.text`).
-/

namespace FeatureStore

/-- The form of a report. -/
inductive ReportFormat where
  | grid
  | json
  deriving DecidableEq, Repr, Inhabited

/-- A report on a feature type. -/
inductive Report where
  /-- The tables in pre-order. -/
  | tables (tables : List Table)
  /-- The statements of a read, each with the path of its group. -/
  | queries (queries : List (String × String))
  /-- The statements of a write, each with its text. -/
  | statements (statements : List (Statement × String))
  deriving Inhabited

/-- The sort key of a table and whether its rows are numbered in the order of the key. -/
def Table.sortKeyText (t : Table) : String :=
  if t.sortKeyUnique then t.sortKey else t.sortKey ++ " (row number)"

/-- The word for what a column holds; plain values have none. -/
def ColumnKind.mark? : ColumnKind → Option String
  | .value => none
  | .identifier => some "id"
  | .spatial => some "geometry"
  | .temporal => some "datetime"
  | .date => some "date"
  | .constant _ => some "constant"

/-- The name of a column and what it holds. -/
def Column.label (c : Column) : String :=
  match c.kind.mark? with
  | none => c.name
  | some mark => c.name ++ " [" ++ mark ++ "]"

namespace Report

/-! ## As a grid -/

/-- A table as a row of a grid; its path is indented under that of its parent. -/
def tableCells (t : Table) : List String :=
  ["".pushn ' ' (2 * t.relations.length) ++ t.path, t.name, t.kind.name, t.sortKeyText,
    ", ".intercalate (t.columns.map Column.label)]

/-- A numbered statement as a row of a grid. -/
def statementCells (statement : Statement) (text : String) (index : Nat) : List String :=
  [toString (index + 1), statement.kindName, statement.table, text]

/-- The grid of a report. -/
def grid : Report → Grid
  | .tables listed =>
    ⟨["Path", "Table", "Relation", "Sort key", "Columns"], listed.map tableCells⟩
  | .queries listed => ⟨["Query", "SQL"], listed.map fun (label, sql) => [label, sql]⟩
  | .statements listed =>
    ⟨["#", "Kind", "Table", "SQL"],
      listed.zipIdx.map fun ((statement, sql), index) => statementCells statement sql index⟩

/-! ## As a document -/

/-- The document of a table. -/
def tableJson (t : Table) : Json :=
  .object [("path", .string t.path), ("table", .string t.name), ("kind", .string t.kind.name),
    ("sort_key", .string t.sortKeyText), ("primary_key", .string t.primaryKey),
    ("relation_path", .array (t.relations.map Relation.toJson)),
    ("columns", .array (t.columns.map Column.toJson))]

/-- The document of a report. -/
def toJson : Report → Json
  | .tables listed => .array (listed.map tableJson)
  | .queries listed =>
    .array (listed.map fun (label, sql) =>
      .object [("query", .string label), ("sql", .string sql)])
  | .statements listed =>
    .array (listed.map fun (statement, sql) =>
      .object [("kind", .string statement.kindName), ("table", .string statement.table),
        ("sql", .string sql)])

/-- The text of a report. A grid of no statements is a sentence. -/
def text (format : ReportFormat) (report : Report) : String :=
  match format, report with
  | .json, report => report.toJson.pretty
  | .grid, .statements [] => "No statements"
  | .grid, report => report.grid.text

end Report

/-- A message about a failure in the form of a report. -/
def ReportFormat.failureText (message : String) : ReportFormat → String
  | .grid => "Error: " ++ message
  | .json => (Json.object [("error", .string message)]).compact

end FeatureStore
