import FeatureStore.Sql.Dialect

/-!
# Scalar expressions

The expressions that the conditions of a statement compare: columns of tables,
literals, and functions of these. An expression is data, so that what a condition
reads can be told without looking at its text.
-/

namespace FeatureStore

/-- The column that a row-numbered table adds to its own. -/
def positionColumn : String := "row_number"

/-- An expression of a statement. -/
inductive Scalar where
  | column (table : Alias) (name : String)
  /-- The position of a row in a row-numbered table. -/
  | position (table : Alias)
  | literal (value : Value)
  | geometry (value : Geometry)
  | instant (value : Instant)
  | date (value : Date)
  /-- The time before all others. -/
  | earliest
  /-- The time behind all others. -/
  | latest
  | period (start stop : Scalar)
  | list (values : List Value)
  | upper (arg : Scalar)
  | lower (arg : Scalar)
  /-- Compared after the rules of a collation. -/
  | collated (arg : Scalar) (collation : String)
  deriving DecidableEq, Inhabited

/-- A scalar literal. -/
def Value.sql : Value → Piece
  | .null => .text "NULL"
  | .bool b => .text (if b then "TRUE" else "FALSE")
  | .int n => .text (toString n.toInt)
  | .float x => .text x.plainText
  | .text s => .quoted s

/-- Literals with commas between them, in parentheses. -/
def Value.listSql (values : List Value) : Sql :=
  Sql.parenthesized (Sql.separated ", " (values.map fun v => [v.sql]))

namespace Scalar

/-- The text of an expression. -/
def sql (dialect : Dialect) (srid : Nat) : Scalar → Sql
  | .column table name => Sql.column table name
  | .position table => Sql.column table positionColumn
  | .literal value => [value.sql]
  | .geometry value => Dialect.geometryLiteral (.quoted value.wellKnown) srid
  | .instant value => dialect.timeLiteral (.quoted value.text)
  | .date value => dialect.dateLiteral (.quoted value.text)
  | .earliest => dialect.timeLiteral (.quoted dialect.earliest)
  | .latest => dialect.timeLiteral (.quoted dialect.latest)
  | .period start stop =>
    Sql.parenthesized (start.sql dialect srid ++ .text "," :: stop.sql dialect srid)
  | .list values => Value.listSql values
  | .upper arg => Sql.around "UPPER(" (arg.sql dialect srid) ")"
  | .lower arg => Sql.around "LOWER(" (arg.sql dialect srid) ")"
  | .collated arg collation =>
    arg.sql dialect srid ++ Sql.ofText (" COLLATE \"" ++ collation ++ "\"")

/-- The tables whose columns an expression reads. -/
def tables : Scalar → List Alias
  | .column table _ => [table]
  | .position table => [table]
  | .period start stop => start.tables ++ stop.tables
  | .upper arg => arg.tables
  | .lower arg => arg.tables
  | .collated arg _ => arg.tables
  | _ => []

end Scalar

end FeatureStore
