import FeatureStore.Filter.Document
import FeatureStore.Sql.Text

/-!
# Dialects

What differs between databases: how geometries and times are selected and
written, how a value becomes text, whether periods can be tested for overlap
directly, and where rows without a sort key are put.
-/

namespace FeatureStore

/-- A kind of database. -/
inductive Dialect where
  | postgis
  | geopackage
  deriving DecidableEq, Repr, Inhabited

namespace Dialect

/-- The name of a dialect. -/
def name : Dialect → String
  | .postgis => "postgis"
  | .geopackage => "geopackage"

/-- The names of dialects. -/
def names : List (String × Dialect) := [("postgis", .postgis), ("geopackage", .geopackage)]

/-! ## Selected columns -/

/-- A geometry as well-known text. -/
def geometryText (column : Sql) : Dialect → Sql
  | .postgis => Sql.around "ST_AsText(ST_ForcePolygonCCW(" column "))"
  | .geopackage => Sql.around "ST_AsText(" column ")"

/-- A time, to the second. -/
def timeText (column : Sql) : Dialect → Sql
  | .postgis => column ++ Sql.ofText "::timestamp(0)"
  | .geopackage => Sql.around "datetime(" column ")"

/-- A date. -/
def dateText (column : Sql) : Dialect → Sql
  | .postgis => column ++ Sql.ofText "::date"
  | .geopackage => Sql.around "date(" column ")"

/-- An expression as text. -/
def castText (expression : Sql) : Dialect → Sql
  | .postgis => expression ++ Sql.ofText "::varchar"
  | .geopackage => Sql.around "cast(" expression " as text)"

/-- A whole number of sixty-four bits. -/
def wholeNumber (value : Int) : Dialect → String
  | .postgis => toString value ++ "::bigint"
  | .geopackage => "CAST(" ++ toString value ++ " AS BIGINT)"

/-! ## Literals -/

/-- A time from its text in quotes. -/
def timeLiteral (text : Piece) : Dialect → Sql
  | .postgis => [.text "TIMESTAMP ", text]
  | .geopackage => Sql.around "datetime(" [text] ")"

/-- A date from its text in quotes. -/
def dateLiteral (text : Piece) : Dialect → Sql
  | .postgis => [.text "DATE ", text]
  | .geopackage => Sql.around "date(" [text] ")"

/-- The text of the earliest time. -/
def earliest : Dialect → String
  | .postgis => "-infinity"
  | .geopackage => "0001-01-01T00:00:00Z"

/-- The text of the latest time. -/
def latest : Dialect → String
  | .postgis => "infinity"
  | .geopackage => "9999-12-31T23:59:59Z"

/-- A geometry from its well-known text in quotes and the number of its reference system. -/
def geometryLiteral (text : Piece) (srid : Nat) : Sql :=
  [.text "ST_GeomFromText(", text, .text ("," ++ toString srid ++ ")")]

/-! ## Tests and order -/

/-- Two periods can be tested for overlap directly. -/
def hasOverlaps : Dialect → Bool
  | .postgis => true
  | .geopackage => false

/-- The function that tests how two geometries lie to each other. -/
def spatialFunction : SpatialRelation → String
  | .intersects => "ST_Intersects"
  | .disjoint => "ST_Disjoint"
  | .equals => "ST_Equals"
  | .touches => "ST_Touches"
  | .within => "ST_Within"
  | .overlaps => "ST_Overlaps"
  | .crosses => "ST_Crosses"
  | .contains => "ST_Contains"

/-- What sorts a missing value below every other: first if ascending, last if descending. -/
def missingOrder (descending : Bool) : Dialect → String
  | .postgis => if descending then " NULLS LAST" else " NULLS FIRST"
  | .geopackage => ""

/-- At most so many rows. -/
def limitText (limit : Nat) : String := " LIMIT " ++ toString limit

/-- Without the first rows. -/
def offsetText (offset : Nat) : String := " OFFSET " ++ toString offset

end Dialect

end FeatureStore
