import FeatureStore.Filter.Basic
import FeatureStore.Text.Escaped

/-!
# Operands in messages

A message that complains about an operand shows it as a term: the name of its
kind with its parts in parentheses, lists in brackets, records in braces with
the names of their fields, and texts in quotes (`Operand.shown`).
-/

namespace FeatureStore

/-! ## Terms -/

/-- A kind with its parts. -/
def shownTerm (kind : String) (parts : List String) : String :=
  kind ++ "(" ++ ", ".intercalate parts ++ ")"

/-- A list. -/
def shownList (items : List String) : String := "[" ++ ", ".intercalate items ++ "]"

/-- A kind with named parts. -/
def shownRecord (kind : String) (fields : List (String × String)) : String :=
  kind ++ " \x7b " ++ ", ".intercalate (fields.map fun (name, value) => name ++ ": " ++ value) ++
    " \x7d"

/-! ## Literals -/

/-- A floating point number. -/
def Binary64.shown (x : Binary64) : String := x.text .operand

/-- A scalar. -/
def Value.shown : Value → String
  | .null => "Null"
  | .bool b => shownTerm "Bool" [if b then "true" else "false"]
  | .int n => shownTerm "Int" [toString n.toInt]
  | .float x => shownTerm "Float" [x.shown]
  | .text s => shownTerm "String" [escapedText s]

/-- A position. -/
def Coordinate.shown (c : Coordinate) : String := shownTerm "Coordinate" [c.x.shown, c.y.shown]

namespace Geometry

/-- A line of positions. -/
def shownLine (line : List Coordinate) : String := shownList (line.map Coordinate.shown)

/-- The rings of a polygon. -/
def shownPolygon (rings : List (List Coordinate)) : String := shownList (rings.map shownLine)

/-- A geometry. -/
def shown : Geometry → String
  | .point c => shownTerm "Point" [c.shown]
  | .lineString line => shownTerm "LineString" [shownLine line]
  | .polygon rings => shownTerm "Polygon" [shownPolygon rings]
  | .multiPolygon polygons => shownTerm "MultiPolygon" [shownList (polygons.map shownPolygon)]
  | .envelope e =>
    shownRecord "Envelope" [("min_x", e.minX.shown), ("min_y", e.minY.shown),
      ("max_x", e.maxX.shown), ("max_y", e.maxY.shown)]

end Geometry

/-- An end of an interval. -/
def IntervalBound.shown : IntervalBound → String
  | .unbounded => "Open"
  | .instant t => shownTerm "Instant" [t.text]
  | .date d => shownTerm "Date" [d.text]

/-- A temporal literal. -/
def TemporalLiteral.shown : TemporalLiteral → String
  | .instant t => shownTerm "Instant" [t.text]
  | .date d => shownTerm "Date" [d.text]
  | .interval start stop => shownTerm "Interval" [start.shown, stop.shown]

/-! ## Operands -/

/-- A function. -/
def ScalarFunction.shown : ScalarFunction → String
  | .upper => "Upper"
  | .lower => "Lower"
  | .caseInsensitive => "Casei"
  | .accentInsensitive => "Accenti"
  | .position => "Position"

/-- A relation between arrays. -/
def ArrayRelation.shown : ArrayRelation → String
  | .contains => "Contains"
  | .containedBy => "ContainedBy"
  | .equals => "Equals"
  | .overlaps => "Overlaps"

namespace Operand

mutual
/-- An operand. -/
def shown : Operand → String
  | .property name => shownTerm "Property" [escapedText name]
  | .literal value => shownTerm "Literal" [value.shown]
  | .geometry value => shownTerm "Geometry" [value.shown]
  | .temporal value => shownTerm "Temporal" [value.shown]
  | .interval start stop =>
    shownRecord "Interval" [("start", start.shown), ("end", stop.shown)]
  | .array values => shownTerm "Array" [shownList (values.map Value.shown)]
  | .apply function args =>
    shownRecord "Function" [("function", function.shown), ("args", shownList (shownOfList args))]

/-- A list of operands. -/
def shownOfList : List Operand → List String
  | [] => []
  | operand :: rest => operand.shown :: shownOfList rest
end

mutual
/-- What a message calls an operand: the property it reads, through functions, or the operand
itself. -/
def subject : Operand → String
  | .property name => name
  | .apply _ args => subjectOfFirst args
  | operand => operand.shown

/-- What a message calls the first operand of a list. -/
def subjectOfFirst : List Operand → String
  | [] => ""
  | operand :: _ => operand.subject
end

end Operand

end FeatureStore
