import FeatureStore.Decimal.Shortest
import FeatureStore.Json.Record

/-!
# Geometry literals

Points, lines, polygons and boxes in the plane, and their well-known text. A box
is written as the rectangle around it; one whose left side lies right of its
right side crosses the antimeridian and is written as two rectangles
(`Geometry.unwrapped`).
-/

namespace FeatureStore

/-- A position in the plane. -/
structure Coordinate where
  x : Binary64
  y : Binary64
  deriving DecidableEq

/-- A box with sides parallel to the axes. -/
structure Envelope where
  minX : Binary64
  minY : Binary64
  maxX : Binary64
  maxY : Binary64
  deriving DecidableEq

/-- A geometry literal. A polygon is its outer ring followed by its holes. -/
inductive Geometry where
  | point (position : Coordinate)
  | lineString (positions : List Coordinate)
  | polygon (rings : List (List Coordinate))
  | multiPolygon (polygons : List (List (List Coordinate)))
  | envelope (box : Envelope)
  deriving DecidableEq

namespace Coordinate

/-- The position in well-known text. -/
def wellKnown (c : Coordinate) : String := c.x.plainText ++ " " ++ c.y.plainText

end Coordinate

/-- The closed ring around a box. -/
def Envelope.ring (e : Envelope) : List Coordinate :=
  [⟨e.minX, e.minY⟩, ⟨e.maxX, e.minY⟩, ⟨e.maxX, e.maxY⟩, ⟨e.minX, e.maxY⟩, ⟨e.minX, e.minY⟩]

/-- Texts in parentheses with commas between them. -/
def tupleText (parts : List String) : String := "(" ++ ",".intercalate parts ++ ")"

namespace Geometry

/-- A ring in well-known text. -/
def ringText (ring : List Coordinate) : String := tupleText (ring.map Coordinate.wellKnown)

/-- A polygon in well-known text, without its keyword. -/
def polygonText (rings : List (List Coordinate)) : String := tupleText (rings.map ringText)

/-- The well-known text of a geometry. -/
def wellKnown : Geometry → String
  | .point c => "POINT(" ++ c.wellKnown ++ ")"
  | .lineString cs => "LINESTRING" ++ ringText cs
  | .polygon rings => "POLYGON" ++ polygonText rings
  | .multiPolygon ps => "MULTIPOLYGON" ++ tupleText (ps.map polygonText)
  | .envelope e => "POLYGON" ++ polygonText [e.ring]

/-- A box across the antimeridian as the rectangles on its two sides; other geometries as they
are. -/
def unwrapped : Geometry → Geometry
  | .envelope e =>
    if e.maxX.less e.minX then
      let meridian : Binary64 := Binary64.ofInt 180
      let before : Envelope := { e with maxX := meridian }
      let behind : Envelope := { e with minX := meridian.neg }
      .multiPolygon [[before.ring], [behind.ring]]
    else .envelope e
  | g => g

end Geometry

/-! ## Documents -/

/-- A position from an array of exactly two numbers. -/
def Coordinate.ofJson? : Json → Option Coordinate
  | .array [x, y] => do return ⟨← x.float?, ← y.float?⟩
  | _ => none

/-- The document of a position. -/
def Coordinate.toJson (c : Coordinate) : Json := .array [.float c.x, .float c.y]

/-- A box from the record of its four sides. -/
def Envelope.ofJson? (json : Json) : Option Envelope := do
  match ← json.record? ["min_x", "min_y", "max_x", "max_y"] with
  | [minX, minY, maxX, maxY] =>
    return ⟨← Json.required Json.float? minX, ← Json.required Json.float? minY,
      ← Json.required Json.float? maxX, ← Json.required Json.float? maxY⟩
  | _ => none

/-- The document of a box. -/
def Envelope.toJson (e : Envelope) : Json :=
  .object [("min_x", .float e.minX), ("min_y", .float e.minY), ("max_x", .float e.maxX),
    ("max_y", .float e.maxY)]

namespace Geometry

/-- A geometry from the variant named for its kind. -/
def ofJson? (json : Json) : Option Geometry := do
  match ← json.variant? with
  | ("point", some data) => return .point (← Coordinate.ofJson? data)
  | ("line_string", some data) => return .lineString (← Json.list? Coordinate.ofJson? data)
  | ("polygon", some data) => return .polygon (← Json.list? (Json.list? Coordinate.ofJson?) data)
  | ("multi_polygon", some data) =>
    return .multiPolygon (← Json.list? (Json.list? (Json.list? Coordinate.ofJson?)) data)
  | ("envelope", some data) => return .envelope (← Envelope.ofJson? data)
  | _ => none

/-- The document of a ring. -/
def ringJson (ring : List Coordinate) : Json := .array (ring.map Coordinate.toJson)

/-- The document of a polygon. -/
def polygonJson (rings : List (List Coordinate)) : Json := .array (rings.map ringJson)

/-- The document of a geometry. -/
def toJson : Geometry → Json
  | .point c => .object [("point", c.toJson)]
  | .lineString cs => .object [("line_string", ringJson cs)]
  | .polygon rings => .object [("polygon", polygonJson rings)]
  | .multiPolygon ps => .object [("multi_polygon", .array (ps.map polygonJson))]
  | .envelope e => .object [("envelope", e.toJson)]

end Geometry

end FeatureStore
