import FeatureStore.Decimal.Shortest
import FeatureStore.Json.Record

/-!
# Scalar values

The literals of filters: nothing, a truth value, a whole number of sixty-four
bits, a floating point number or a text. In a document a value is a bare scalar,
so the number token decides between a whole and a floating point number.
-/

namespace FeatureStore

/-- A scalar literal. -/
inductive Value where
  | null
  | bool (value : Bool)
  | int (value : Int64)
  | float (value : Binary64)
  | text (value : String)
  deriving DecidableEq, Inhabited

namespace Value

/-- Equality of values: kinds never mix, and floating point numbers compare by value. -/
def same : Value → Value → Bool
  | .null, .null => true
  | .bool a, .bool b => a == b
  | .int a, .int b => a == b
  | .float a, .float b => a.sameValue b
  | .text a, .text b => a == b
  | _, _ => false

/-- One of the values of a list. -/
def isAmong (values : List Value) (v : Value) : Bool := values.any v.same

/-- The name of the kind of a value. -/
def kindName : Value → String
  | .null => "null"
  | .bool _ => "bool"
  | .int _ => "int"
  | .float _ => "float"
  | .text _ => "string"

/-- The bare text of a value. -/
def display : Value → String
  | .null => "NULL"
  | .bool b => if b then "true" else "false"
  | .int n => toString n.toInt
  | .float x => x.plainText
  | .text s => s

/-- There is no value. -/
def isNull : Value → Bool
  | .null => true
  | _ => false

/-- The truth value, if it is one. -/
def bool? : Value → Option Bool
  | .bool b => some b
  | _ => none

/-- The whole number, if it is one. -/
def int? : Value → Option Int
  | .int n => some n.toInt
  | _ => none

/-- The floating point number, or the one nearest to a whole number. -/
def float? : Value → Option Binary64
  | .float x => some x
  | .int n => some (Binary64.ofInt n.toInt)
  | _ => none

/-- The text, if it is one. -/
def text? : Value → Option String
  | .text s => some s
  | _ => none

/-- A value from its document. A whole number beyond sixty-four bits becomes the nearest floating
point number. -/
def ofJson? : Json → Option Value
  | .null => some .null
  | .bool b => some (.bool b)
  | .integer n => some (if fitsInt64 n then .int (Int64.ofInt n) else .float (Binary64.ofInt n))
  | .float x => some (.float x)
  | .string s => some (.text s)
  | .array _ => none
  | .object _ => none
  | .unreadable => none

/-- The document of a value. -/
def toJson : Value → Json
  | .null => .null
  | .bool b => .bool b
  | .int n => .integer n.toInt
  | .float x => .float x
  | .text s => .string s

end Value

end FeatureStore
