import FeatureStore.Decimal.Shortest
import FeatureStore.Json.Basic

/-!
# Writing a JSON text

A document as text, on one line (`Json.compact`) or indented by two spaces with
the fields of every object sorted by key (`Json.pretty`). In strings only the
quote, the backslash and control characters are escaped.
-/

namespace FeatureStore.Json

/-- A hexadecimal digit, in lower case. -/
def hexDigit (n : Nat) : Char := (Nat.digitChar n).toLower

/-- A character inside a string. -/
def escapeChar (c : Char) : List Char :=
  if c = '"' then ['\\', '"']
  else if c = '\\' then ['\\', '\\']
  else if c = '\n' then ['\\', 'n']
  else if c = '\r' then ['\\', 'r']
  else if c = '\t' then ['\\', 't']
  else if c = '\x08' then ['\\', 'b']
  else if c = '\x0c' then ['\\', 'f']
  else if c.toNat < 0x20 then
    ['\\', 'u', '0', '0', hexDigit (c.toNat / 16), hexDigit (c.toNat % 16)]
  else [c]

/-- A string in quotes. -/
def quote (s : String) : String :=
  String.ofList ('"' :: s.toList.flatMap escapeChar ++ ['"'])

/-- A value that holds no others. What has no text of its own is `null`. -/
def scalarText : Json → String
  | .unreadable => "null"
  | .null => "null"
  | .bool true => "true"
  | .bool false => "false"
  | .integer n => toString n
  | .float x => if x.isFinite then x.text .document else "null"
  | .string s => quote s
  | .array _ => "[]"
  | .object _ => "\x7b\x7d"

mutual
/-- A document on one line. -/
def compact : Json → String
  | .array items => "[" ++ ",".intercalate (compactItems items) ++ "]"
  | .object fields => "\x7b" ++ ",".intercalate (compactFields fields) ++ "\x7d"
  | value => scalarText value

/-- The items of an array on one line. -/
def compactItems : List Json → List String
  | [] => []
  | item :: rest => compact item :: compactItems rest

/-- The fields of an object on one line. -/
def compactFields : List (String × Json) → List String
  | [] => []
  | (key, value) :: rest => (quote key ++ ":" ++ compact value) :: compactFields rest
end

/-- Members of a container, one a line, between its brackets. -/
def block (opening closing : String) (depth : Nat) (members : List String) : String :=
  let pad (n : Nat) : String := "".pushn ' ' (2 * n)
  match members with
  | [] => opening ++ closing
  | _ =>
    opening ++ "\n" ++ ",\n".intercalate (members.map (pad (depth + 1) ++ ·)) ++ "\n" ++
      pad depth ++ closing

/-- A field before the one it is sorted before. -/
def insertField (field : String × String) : List (String × String) → List (String × String)
  | [] => [field]
  | other :: rest =>
    if other.1 ≤ field.1 then other :: insertField field rest else field :: other :: rest

/-- Fields sorted by key, in the order of code points. -/
def sortFields (fields : List (String × String)) : List (String × String) :=
  fields.foldr insertField []

mutual
/-- A document over several lines, inside `depth` containers. -/
def prettyAt (depth : Nat) : Json → String
  | .array items => block "[" "]" depth (prettyItems depth items)
  | .object fields =>
    block "\x7b" "\x7d" depth
      ((sortFields (prettyFields depth fields)).map fun (key, text) => quote key ++ ": " ++ text)
  | value => scalarText value

/-- The items of an array. -/
def prettyItems (depth : Nat) : List Json → List String
  | [] => []
  | item :: rest => prettyAt (depth + 1) item :: prettyItems depth rest

/-- The fields of an object with the texts of their values. -/
def prettyFields (depth : Nat) : List (String × Json) → List (String × String)
  | [] => []
  | (key, value) :: rest => (key, prettyAt (depth + 1) value) :: prettyFields depth rest
end

/-- A document over several lines. -/
def pretty (document : Json) : String := prettyAt 0 document

end FeatureStore.Json
