import FeatureStore.Json.Basic

/-!
# Records and variants in JSON documents

How values of the library are laid out in documents. A record is an object
whose unknown fields are ignored and whose known ones stand at most once, or an
array of its fields in order. A tagged variant is a record with a field that
names the variant. A plain variant is an object with the variant's name as its
only key, or the bare name for a variant without data. Only absent data is
`null`: a number never stands for a string, nor a string for a number.

A tagged variant is taken in as a whole before its name is known. So even the
fields that are ignored in it have to be readable; outside, what is ignored may
be anything. Within a tagged variant two more forms are understood: a nested
tagged variant named by its number, and an empty object for absent data. The
readers that differ there are told the `Place` of their document.
-/

namespace FeatureStore.Json

mutual
/-- How many containers lie inside each other at most. -/
def depth : Json → Nat
  | .array items => itemsDepth items + 1
  | .object fields => fieldsDepth fields + 1
  | _ => 0

/-- The greatest depth of the items of an array. -/
def itemsDepth : List Json → Nat
  | [] => 0
  | item :: rest => max item.depth (itemsDepth rest)

/-- The greatest depth of the values of an object. -/
def fieldsDepth : List (String × Json) → Nat
  | [] => 0
  | (_, value) :: rest => max value.depth (fieldsDepth rest)
end

mutual
/-- No part of the document is unreadable. -/
def isReadable : Json → Bool
  | .unreadable => false
  | .array items => itemsReadable items
  | .object fields => fieldsReadable fields
  | _ => true

/-- All items of an array are readable. -/
def itemsReadable : List Json → Bool
  | [] => true
  | item :: rest => item.isReadable && itemsReadable rest

/-- The values of all fields of an object are readable. -/
def fieldsReadable : List (String × Json) → Bool
  | [] => true
  | (_, value) :: rest => value.isReadable && fieldsReadable rest
end

/-- Where a document stands. -/
inductive Place where
  /-- Not within a tagged variant. -/
  | free
  /-- Within the data of a tagged variant. -/
  | tagged
  deriving DecidableEq

/-- The values of a key, in order. -/
def valuesOf (key : String) (fields : List (String × Json)) : List Json :=
  fields.filterMap fun (k, v) => if k = key then some v else none

/-- The value of a key that may stand at most once. -/
def field? (key : String) (fields : List (String × Json)) : Option (Option Json) :=
  match valuesOf key fields with
  | [] => some none
  | [v] => some (some v)
  | _ => none

/-- The values of the named fields of a record, in the order of the names. -/
def record? (names : List String) : Json → Option (List (Option Json))
  | .object fields => names.mapM (field? · fields)
  | .array items =>
    if items.length ≤ names.length then
      some (items.map some ++ List.replicate (names.length - items.length) none)
    else none
  | _ => none

/-- The name of a variant from its tag: the name itself or, within another tagged variant, its
number in the list of all names. -/
def tagName? (place : Place) (names : List String) : Json → Option String
  | .string name => some name
  | .integer (.ofNat n) => if place = .tagged then names[n]? else none
  | _ => none

/-- A tagged variant: its name, which is one of `names` if given by number, and the record of
its data. -/
def tagged? (place : Place) (tag : String) (names : List String) (json : Json) :
    Option (String × Json) :=
  if place = .free ∧ json.isReadable = false then none
  else match json with
    | .object fields =>
      match field? tag fields with
      | some (some value) =>
        (tagName? place names value).map (·, .object (fields.filter fun f => f.1 != tag))
      | _ => none
    | .array (value :: rest) => (tagName? place names value).map (·, .array rest)
    | _ => none

/-- A plain variant: its name and its data, if there are any. -/
def variant? : Json → Option (String × Option Json)
  | .string name => some (name, none)
  | .object [(name, data)] => some (name, some data)
  | _ => none

/-- No data: nothing at all, `null` or, within a tagged variant, an empty object. -/
def isUnit (place : Place) : Option Json → Bool
  | none => true
  | some .null => true
  | some (.object []) => place == .tagged
  | some _ => false

/-- A string. -/
def string? : Json → Option String
  | .string s => some s
  | _ => none

/-- A truth value. -/
def bool? : Json → Option Bool
  | .bool b => some b
  | _ => none

/-- An array. -/
def array? : Json → Option (List Json)
  | .array items => some items
  | _ => none

/-- A natural number below a limit. -/
def natBelow? (limit : Nat) : Json → Option Nat
  | .integer (.ofNat n) => if n < limit then some n else none
  | _ => none

/-- A floating point number; an integer stands for the nearest one. -/
def float? : Json → Option Binary64
  | .integer n => some (Binary64.ofInt n)
  | .float x => some x
  | _ => none

/-- A field that has to be there. -/
def required {α : Type} (read : Json → Option α) : Option Json → Option α
  | some value => read value
  | none => none

/-- A field with a default. -/
def withDefault {α : Type} (fallback : α) (read : Json → Option α) : Option Json → Option α
  | some value => read value
  | none => some fallback

/-- A field that may be absent or `null`. -/
def optional {α : Type} (read : Json → Option α) : Option Json → Option (Option α)
  | some .null => some none
  | some value => (read value).map some
  | none => some none

/-- An array of values of one kind. -/
def list? {α : Type} (read : Json → Option α) : Json → Option (List α)
  | .array items => items.mapM read
  | _ => none

/-- A name out of a table of names. -/
def named? {α : Type} (place : Place) (table : List (String × α)) (json : Json) : Option α :=
  match variant? json with
  | some (name, data) => if isUnit place data then table.lookup name else none
  | none => none

/-- An optional value as a document. -/
def ofOption {α : Type} (write : α → Json) : Option α → Json
  | some value => write value
  | none => .null

end FeatureStore.Json
