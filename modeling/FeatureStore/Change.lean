import FeatureStore.Json.Record

/-!
# Changes

What a writer asks for: the kind of change of one feature, and the operations
that stage its values row by row.
-/

namespace FeatureStore

/-- One staging operation. A path names a table, or a column below a table. -/
inductive ValueOp where
  /-- A new row of a table under the current row of its parent. -/
  | row (path : String)
  /-- A value of a column on the current row. -/
  | value (path column value : String)
  /-- No value of a column on the current row. -/
  | null (path column : String)
  deriving DecidableEq

/-- The kind of change of one feature. -/
inductive ChangeKind where
  | create
  | update (id : String)
  | delete (id : String)
  deriving DecidableEq

namespace ValueOp

/-- An operation from the name of its kind and the record of its data. -/
def ofVariant? (kind : String) (data : Json) : Option ValueOp := do
  let text := Json.required Json.string?
  match kind with
  | "row" =>
    match ← data.record? ["path"] with
    | [path] => return .row (← text path)
    | _ => none
  | "value" =>
    match ← data.record? ["path", "column", "value"] with
    | [path, column, content] =>
      return .value (← text path) (← text column) (← text content)
    | _ => none
  | "null" =>
    match ← data.record? ["path", "column"] with
    | [path, column] => return .null (← text path) (← text column)
    | _ => none
  | _ => none

/-- The names of the kinds of operations. -/
def kinds : List String := ["row", "value", "null"]

/-- An operation from its document. -/
def ofJson? (json : Json) : Option ValueOp :=
  (json.tagged? .free "op" kinds).bind fun (kind, data) => ofVariant? kind data

/-- The document of an operation. -/
def toJson : ValueOp → Json
  | .row path => .object [("op", .string "row"), ("path", .string path)]
  | .value path column content =>
    .object [("op", .string "value"), ("path", .string path), ("column", .string column),
      ("value", .string content)]
  | .null path column =>
    .object [("op", .string "null"), ("path", .string path), ("column", .string column)]

/-- A list of operations from its document. -/
def listOfJson? (json : Json) : Option (List ValueOp) := Json.list? ofJson? json

end ValueOp

namespace ChangeKind

/-- The identifier given by the caller. -/
def id? : ChangeKind → Option String
  | .create => none
  | .update id => some id
  | .delete id => some id

/-- The identifier in the record of an update or a removal. -/
def idOf? (data : Json) : Option String := do
  match ← data.record? ["id"] with
  | [id] => Json.required Json.string? id
  | _ => none

/-- A kind from its document. -/
def ofJson? (json : Json) : Option ChangeKind := do
  match ← json.variant? with
  | ("create", data) => if Json.isUnit .free data then some .create else none
  | ("update", some data) => return .update (← idOf? data)
  | ("delete", some data) => return .delete (← idOf? data)
  | _ => none

/-- The document of a kind. -/
def toJson : ChangeKind → Json
  | .create => .string "create"
  | .update id => .object [("update", .object [("id", .string id)])]
  | .delete id => .object [("delete", .object [("id", .string id)])]

end ChangeKind

end FeatureStore
