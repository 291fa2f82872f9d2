import FeatureStore.Json.Token

/-!
# Reading a JSON text

The tokens of a text are put together by a machine with a stack of the arrays
and objects that are still open (`ReadState`). One token is one step, so the
reader is a recursion on the list of tokens. A container is data if it closes
inside less than `depthLimit` others and, in an object, all keys have a value.
-/

namespace FeatureStore.Json

/-- The fields of an object under way, last one first; a key may have no value. -/
abbrev OpenFields := List (Option String × Json)

/-- An open container with its finished members, last one first. An object also holds the key
whose value is due. -/
inductive Frame where
  | array (items : List Json)
  | object (fields : OpenFields) (key : Option String)
  deriving Inhabited

/-- What the next token has to be. -/
inductive Expected where
  /-- A value. -/
  | value
  /-- The first item of an array, or its end. -/
  | firstItem
  /-- The first key of the object with no fields yet, or its end. -/
  | firstKey
  /-- A further key of the object with these fields. -/
  | key (fields : OpenFields)
  /-- The colon behind a key. -/
  | colon (fields : OpenFields) (key : Option String)
  /-- A comma or the end of the innermost array. -/
  | afterItem (items : List Json)
  /-- A comma or the end of the innermost object. -/
  | afterField (fields : OpenFields)
  /-- Nothing: the document is complete. -/
  | nothing (document : Json)
  deriving Inhabited

/-- The open containers around the place reached, innermost first, and what comes next. -/
structure ReadState where
  frames : List Frame
  expected : Expected
  deriving Inhabited

/-- The number of containers that may be open at once around data. -/
def depthLimit : Nat := 127

/-- A container closes here inside less than `depthLimit` others. -/
def withinDepth (frames : List Frame) : Bool := (frames.drop (depthLimit - 1)).isEmpty

/-- The object with these fields, last one first. -/
def ofOpenFields (fields : OpenFields) : Json :=
  match fields.reverse.mapM fun (key, value) => key.map (·, value) with
  | some known => .object known
  | none => .unreadable

/-- The state behind a complete value. -/
def deliver (value : Json) : List Frame → ReadState
  | [] => ⟨[], .nothing value⟩
  | .array items :: frames => ⟨frames, .afterItem (value :: items)⟩
  | .object fields key :: frames => ⟨frames, .afterField ((key, value) :: fields)⟩

/-- The state behind a complete container. -/
def deliverContainer (value : Json) (frames : List Frame) : ReadState :=
  deliver (if withinDepth frames then value else .unreadable) frames

/-- The state behind the start of a value. -/
def beginValue? (frames : List Frame) : Token → Option ReadState
  | .scalar value => some (deliver value frames)
  | .text value => some (deliver ((value.map .string).getD .unreadable) frames)
  | .openBracket => some ⟨frames, .firstItem⟩
  | .openBrace => some ⟨frames, .firstKey⟩
  | _ => none

/-- One token. -/
def readStep? (state : ReadState) (token : Token) : Option ReadState :=
  match state.expected, token with
  | .value, t => beginValue? state.frames t
  | .firstItem, .closeBracket => some (deliverContainer (.array []) state.frames)
  | .firstItem, t => beginValue? (.array [] :: state.frames) t
  | .firstKey, .closeBrace => some (deliverContainer (.object []) state.frames)
  | .firstKey, .text key => some ⟨state.frames, .colon [] key⟩
  | .key fields, .text key => some ⟨state.frames, .colon fields key⟩
  | .colon fields key, .colon => some ⟨.object fields key :: state.frames, .value⟩
  | .afterItem items, .comma => some ⟨.array items :: state.frames, .value⟩
  | .afterItem items, .closeBracket =>
    some (deliverContainer (.array items.reverse) state.frames)
  | .afterField fields, .comma => some ⟨state.frames, .key fields⟩
  | .afterField fields, .closeBrace =>
    some (deliverContainer (ofOpenFields fields) state.frames)
  | _, _ => none

/-- The state after a list of tokens. -/
def readTokens? (state : ReadState) : List Token → Option ReadState
  | [] => some state
  | t :: rest => (readStep? state t).bind fun next => readTokens? next rest

/-- The document written by a list of tokens. -/
def ofTokens? (tokens : List Token) : Option Json :=
  match readTokens? ⟨[], .value⟩ tokens with
  | some ⟨_, .nothing document⟩ => some document
  | _ => none

/-- The document written by a list of characters. -/
def ofChars? (cs : List Char) : Option Json := (tokens? cs).bind ofTokens?

/-- The document written by a text. -/
def parse? (text : String) : Option Json := ofChars? text.toList

end FeatureStore.Json
