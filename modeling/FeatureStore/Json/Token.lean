import FeatureStore.Json.Basic

/-!
# Tokens of a JSON text

The text of a document is read one character at a time by a machine whose state
is the token under way (`LexState`). A step yields the tokens that the character
completes: none, one, or two where a number or word ends at a punctuation mark.

A string is held as code units until it ends. Two escapes that are the halves of
a surrogate pair are one character; a half by itself leaves the string without a
value (`decodeUnits?`).
-/

namespace FeatureStore.Json

/-- A token: a punctuation mark, a string with its value if it has one, or a number or word that
is a value by itself. -/
inductive Token where
  | openBracket
  | closeBracket
  | openBrace
  | closeBrace
  | comma
  | colon
  | text (value : Option String)
  | scalar (value : Json)
  deriving Inhabited

/-- The token under way; characters or code units read so far are held last one first. -/
inductive LexState where
  /-- Between tokens. -/
  | between
  /-- Inside a word such as `null`. -/
  | word (letters : List Char)
  /-- Inside a number. -/
  | number (chars : List Char)
  /-- Inside a string. -/
  | quoted (units : List Nat)
  /-- Inside a string, behind a backslash. -/
  | escape (units : List Nat)
  /-- Inside a string, in a four digit escape of value `value` with `left` digits to come. -/
  | code (units : List Nat) (value left : Nat)
  deriving Inhabited

/-- The value of a hexadecimal digit. -/
def hexValue? (c : Char) : Option Nat :=
  if '0' ≤ c ∧ c ≤ '9' then some (c.toNat - '0'.toNat)
  else if 'a' ≤ c ∧ c ≤ 'f' then some (c.toNat - 'a'.toNat + 10)
  else if 'A' ≤ c ∧ c ≤ 'F' then some (c.toNat - 'A'.toNat + 10)
  else none

/-- The character of an escape of one letter. -/
def shortEscape? : Char → Option Char
  | '"' => some '"'
  | '\\' => some '\\'
  | '/' => some '/'
  | 'b' => some '\x08'
  | 'f' => some '\x0c'
  | 'n' => some '\n'
  | 'r' => some '\r'
  | 't' => some '\t'
  | _ => none

/-- The value of a word. -/
def readWord? (letters : List Char) : Option Json :=
  match String.ofList letters with
  | "null" => some .null
  | "true" => some (.bool true)
  | "false" => some (.bool false)
  | _ => none

/-- The first half of a surrogate pair. -/
def isHighHalf (unit : Nat) : Bool := decide (0xD800 ≤ unit) && decide (unit ≤ 0xDBFF)

/-- The second half of a surrogate pair. -/
def isLowHalf (unit : Nat) : Bool := decide (0xDC00 ≤ unit) && decide (unit ≤ 0xDFFF)

/-- The characters of code units. A first half of a surrogate pair needs a second one behind it,
and a second half a first one before it. -/
def decodeUnits? : List Nat → Option (List Char)
  | [] => some []
  | [unit] => if isHighHalf unit || isLowHalf unit then none else some [Char.ofNat unit]
  | unit :: next :: rest =>
    if isHighHalf unit then
      if isLowHalf next then
        (decodeUnits? rest).map
          (Char.ofNat (0x10000 + (unit - 0xD800) * 0x400 + (next - 0xDC00)) :: ·)
      else none
    else if isLowHalf unit then none
    else (decodeUnits? (next :: rest)).map (Char.ofNat unit :: ·)

/-- One character between tokens. -/
def beginToken? (c : Char) : Option (LexState × List Token) :=
  if c = ' ' ∨ c = '\t' ∨ c = '\n' ∨ c = '\r' then some (.between, [])
  else if c = '[' then some (.between, [.openBracket])
  else if c = ']' then some (.between, [.closeBracket])
  else if c = '{' then some (.between, [.openBrace])
  else if c = '}' then some (.between, [.closeBrace])
  else if c = ',' then some (.between, [.comma])
  else if c = ':' then some (.between, [.colon])
  else if c = '"' then some (.quoted [], [])
  else if c = '-' ∨ c.isDigit then some (.number [c], [])
  else if c.isAlpha then some (.word [c], [])
  else none

/-- A character that can continue a number token. -/
def continuesNumber (c : Char) : Bool :=
  c.isDigit || c == '.' || c == 'e' || c == 'E' || c == '+' || c == '-'

/-- One character: the next state and the tokens completed by it. -/
def lexStep? : LexState → Char → Option (LexState × List Token)
  | .between, c => beginToken? c
  | .word letters, c =>
    if c.isAlpha then some (.word (c :: letters), [])
    else do
      let value ← readWord? letters.reverse
      let (state, tokens) ← beginToken? c
      return (state, .scalar value :: tokens)
  | .number chars, c =>
    if continuesNumber c then some (.number (c :: chars), [])
    else do
      let value ← readNumber? chars.reverse
      let (state, tokens) ← beginToken? c
      return (state, .scalar value :: tokens)
  | .quoted units, c =>
    if c = '"' then some (.between, [.text ((decodeUnits? units.reverse).map String.ofList)])
    else if c = '\\' then some (.escape units, [])
    else if c.toNat < 0x20 then none
    else some (.quoted (c.toNat :: units), [])
  | .escape units, c =>
    if c = 'u' then some (.code units 0 4, [])
    else (shortEscape? c).map fun e => (.quoted (e.toNat :: units), [])
  | .code units value left, c =>
    (hexValue? c).map fun digit =>
      let value := 16 * value + digit
      (if left ≤ 1 then .quoted (value :: units) else .code units value (left - 1), [])

/-- The tokens completed by the end of the text. -/
def lexEnd? : LexState → Option (List Token)
  | .between => some []
  | .word letters => (readWord? letters.reverse).map ([.scalar ·])
  | .number chars => (readNumber? chars.reverse).map ([.scalar ·])
  | _ => none

/-- The tokens of a text from a state on. -/
def lexFrom? (state : LexState) : List Char → Option (List Token)
  | [] => lexEnd? state
  | c :: rest => do
    let (next, tokens) ← lexStep? state c
    let more ← lexFrom? next rest
    return tokens ++ more

/-- The tokens of a text. -/
def tokens? (cs : List Char) : Option (List Token) := lexFrom? .between cs

end FeatureStore.Json
