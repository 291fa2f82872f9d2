/-!
# The text of statements

A statement is written as a list of pieces: fixed text, aliases of tables, and
texts between quotes. An alias is a slot, counted from the level at which the
statement stands, so that the same pieces can stand at any level
(`Sql.render`): the tables of a statement at level zero are called A, B, C, those
of a sub-select inside it AA, AB, AC, and so on.
-/

namespace FeatureStore

/-- The letter of a number below twenty-six. -/
def capitalLetter (n : Nat) : Char := Char.ofNat ('A'.toNat + n % 26)

/-- The letters of the table with an index: A to Z, AA to AZ, BA to BZ, and so on. -/
def aliasLetters (index : Nat) : List Char :=
  if index < 26 then [capitalLetter index]
  else aliasLetters (index / 26 - 1) ++ [capitalLetter index]
termination_by index
decreasing_by omega

/-- The alias of the table with an index at a level. -/
def aliasAt (level index : Nat) : String :=
  String.ofList (List.replicate level 'A' ++ aliasLetters index)

/-- The alias of a table. -/
inductive Alias where
  /-- The table with an index in the select that stands `depth` levels inside the statement. -/
  | slot (depth index : Nat)
  /-- A fixed alias. -/
  | named (name : String)
  deriving DecidableEq, Repr, Inhabited

/-- The text of an alias in a statement at a level. -/
def Alias.text (level : Nat) : Alias → String
  | .slot depth index => aliasAt (level + depth) index
  | .named name => name

/-- A part of the text of a statement. -/
inductive Piece where
  | text (content : String)
  | alias (table : Alias)
  /-- A text between quotes, with the quotes inside it doubled. -/
  | quoted (content : String)
  /-- A text between quotes, as it is. -/
  | enclosed (content : String)
  deriving DecidableEq, Repr, Inhabited

/-- A character of a quoted text. -/
def doubleQuote (c : Char) : List Char := if c = '\'' then ['\'', '\''] else [c]

/-- A text with its quotes doubled. -/
def doubleQuotes (s : String) : String := String.ofList (s.toList.flatMap doubleQuote)

/-- The text of a piece of a statement at a level. -/
def Piece.render (level : Nat) : Piece → String
  | .text content => content
  | .alias table => table.text level
  | .quoted content => "'" ++ doubleQuotes content ++ "'"
  | .enclosed content => "'" ++ content ++ "'"

/-- The text of a statement in pieces. -/
abbrev Sql := List Piece

namespace Sql

/-- The text of a statement at a level. -/
def render (level : Nat) (sql : Sql) : String := String.join (sql.map (Piece.render level))

/-- Fixed text. -/
def ofText (s : String) : Sql := [.text s]

/-- A column of a table. -/
def column (table : Alias) (name : String) : Sql := [.alias table, .text ("." ++ name)]

/-- Fixed texts around some pieces. -/
def around (before : String) (sql : Sql) (behind : String) : Sql :=
  .text before :: sql ++ [.text behind]

/-- Some pieces in parentheses. -/
def parenthesized (sql : Sql) : Sql := around "(" sql ")"

/-- The pieces of a statement moved into a sub-select. -/
def nested (sql : Sql) : Sql :=
  sql.map fun
    | .alias (.slot depth index) => .alias (.slot (depth + 1) index)
    | piece => piece

/-- Parts with a separator between each two. -/
def separated (sep : String) : List Sql → Sql
  | [] => []
  | [part] => part
  | part :: parts => part ++ .text sep :: separated sep parts

end Sql

end FeatureStore
