import FeatureStore.Filter.Document
import FeatureStore.Json.Reader
import FeatureStore.Path.Basic
import FeatureStore.Path.Segments
import FeatureStore.Text.Blank

/-!
# Reading source paths

A segment is an optional join in brackets, the name of a table and flags in
braces. The last segment of several is a list of columns unless it begins with a
join or has a brace. Names are identifiers: letters and digits of ASCII,
underscores and points.
-/

namespace FeatureStore

/-- A character of an identifier. -/
def isIdentifierChar (c : Char) : Bool := c.isAlphanum || c == '_' || c == '.'

/-- A name that may stand in a statement as it is. -/
def isIdentifier (cs : List Char) : Bool := !cs.isEmpty && cs.all isIdentifierChar

namespace TableSegment

/-- The join in front of a segment and what follows it. -/
def readJoin? (raw : List Char) :
    Except MappingFault (Option JoinKeys × List Char) :=
  match raw with
  | '[' :: inner =>
    match cutAt ']' inner with
    | none => .error (.unclosedJoin (String.ofList raw))
    | some (condition, rest) =>
      match cutAt '=' condition with
      | none => .error (.malformedJoin (String.ofList condition))
      | some (left, right) =>
        let source := trimChars left
        let target := trimChars right
        if isIdentifier source && isIdentifier target then
          .ok (some ⟨String.ofList source, String.ofList target⟩, rest)
        else .error (.malformedJoin (String.ofList condition))
  | _ => .ok (none, raw)

/-- The text up to the brace that closes the innermost of `depth + 1` open braces, and the text
behind it. -/
def closeBrace? (depth : Nat) : List Char → Option (List Char × List Char)
  | [] => none
  | c :: rest =>
    let more := fun inner : Nat =>
      (closeBrace? inner rest).map fun (content, behind) => (c :: content, behind)
    if c = '\x7b' then more (depth + 1)
    else if c = '\x7d' then
      match depth with
      | 0 => some ([], rest)
      | outer + 1 => more outer
    else more depth

/-- The text behind a closed brace is shorter than the text before it. -/
theorem length_of_closeBrace? {depth : Nat} {cs content behind : List Char}
    (h : closeBrace? depth cs = some (content, behind)) : behind.length < cs.length := by
  induction cs generalizing depth content with
  | nil => simp [closeBrace?] at h
  | cons c rest ih =>
    have step : ∀ inner : Nat,
        ((closeBrace? inner rest).map fun (x, y) => (c :: x, y)) = some (content, behind) →
          behind.length < (c :: rest).length := by
      intro inner hm
      obtain ⟨⟨x, y⟩, hx, hy⟩ := Option.map_eq_some_iff.1 hm
      simp only [Prod.mk.injEq] at hy
      obtain ⟨-, rfl⟩ := hy
      exact Nat.lt_succ_of_lt (ih hx)
    unfold closeBrace? at h
    dsimp only at h
    split at h
    · exact step _ h
    · split at h
      · cases depth with
        | zero =>
          simp only [Option.some.injEq, Prod.mk.injEq] at h
          obtain ⟨-, rfl⟩ := h
          exact Nat.lt_succ_self _
        | succ outer => exact step _ h
      · exact step _ h

/-- The contents of the braces that a text consists of, and whether it consists of nothing
else. -/
def flagGroups (cs : List Char) : List (List Char) × Bool :=
  match cs with
  | [] => ([], true)
  | c :: rest =>
    if c = '\x7b' then
      match h : closeBrace? 0 rest with
      | none => ([], false)
      | some (content, behind) =>
        have : behind.length < (c :: rest).length :=
          Nat.lt_succ_of_lt (length_of_closeBrace? h)
        let (more, complete) := flagGroups behind
        (content :: more, complete)
    else ([], false)
termination_by cs.length
decreasing_by exact this

/-- The kind of join named by a flag, in any case of letters. -/
def readJoinKind? (value : List Char) : Option JoinKind :=
  match String.ofList (value.map Char.toUpper) with
  | "INNER" => some .inner
  | "LEFT" => some .left
  | _ => none

/-- One flag of a list. -/
def applyFlag (s : TableSegment) (flag : List Char) : Except MappingFault TableSegment :=
  match cutAt '=' flag with
  | none => .error (.invalidFlag (String.ofList flag))
  | some (left, right) =>
    let value := String.ofList (trimChars right)
    match String.ofList (trimChars left) with
    | "sortKey" => .ok { s with ownSortKey := some value }
    | "primaryKey" => .ok { s with ownPrimaryKey := some value }
    | "sortKeyUnique" =>
      match value with
      | "true" => .ok { s with sortKeyUnique := true }
      | "false" => .ok { s with sortKeyUnique := false }
      | _ => .error (.invalidUniqueness value)
    | "joinType" =>
      match readJoinKind? (trimChars right) with
      | some kind => .ok { s with joinKind := kind }
      | none => .error (.unknownJoinType value)
    | name => .error (.unknownFlag name)

/-- The content of one pair of braces: a row filter, or flags with commas between them. -/
def applyGroup (s : TableSegment) (content : List Char) : Except MappingFault TableSegment :=
  match afterStart? "filter=".toList content with
  | some document =>
    match (Json.ofChars? document).bind Filter.ofJson? with
    | some filter => .ok { s with filter := some filter }
    | none => .error .invalidRowFilter
  | none => (splitAll ',' content).foldlM applyFlag s

/-- Reads one segment of a path. -/
def read (raw : List Char) : Except MappingFault TableSegment := do
  let (join, rest) ← readJoin? raw
  let name := rest.takeWhile (· != '\x7b')
  if !isIdentifier name then throw (.invalidTable (String.ofList name))
  let (groups, complete) := flagGroups (rest.drop name.length)
  let segment ← groups.foldlM applyGroup (plain (String.ofList name) (String.ofList raw) join)
  if complete then return segment else throw (.unclosedFlags (String.ofList raw))

end TableSegment

namespace SourcePath

/-- The last of several segments lists columns. -/
def isColumnList (segment : List Char) : Bool :=
  segment.head? != some '[' && !segment.contains '\x7b'

/-- The segments that name tables and the one that lists columns, if there is one. -/
def partition (all : List (List Char)) : List (List Char) × Option (List Char) :=
  match all.getLast? with
  | some last =>
    if 1 < all.length && isColumnList last then (all.dropLast, some last) else (all, none)
  | none => (all, none)

/-- Reads a list of columns with colons between them. -/
def readColumns (list : List Char) : Except MappingFault (List String) :=
  let names := (splitAll ':' list).map trimChars
  match names.find? fun name => !isIdentifier name with
  | some bad => .error (.invalidColumn (String.ofList bad))
  | none => .ok (names.map String.ofList)

/-- Reads a path that has neither blanks around it nor slashes in front. -/
def readTrimmed (raw : List Char) : Except MappingFault SourcePath := do
  let all ← segments raw
  if all.any List.isEmpty then throw .emptySegment
  let (tableParts, columnPart) := partition all
  let tables ← tableParts.mapM TableSegment.read
  let columns ← match columnPart with
    | some list => readColumns list
    | none => .ok []
  match tables with
  | root :: nested => return ⟨String.ofList raw, root, nested, columns⟩
  | [] => throw .emptyPath

/-- Reads a source path. -/
def read (text : String) : Except Error SourcePath :=
  let raw := dropSlashes (trimChars text.toList)
  if raw.isEmpty then .error (.mapping text .emptyPath)
  else (readTrimmed raw).mapError (Error.mapping (String.ofList raw))

end SourcePath

end FeatureStore
