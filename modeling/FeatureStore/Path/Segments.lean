import FeatureStore.Error
import FeatureStore.Text.Split

/-!
# Segments of a path

A path is cut into segments at the slashes outside brackets and braces. One
depth counts both kinds of brackets; it must never fall below zero and must end
at zero. One path begins another if its segments are the first segments of the
other, leading slashes aside (`isPathPrefix`).
-/

namespace FeatureStore

/-- A mark that opens a bracket or brace. -/
def isOpening (c : Char) : Bool := c == '[' || c == '\x7b'

/-- A mark that closes a bracket or brace. -/
def isClosing (c : Char) : Bool := c == ']' || c == '\x7d'

/-- The segments of a text that begins inside `depth` brackets; the first one continues the
segment that the text begins in. -/
def segmentsFrom (depth : Nat) : List Char → Except MappingFault (List (List Char))
  | [] => if depth = 0 then .ok [[]] else .error .unclosedBrackets
  | c :: rest =>
    if isOpening c then (segmentsFrom (depth + 1) rest).map (consFirst c)
    else if isClosing c then
      match depth with
      | 0 => .error (.unbalanced c)
      | outer + 1 => (segmentsFrom outer rest).map (consFirst c)
    else if c = '/' ∧ depth = 0 then (segmentsFrom 0 rest).map ([] :: ·)
    else (segmentsFrom depth rest).map (consFirst c)

/-- The segments of a text. -/
def segments (cs : List Char) : Except MappingFault (List (List Char)) := segmentsFrom 0 cs

/-- Without the slashes in front. -/
def dropSlashes (cs : List Char) : List Char := cs.dropWhile (· == '/')

/-- A path without the slashes in front. -/
def withoutSlashes (path : String) : String := String.ofList (dropSlashes path.toList)

/-- The segments of one path are the first segments of another. -/
def isPathPrefix (start path : String) : Bool :=
  match segments (dropSlashes start.toList), segments (dropSlashes path.toList) with
  | .ok first, .ok all => first.isPrefixOf all
  | _, _ => false

end FeatureStore
