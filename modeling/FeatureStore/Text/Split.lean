/-!
# Texts with separators

Cutting a list of characters at one occurrence of a separator or at all of them,
and putting the parts together again.
-/

namespace FeatureStore

/-- The parts before and behind the first separator, if there is one. -/
def cutAt (sep : Char) : List Char → Option (List Char × List Char)
  | [] => none
  | c :: rest =>
    if c = sep then some ([], rest)
    else (cutAt sep rest).map fun (before, behind) => (c :: before, behind)

/-- A character put in front of the first part. -/
def consFirst (c : Char) : List (List Char) → List (List Char)
  | [] => [[c]]
  | part :: parts => (c :: part) :: parts

/-- The parts between all separators; there is one more than separators. -/
def splitAll (sep : Char) : List Char → List (List Char)
  | [] => [[]]
  | c :: rest => if c = sep then [] :: splitAll sep rest else consFirst c (splitAll sep rest)

/-- Parts with a separator between each two. -/
def joinAll (sep : Char) : List (List Char) → List Char
  | [] => []
  | [part] => part
  | part :: parts => part ++ sep :: joinAll sep parts

/-- What follows a beginning, if the text has it. -/
def afterStart? (start : List Char) (cs : List Char) : Option (List Char) :=
  if start.isPrefixOf cs then some (cs.drop start.length) else none

end FeatureStore
