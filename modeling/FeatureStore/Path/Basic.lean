import FeatureStore.Filter.Basic

/-!
# Source paths

A source path names the tables on the way from the root table of a feature type
to a table, and columns of the last one. Each table is written as a segment with
the join to the table before it and flags that change its keys, its kind of join
and its rows.
-/

namespace FeatureStore

/-- The text inside the name of a table that marks it as a junction. -/
def junctionMarker : String := "_2_"

/-- The column that keys a table unless a flag says otherwise. -/
def defaultKey : String := "id"

/-- The columns that a join equates: one of the table before, one of the table joined. -/
structure JoinKeys where
  sourceField : String
  targetField : String
  deriving DecidableEq, Repr, Inhabited

/-- How rows without a partner are treated by a join. -/
inductive JoinKind where
  /-- They are left out. -/
  | inner
  /-- They are kept. -/
  | left
  deriving DecidableEq, Repr, Inhabited

/-- One table of a source path. -/
structure TableSegment where
  name : String
  /-- The join to the table before. -/
  join : Option JoinKeys
  /-- The sort key, where a flag gives one. -/
  ownSortKey : Option String
  /-- The primary key, where a flag gives one. -/
  ownPrimaryKey : Option String
  /-- The sort key tells rows apart. -/
  sortKeyUnique : Bool
  joinKind : JoinKind
  /-- A condition on the rows of the table. -/
  filter : Option Filter
  /-- The segment as written. -/
  raw : String
  deriving Inhabited

namespace TableSegment

/-- The segment of a name without join and flags. -/
def plain (name raw : String) (join : Option JoinKeys) : TableSegment :=
  ⟨name, join, none, none, true, .inner, none, raw⟩

/-- A part that stands somewhere in a list of characters. -/
def occursIn (part : List Char) : List Char → Bool
  | [] => part.isEmpty
  | c :: rest => part.isPrefixOf (c :: rest) || occursIn part rest

/-- The table links the rows of two others. -/
def isJunction (s : TableSegment) : Bool := occursIn junctionMarker.toList s.name.toList

/-- The column that rows are sorted by. -/
def sortKey (s : TableSegment) : String := s.ownSortKey.getD defaultKey

/-- The column that identifies rows. -/
def primaryKey (s : TableSegment) : String := s.ownPrimaryKey.getD defaultKey

/-- Some flag differs from its default. -/
def hasFlags (s : TableSegment) : Bool :=
  s.ownSortKey.isSome || s.ownPrimaryKey.isSome || !s.sortKeyUnique || s.joinKind != .inner ||
    s.filter.isSome

end TableSegment

/-- A source path: the tables from the root down, and columns of the last of them. Without
columns it names an object. -/
structure SourcePath where
  /-- The path as written, without blanks around it and slashes in front. -/
  raw : String
  root : TableSegment
  /-- The tables below the root. -/
  nested : List TableSegment
  columns : List String
  deriving Inhabited

namespace SourcePath

/-- All tables, the root first. -/
def tables (p : SourcePath) : List TableSegment := p.root :: p.nested

/-- The path names a table rather than columns. -/
def isObject (p : SourcePath) : Bool := p.columns.isEmpty

/-- The part of the path that names tables. -/
def tablePath (p : SourcePath) : String := "/".intercalate (p.tables.map TableSegment.raw)

end SourcePath

end FeatureStore
