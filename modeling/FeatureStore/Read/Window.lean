import FeatureStore.Sql.Membership

/-!
# Windows

Which part of the features a query reads: how many, from which on, in which
order, under which filter, and, once it is known, between which root sort keys.
-/

namespace FeatureStore

/-- The label of the root sort key in the rows of a statement. -/
def rootKeyLabel : String := "SKEY"

/-- The beginning of the labels of the reader's sort keys. -/
def readerKeyLabel : String := "CSKEY"

/-- The label of a reader's sort key. -/
def readerKeyName (index : Nat) : String := readerKeyLabel ++ "_" ++ toString index

/-- The part of the features that a query reads. -/
structure Window where
  /-- The greatest number of features, zero for all. -/
  limit : Nat
  /-- The number of features left out at the beginning. -/
  offset : Nat
  sortKeys : List SortKey
  filter : Option Filter
  /-- The filter asks for one identifier. -/
  isLookup : Bool
  /-- The first and the last root sort key of the page. -/
  keyRange : Option (Value × Value)
  deriving Inhabited

/-- The window that a query asks for, with the limit that applies. -/
def Window.ofQuery (query : Query) (limit : Nat) : Window :=
  ⟨limit, query.offset, query.sortKeys, query.effectiveFilter, query.isLookup, none⟩

/-- How many rows a select gives, and how many it leaves out before. -/
structure Paging where
  limit : Nat
  offset : Nat
  deriving DecidableEq, Repr, Inhabited

namespace Paging

/-- The text of a paging; zero says nothing. -/
def text (p : Paging) : String :=
  (if p.limit = 0 then "" else Dialect.limitText p.limit) ++
    (if p.offset = 0 then "" else Dialect.offsetText p.offset)

/-- All rows are given. -/
def isAll (p : Paging) : Bool := p.limit == 0 && p.offset == 0

end Paging

/-- The paging of a window. -/
def Window.paging (w : Window) : Paging := ⟨w.limit, w.offset⟩

/-- A sort key of the reader: a column of the root table and a direction. -/
structure ReaderKey where
  column : String
  descending : Bool
  deriving DecidableEq, Repr, Inhabited

namespace ReaderKey

/-- What stands behind an ordering expression. -/
def direction (dialect : Dialect) (key : ReaderKey) : String :=
  (if key.descending then " DESC" else "") ++ dialect.missingOrder key.descending

/-- The key with its label, selected from the root table. -/
def select (root : Alias) (key : ReaderKey) (index : Nat) : Sql :=
  Sql.column root key.column ++ Sql.ofText (" AS " ++ readerKeyName index)

end ReaderKey

namespace Storage

/-- The sort keys of a reader as columns of the root table. -/
def readerKeys (s : Storage) (keys : List SortKey) : Except Error (List ReaderKey) :=
  keys.mapM fun key => return ⟨← s.sortColumn key.field, key.descending⟩

end Storage

end FeatureStore
