import FeatureStore.Read.Window

/-!
# The statement that fixes a page

The first statement of a read numbers the features of the page, gives their first
and last root sort key, and counts all features that match. A page in the order
of the reader has no range of root sort keys.
-/

namespace FeatureStore

/-- The statement that fixes a page. -/
structure PageStatement where
  table : String
  sortKey : String
  readerKeys : List ReaderKey
  restriction : Restriction
  paging : Paging
  /-- All features that match are counted. -/
  countsMatched : Bool
  deriving Inhabited

namespace PageStatement

/-- The keys that order the page, by label. The root sort key comes last. -/
def order (dialect : Dialect) (p : PageStatement) : List String :=
  (p.readerKeys.zipIdx.map fun (key, index) => readerKeyName index ++ key.direction dialect) ++
    [rootKeyLabel]

/-- The root table and the restriction on its rows. -/
def source (s : Storage) (p : PageStatement) : Sql :=
  let condition := match p.restriction.sql? s with
    | some condition => .text " WHERE " :: condition
    | none => []
  .text (" FROM " ++ p.table ++ " ") :: .alias outerRoot :: condition

/-- The root sort key with its label, as it is selected. -/
def rootKey (p : PageStatement) : Sql :=
  Sql.column outerRoot p.sortKey ++ Sql.ofText (" AS " ++ rootKeyLabel)

/-- The select that fixes the page. -/
def innerSql (s : Storage) (p : PageStatement) : Sql :=
  let keys := p.readerKeys.zipIdx.map fun (key, index) => key.select outerRoot index
  let order := " ORDER BY " ++ ", ".intercalate (p.order s.dialect) ++ p.paging.text
  .text "SELECT " :: Sql.separated ", " (keys ++ [p.rootKey]) ++ p.source s ++ Sql.ofText order

/-- What is told about the root sort keys of the page. -/
def rangeText (p : PageStatement) : String :=
  if p.readerKeys.isEmpty then
    "MIN(" ++ rootKeyLabel ++ ") AS minKey, MAX(" ++ rootKeyLabel ++ ") AS maxKey"
  else "NULL AS minKey, NULL AS maxKey"

/-- The select that counts all features that match. -/
def matchedSql (s : Storage) (p : PageStatement) : Sql :=
  if p.countsMatched then
    .text "SELECT count(*) AS numberMatched FROM (SELECT " :: p.rootKey ++ p.source s ++
      Sql.ofText " ORDER BY 1) AS IDS"
  else Sql.ofText ("SELECT " ++ s.dialect.wholeNumber (-1) ++ " AS numberMatched")

/-- The text of the statement. Its one row holds `minKey`, `maxKey`, `numberReturned` and
`numberMatched`. -/
def sql (s : Storage) (p : PageStatement) : Sql :=
  let returned := Sql.around
    ("SELECT " ++ p.rangeText ++ ", count(*) AS numberReturned FROM (") (p.innerSql s) ") AS IDS"
  .text "WITH NR AS (" :: returned ++ .text "), NM AS (" :: p.matchedSql s ++
    Sql.ofText ") SELECT * FROM NR, NM"

end PageStatement

namespace Storage

/-- The statement that fixes the page of a window. -/
def pageStatement (s : Storage) (countsMatched : Bool) (window : Window) :
    Except Error PageStatement := do
  let restriction ← s.restriction window.filter
  let readerKeys ← s.readerKeys window.sortKeys
  return ⟨s.root.name, s.root.sortKey, readerKeys, restriction, window.paging, countsMatched⟩

end Storage

end FeatureStore
