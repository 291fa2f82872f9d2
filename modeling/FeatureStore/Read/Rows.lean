import FeatureStore.Read.Group
import FeatureStore.Read.Page

/-!
# The statements that read rows

The statement of a join group gives the rows of its table for the features of a
page: first the sort keys of the reader, then those of the chain, then the
columns, ordered by all sort keys. How the statement keeps to the page depends on
the window. With the range of root sort keys it asks for keys between the two
ends. In the order of the reader it cuts the page itself: directly if nothing is
joined, and otherwise in a sub-select of the root table.
-/

namespace FeatureStore

/-- The sub-select of the root rows of a page. -/
structure PagedRoots where
  readerKeys : List ReaderKey
  restriction : Restriction
  paging : Paging
  deriving Inhabited

/-- A condition on the rows of a join group. -/
inductive RowsCondition where
  /-- The root sort key lies between two values, both included. -/
  | between (least greatest : Value)
  /-- The restriction of the reader, in parentheses unless it is a look-up. -/
  | restricted (restriction : Restriction) (isLookup : Bool)
  /-- The root row is one of the page. -/
  | paged (roots : PagedRoots)
  deriving Inhabited

/-- The statement of a join group. -/
structure RowsStatement where
  group : JoinGroup
  readerKeys : List ReaderKey
  conditions : List RowsCondition
  /-- The paging of the statement itself. -/
  paging : Paging
  deriving Inhabited

/-- A value between which root sort keys lie. -/
def Value.keySql : Value → Piece
  | .bool b => .text (if b then "true" else "false")
  | value => value.sql

namespace PagedRoots

/-- The ordering expressions of the sub-select. -/
def order (s : Storage) (p : PagedRoots) : List Sql :=
  (p.readerKeys.map fun key =>
    Sql.column innerRoot key.column ++ Sql.ofText (key.direction s.dialect)) ++
  (if s.root.sortKeyUnique then [Sql.column innerRoot s.root.sortKey] else [])

/-- The root sort key is one of those that the sub-select gives. -/
def sql (s : Storage) (p : PagedRoots) : Sql :=
  let key := s.root.sortKey
  let condition := match p.restriction.sql? s with
    | some condition => .text " WHERE " :: Sql.nested condition
    | none => []
  let select := .text "SELECT " :: Sql.column innerRoot key ++
    .text (" FROM " ++ s.root.name ++ " ") :: .alias innerRoot :: condition ++
    .text " ORDER BY " :: Sql.separated "," (p.order s) ++ Sql.ofText p.paging.text
  Sql.parenthesized (Sql.column outerRoot key ++ .text " IN " :: Sql.parenthesized select)

end PagedRoots

namespace RowsCondition

/-- The text of a condition, if it restricts at all. -/
def sql? (s : Storage) : RowsCondition → Option Sql
  | .between least greatest =>
    let key := Sql.column outerRoot s.root.sortKey
    some (Sql.parenthesized
      (key ++ .text " >= " :: least.keySql :: .text " AND " :: key ++
        [.text " <= ", greatest.keySql]))
  | .restricted restriction isLookup =>
    (restriction.sql? s).map fun condition =>
      if isLookup then condition else Sql.parenthesized condition
  | .paged roots => some (roots.sql s)

end RowsCondition

namespace RowsStatement

/-- The selected expressions: the sort keys of the reader, those of the chain, and the columns. -/
def select (s : Storage) (r : RowsStatement) : List Sql :=
  (r.readerKeys.zipIdx.map fun (key, index) => key.select outerRoot index) ++
    (r.group.keys.zipIdx.map fun (key, index) => key.select index) ++
    r.group.columns.map (JoinGroup.selectColumn s r.group.leaf)

/-- The ordering expressions: the positions of all sort keys in the selected row. -/
def order (s : Storage) (r : RowsStatement) : List String :=
  ((r.readerKeys.map (ReaderKey.direction s.dialect) ++ r.group.keys.map fun _ => "").zipIdx 1).map
    fun (direction, position) => toString position ++ direction

/-- The text of a statement. -/
def sql (s : Storage) (r : RowsStatement) : Sql :=
  let joins := if r.group.joins.isEmpty then [] else .text " " :: Join.listSql s r.group.joins
  let condition := match r.conditions.filterMap (RowsCondition.sql? s) with
    | [] => []
    | parts => .text " WHERE " :: Sql.separated " AND " parts
  .text "SELECT " :: Sql.separated ", " (r.select s) ++ .text (" FROM " ++ s.root.name ++ " ") ::
    .alias outerRoot :: joins ++ condition ++
    Sql.ofText (" ORDER BY " ++ ",".intercalate (r.order s) ++ r.paging.text)

end RowsStatement

namespace Storage

/-- The statement of a join group for a window. -/
def rowsStatement (s : Storage) (window : Window) (group : JoinGroup) :
    Except Error RowsStatement := do
  let readerKeys ← s.readerKeys window.sortKeys
  let restriction ← s.restriction window.filter
  let range := match window.keyRange with
    | some (least, greatest) =>
      if readerKeys.isEmpty && !window.isLookup then [RowsCondition.between least greatest] else []
    | none => []
  let restricted := range ++ [.restricted restriction window.isLookup]
  if readerKeys.isEmpty || window.paging.isAll then return ⟨group, readerKeys, restricted, ⟨0, 0⟩⟩
  else if group.joins.isEmpty then return ⟨group, readerKeys, restricted, window.paging⟩
  else
    return ⟨group, readerKeys, [.paged ⟨readerKeys, restriction, window.paging⟩], ⟨0, 0⟩⟩

end Storage

namespace ReadPlan

/-- The text of the statement that fixes the page of a window. -/
def pageText (plan : ReadPlan) (window : Window) : Except Error String :=
  (plan.storage.pageStatement plan.countsMatched window).map fun p =>
    (p.sql plan.storage).render 0

/-- The texts of the statements that read the rows of a window, one for each group. -/
def rowsTexts (plan : ReadPlan) (window : Window) : Except Error (List String) :=
  plan.groups.mapM fun group =>
    (plan.storage.rowsStatement window group).map fun r => (r.sql plan.storage).render 0

end ReadPlan

end FeatureStore
