import FeatureStore.Proofs.Read.Layout
import FeatureStore.Proofs.Sql.Aliases
import FeatureStore.Proofs.Sql.Selected

/-!
# The page that statements cut

The statement that fixes a page and those that read rows cut the same page, each in a notation of
its own. All of them are selects of root rows (`RootSelect`): the first orders by labels, the one
that reads the root table by positions, and the sub-select in a statement with joins by columns of
the root table under another alias. What they cut is read off a select (`RootSelect.Cuts`): the
table, its condition, the columns that the ordering expressions stand for, and the paging.

Without an order of the reader the statements that read rows keep to a range of root sort keys
instead. The rows of a page follow each other in the order of their keys, so they are all rows
under the condition with a key between the first and the last (`Database.IsPage.mem_iff`).
-/

set_option autoImplicit false

namespace FeatureStore

/-! ## Selects of root rows -/

/-- How an ordering expression names a column of the root table. -/
inductive OrderTerm where
  /-- The label under which the column is selected. -/
  | label (name : String)
  /-- The position of the column among those selected, counted from one. -/
  | position (number : Nat)
  /-- The column by its own name. -/
  | named (name : String)

/-- The column that an ordering expression stands for, among columns selected with labels. A label
has to be that of one column only. -/
def OrderTerm.column? (keys : List (String × Option String)) : OrderTerm → Option String
  | .label name =>
    match keys.filter (·.2 == some name) with
    | [(column, _)] => some column
    | _ => none
  | .position number => if number = 0 then none else (keys[number - 1]?).map Prod.fst
  | .named name => some name

/-- A select of rows of the root table. -/
structure RootSelect where
  /-- The level of the aliases. -/
  level : Nat
  /-- The columns of the root table that are selected first, with their labels. -/
  keys : List (String × Option String)
  /-- The other expressions selected. -/
  others : List String
  table : String
  /-- What is joined to the root table. -/
  joins : String
  /-- The conditions, which all have to hold. -/
  conditions : List String
  /-- What stands between two ordering expressions. -/
  separator : String
  /-- The ordering expressions with what stands behind each. -/
  order : List (OrderTerm × String)
  paging : Paging

namespace RootSelect

/-- A column of the root table at a level. -/
def columnText (level : Nat) (name : String) : String := aliasAt level 0 ++ "." ++ name

/-- A selected column with its label. -/
def keyText (level : Nat) : String × Option String → String
  | (column, some label) => columnText level column ++ " AS " ++ label
  | (column, none) => columnText level column

def termText (level : Nat) : OrderTerm → String
  | .label name => name
  | .position number => toString number
  | .named name => columnText level name

/-- Conditions behind their keyword. -/
def conditionText : List String → String
  | [] => ""
  | conditions => " WHERE " ++ " AND ".intercalate conditions

/-- The text of a select. -/
def text (r : RootSelect) : String :=
  "SELECT " ++ ", ".intercalate (r.keys.map (keyText r.level) ++ r.others) ++
    " FROM " ++ r.table ++ " " ++ aliasAt r.level 0 ++ r.joins ++
    conditionText r.conditions ++ " ORDER BY " ++
    r.separator.intercalate (r.order.map fun (term, behind) => termText r.level term ++ behind) ++
    r.paging.text

/-- Which of the selected expressions count as columns makes no difference to the text. -/
theorem text_congr {r : RootSelect} {keys : List (String × Option String)} {others : List String}
    (h : keys.map (keyText r.level) ++ others = r.keys.map (keyText r.level) ++ r.others) :
    { r with keys := keys, others := others }.text = r.text := by
  -- the equation of so long a text takes Lean seconds to make
  delta text
  dsimp only
  rw [h]

end RootSelect

/-- Which rows of the root table make a page, and in which order. -/
structure PageCut where
  table : String
  condition : Option Sql
  /-- The columns to order by, each with its direction and the place of missing values. -/
  order : List (String × String)
  paging : Paging

theorem Sql.render_column (level : Nat) (table : Alias) (name : String) :
    (Sql.column table name).render level = table.text level ++ "." ++ name := by
  simp [column, render, Piece.render, String.append_assoc]

theorem Sql.render_ofText (level : Nat) (text : String) :
    (Sql.ofText text).render level = text := by
  simp [ofText, render, Piece.render]

theorem Sql.render_parenthesized (level : Nat) (sql : Sql) :
    (Sql.parenthesized sql).render level = "(" ++ sql.render level ++ ")" := by
  rw [parenthesized, around, List.cons_append, render_cons, render_append, String.append_assoc]
  exact congrArg _ (congrArg _ (render_ofText level ")"))

/-- Inside a sub-select all aliases are those of the next level. -/
theorem Sql.render_nested (level : Nat) (sql : Sql) :
    (Sql.nested sql).render level = sql.render (level + 1) := by
  rw [render, render, nested, List.map_map]
  refine congrArg String.join (List.map_congr_left fun piece _ => ?_)
  rcases piece with content | (⟨depth, index⟩ | name) | content | content
  · rfl
  · -- one level more is counted at the slot or at the statement
    show aliasAt (level + (depth + 1)) index = aliasAt (level + 1 + depth) index
    rw [Nat.add_right_comm, Nat.add_assoc]
  · rfl
  · rfl
  · rfl

/-- The sort keys of the reader and the root sort key, with their labels. -/
def labelledKeys (keys : List ReaderKey) (sortKey : String) : List (String × Option String) :=
  (keys.zipIdx.map fun (key, index) => (key.column, some (readerKeyName index))) ++
    [(sortKey, some rootKeyLabel)]

/-- A sort key of the reader as it is selected. -/
theorem keyText_readerKey (key : ReaderKey) (index : Nat) :
    RootSelect.keyText 0 (key.column, some (readerKeyName index)) =
      (key.select outerRoot index).render 0 := by
  rw [ReaderKey.select, Sql.render_append, Sql.render_column, Sql.render_ofText,
    ← String.append_assoc]
  rfl

/-- The keys as they are selected. -/
theorem map_keyText_labelledKeys (keys : List ReaderKey) (sortKey : String) :
    (labelledKeys keys sortKey).map (RootSelect.keyText 0) =
      (keys.zipIdx.map fun x => (x.1.select outerRoot x.2).render 0) ++
        [RootSelect.columnText 0 sortKey ++ " AS " ++ rootKeyLabel] := by
  rw [labelledKeys, List.map_append, List.map_map]
  exact congrArg (· ++ _) (List.map_congr_left fun x _ => keyText_readerKey x.1 x.2)

namespace OrderTerm

variable {keys : List (String × Option String)}

end OrderTerm

/-! ## The selects of a read -/

namespace PageStatement

variable (s : Storage) (p : PageStatement)

/-- The page that a statement fixes. -/
def cut : PageCut where
  table := p.table
  condition := p.restriction.sql? s
  order := (p.readerKeys.map fun key => (key.column, key.direction s.dialect)) ++ [(p.sortKey, "")]
  paging := p.paging

/-- The select that fixes the page, which orders by labels. -/
def innerSelect : RootSelect where
  level := 0
  keys := labelledKeys p.readerKeys p.sortKey
  others := []
  table := p.table
  joins := ""
  conditions := (p.restriction.sql? s).toList.map (Sql.render 0)
  separator := ", "
  order := (p.readerKeys.zipIdx.map fun (key, index) =>
    (.label (readerKeyName index), key.direction s.dialect)) ++ [(.label rootKeyLabel, "")]
  paging := p.paging

theorem render_source : (p.source s).render 0 = " FROM " ++ p.table ++ " " ++ aliasAt 0 0 ++
    RootSelect.conditionText ((p.restriction.sql? s).toList.map (Sql.render 0)) := by
  rw [source, Sql.render_cons, Sql.render_cons]
  cases p.restriction.sql? s with
  | none => simp [RootSelect.conditionText, Piece.render, Alias.text, outerRoot, Sql.render]
  | some condition =>
    simp [RootSelect.conditionText, Piece.render, Alias.text, outerRoot, Sql.render_cons,
      String.append_assoc]

theorem render_innerSql : (p.innerSql s).render 0 = (p.innerSelect s).text := by
  have hkeys : ((p.readerKeys.zipIdx.map fun x : ReaderKey × Nat => x.1.select outerRoot x.2) ++
      [p.rootKey]).map (Sql.render 0) =
        (labelledKeys p.readerKeys p.sortKey).map (RootSelect.keyText 0) := by
    rw [map_keyText_labelledKeys, List.map_append, List.map_map, List.map_singleton, rootKey,
      Sql.render_append, Sql.render_column, Sql.render_ofText, ← String.append_assoc]
    rfl
  have horder : p.order s.dialect = (p.innerSelect s).order.map fun (term, behind) =>
      RootSelect.termText 0 term ++ behind := by
    rw [order, innerSelect, List.map_append, List.map_map]
    rfl
  rw [innerSql]
  -- the equation of so long a text takes Lean seconds to make
  delta RootSelect.text
  simp only [List.cons_append, List.append_assoc, Sql.render_cons, Sql.render_append,
    Sql.render_separated, hkeys, render_source, horder, Sql.ofText, Piece.render]
  simp [innerSelect, Sql.render, String.append_assoc]

theorem render_sql : (p.sql s).render 0 =
    "WITH NR AS (SELECT " ++ p.rangeText ++ ", count(*) AS numberReturned FROM (" ++
      (p.innerSelect s).text ++ ") AS IDS), NM AS (" ++ (p.matchedSql s).render 0 ++
      ") SELECT * FROM NR, NM" := by
  have hopen : "WITH NR AS (SELECT " = "WITH NR AS (" ++ "SELECT " := rfl
  have hmiddle : ") AS IDS), NM AS (" = ") AS IDS" ++ "), NM AS (" := rfl
  rw [← p.render_innerSql s, sql, hopen, hmiddle]
  simp only [Sql.around, List.cons_append, List.append_assoc, Sql.render_append, Sql.render_cons,
    Sql.render_ofText]
  simp [Sql.render, Piece.render, String.append_assoc, -String.reduceAppend]

end PageStatement

namespace PagedRoots

variable (s : Storage) (p : PagedRoots)

/-- The sub-select of the root rows, which orders by their columns. -/
def innerSelect : RootSelect where
  level := 1
  keys := [(s.root.sortKey, none)]
  others := []
  table := s.root.name
  joins := ""
  conditions := (p.restriction.sql? s).toList.map (Sql.render 1)
  separator := ","
  order := (p.readerKeys.map fun key => (.named key.column, key.direction s.dialect)) ++
    [(.named s.root.sortKey, "")]
  paging := p.paging

/-- The root sort key is among those that a select gives. -/
def memberText (select : RootSelect) : String :=
  "(" ++ RootSelect.columnText 0 s.root.sortKey ++ " IN (" ++ select.text ++ "))"

/-- The sub-select whatever the root sort key tells apart: one that does not is left out of the
order. -/
def orderedSelect : RootSelect :=
  { p.innerSelect s with
    order := (p.readerKeys.map fun key => (.named key.column, key.direction s.dialect)) ++
      if s.root.sortKeyUnique then [(.named s.root.sortKey, "")] else [] }

theorem render_orderedSelect : (p.sql s).render 0 = memberText s (p.orderedSelect s) := by
  -- the three parts that vary, one after the other: the order, the condition and the select
  have horder : (p.order s).map (Sql.render 0) = (p.orderedSelect s).order.map
      fun (term, behind) => RootSelect.termText 1 term ++ behind := by
    rw [order, orderedSelect, List.map_append, List.map_append, List.map_map, List.map_map]
    refine congrArg₂ _ (List.map_congr_left fun key _ => ?_) ?_
    · rw [Function.comp_apply, Sql.render_append, Sql.render_column, Sql.render_ofText]
      rfl
    · split
      · rw [List.map_singleton, List.map_singleton, Sql.render_column]
        exact congrArg (fun text => [text]) String.append_empty.symm
      · rfl
  unfold sql
  extract_lets key condition select
  have hcondition : Sql.render 0 condition =
      RootSelect.conditionText (p.orderedSelect s).conditions := by
    simp only [condition, orderedSelect, innerSelect]
    cases p.restriction.sql? s with
    | none => rfl
    | some condition =>
      rw [Sql.render_cons, Sql.render_nested]
      rfl
  have hselect : Sql.render 0 select = (p.orderedSelect s).text := by
    simp only [select, List.cons_append, List.append_assoc, Sql.render_cons, Sql.render_append,
      Sql.render_separated, Sql.render_column, Sql.render_ofText, hcondition, horder, Piece.render]
    delta RootSelect.text
    simp [orderedSelect, innerSelect, RootSelect.keyText, RootSelect.columnText,
      String.append_assoc, Alias.text, innerRoot, key]
  simp only [Sql.parenthesized, Sql.around, List.cons_append, List.append_assoc, Sql.render_cons,
    Sql.render_append, Sql.render_column, hselect, Piece.render]
  -- the parenthesis belongs to the piece behind it
  have hopen : " IN " ++ "(" = " IN (" := rfl
  simp [memberText, RootSelect.columnText, key, Sql.render, String.append_assoc, Alias.text,
    outerRoot, ← hopen, -String.reduceAppend]
  rfl

theorem render_sql (hunique : s.root.sortKeyUnique = true) :
    (p.sql s).render 0 = memberText s (p.innerSelect s) := by
  rw [render_orderedSelect, orderedSelect, if_pos hunique]
  rfl

end PagedRoots

namespace RowsStatement

variable (s : Storage) (r : RowsStatement)

/-- The select of the rows of a group, which orders by positions. -/
def rootSelect : RootSelect where
  level := 0
  keys := labelledKeys r.readerKeys s.root.sortKey
  others := ((r.group.keys.zipIdx.drop 1).map fun (key, index) => (key.select index).render 0) ++
    r.group.columns.map fun column => (JoinGroup.selectColumn s r.group.leaf column).render 0
  table := s.root.name
  joins := if r.group.joins.isEmpty then "" else " " ++ (Join.listSql s r.group.joins).render 0
  conditions := (r.conditions.filterMap (RowsCondition.sql? s)).map (Sql.render 0)
  separator := ","
  order := ((r.readerKeys.map (ReaderKey.direction s.dialect) ++
    r.group.keys.map fun _ => "").zipIdx 1).map fun (behind, number) => (.position number, behind)
  paging := r.paging

/-- The select of the rows of a group whatever the root sort key tells apart: of the sort keys only
those of the reader count as columns. -/
def readerSelect : RootSelect :=
  { r.rootSelect s with
    keys := r.readerKeys.zipIdx.map fun (key, index) => (key.column, some (readerKeyName index))
    others := (r.group.keys.zipIdx.map fun (key, index) => (key.select index).render 0) ++
      r.group.columns.map fun column => (JoinGroup.selectColumn s r.group.leaf column).render 0 }

/-- The selected expressions are the sort keys of the reader with their labels, and others. -/
theorem render_select_reader : (r.select s).map (Sql.render 0) =
    (r.readerSelect s).keys.map (RootSelect.keyText 0) ++ (r.readerSelect s).others := by
  have hkeys : (r.readerSelect s).keys.map (RootSelect.keyText 0) =
      r.readerKeys.zipIdx.map fun (key, index) => (key.select outerRoot index).render 0 := by
    rw [readerSelect, List.map_map]
    exact List.map_congr_left fun x _ => keyText_readerKey x.1 x.2
  rw [render_select, JoinGroup.selectTexts, hkeys, List.append_assoc]
  rfl

/-- The selected expressions are the sort keys of the reader and the root sort key with their
labels, and others. -/
theorem render_select_root {rest : List ChainKey} (hunique : s.root.sortKeyUnique = true)
    (hkeys : r.group.keys = JoinGroup.chainKey s.root outerRoot :: rest) :
    (r.select s).map (Sql.render 0) =
      (r.rootSelect s).keys.map (RootSelect.keyText 0) ++ (r.rootSelect s).others := by
  have hroot : ((JoinGroup.chainKey s.root outerRoot).select 0).render 0 =
      RootSelect.columnText 0 s.root.sortKey ++ " AS " ++ rootKeyLabel := by
    rw [ChainKey.select, JoinGroup.chainKey, hunique]
    simp only [if_pos, Sql.render_append, Sql.render_column, Sql.render_ofText]
    simp [ChainKey.label, RootSelect.columnText, Alias.text, outerRoot, String.append_assoc]
  rw [render_select, JoinGroup.selectTexts, rootSelect, map_keyText_labelledKeys, hkeys]
  simp [List.zipIdx_cons, hroot]

theorem render_readerSelect : (r.sql s).render 0 = (r.readerSelect s).text := by
  have horder : r.order s = (r.readerSelect s).order.map fun (term, behind) =>
      RootSelect.termText 0 term ++ behind := by
    rw [order, readerSelect, rootSelect, List.map_map]
    rfl
  -- the clauses that may be missing are written as the parts of the select
  unfold sql
  extract_lets joins condition
  have hjoins : Sql.render 0 joins = (r.readerSelect s).joins := by
    simp only [joins, readerSelect, rootSelect]
    split
    · rfl
    · exact Sql.render_cons _ _ _
  have hcondition : Sql.render 0 condition =
      RootSelect.conditionText (r.readerSelect s).conditions := by
    simp only [condition, readerSelect, rootSelect]
    cases r.conditions.filterMap (RowsCondition.sql? s) with
    | nil => rfl
    | cons first others =>
      rw [Sql.render_cons, Sql.render_separated]
      rfl
  simp only [List.cons_append, List.append_assoc, Sql.render_cons, Sql.render_append,
    Sql.render_separated, Sql.render_ofText, render_select_reader s r, hjoins, hcondition, horder,
    Piece.render]
  delta RootSelect.text
  simp [readerSelect, rootSelect, String.append_assoc, Alias.text, outerRoot]

theorem render_sql {rest : List ChainKey} (hunique : s.root.sortKeyUnique = true)
    (hkeys : r.group.keys = JoinGroup.chainKey s.root outerRoot :: rest) :
    (r.sql s).render 0 = (r.rootSelect s).text := by
  rw [render_readerSelect]
  exact RootSelect.text_congr ((render_select_reader s r).symm.trans
    (render_select_root s r hunique hkeys))

end RowsStatement

/-! ## Groups -/

/-- The rows that a paging leaves; a limit of zero is none. -/
def Paging.cut {α : Type} (p : Paging) (rows : List α) : List α :=
  if p.limit = 0 then rows.drop p.offset else (rows.drop p.offset).take p.limit

/-- A paging leaves rows that follow each other. -/
theorem Paging.exists_append_cut {α : Type} (p : Paging) (rows : List α) :
    ∃ before behind, rows = before ++ (p.cut rows ++ behind) := by
  rw [cut]
  split
  · exact ⟨rows.take p.offset, [], by rw [List.append_nil, List.take_append_drop]⟩
  · exact ⟨rows.take p.offset, (rows.drop p.offset).drop p.limit,
      by rw [List.take_append_drop, List.take_append_drop]⟩

section Keys

variable {α K : Type} [LinearOrder K] {key : α → Option K} {l before behind : List α}

/-- The keys grow from member to member. -/
def KeysGrow (key : α → Option K) (l : List α) : Prop :=
  l.Pairwise fun a b => ∀ k m, key a = some k → key b = some m → k < m

/-- The key of the first member is the least. -/
theorem KeysGrow.exists_isLeast (h : KeysGrow key l) (hkey : ∀ a ∈ l, ∃ k, key a = some k)
    (hne : l ≠ []) : ∃ first, l.head?.bind key = some first ∧
      IsLeast {k | ∃ a ∈ l, key a = some k} first := by
  obtain ⟨head, rest, rfl⟩ := List.exists_cons_of_ne_nil hne
  obtain ⟨first, hfirst⟩ := hkey head List.mem_cons_self
  refine ⟨first, hfirst, ⟨head, List.mem_cons_self, hfirst⟩, ?_⟩
  rintro k ⟨a, ha, hk⟩
  rcases List.mem_cons.1 ha with rfl | ha
  · exact (Option.some.inj (hfirst.symm.trans hk)).le
  · exact ((List.pairwise_cons.1 h).1 a ha first k hfirst hk).le

/-- The key of the last member is the greatest. -/
theorem KeysGrow.exists_isGreatest (h : KeysGrow key l) (hkey : ∀ a ∈ l, ∃ k, key a = some k)
    (hne : l ≠ []) : ∃ last, l.getLast?.bind key = some last ∧
      IsGreatest {k | ∃ a ∈ l, key a = some k} last := by
  obtain ⟨front, final, rfl⟩ := (List.eq_nil_or_concat' l).resolve_left hne
  have hfinal : final ∈ front ++ [final] := by simp
  obtain ⟨last, hlast⟩ := hkey final hfinal
  refine ⟨last, by rw [List.getLast?_concat]; exact hlast, ⟨final, hfinal, hlast⟩, ?_⟩
  rintro k ⟨a, ha, hk⟩
  rcases List.mem_append.1 ha with ha | ha
  · exact ((List.pairwise_append.1 h).2.2 a ha final (by simp) k last hk hlast).le
  · obtain rfl := List.mem_singleton.1 ha
    exact (Option.some.inj (hk.symm.trans hlast)).le

/-- Members with a key between two of a part belong to this part. -/
theorem KeysGrow.mem_of_between (h : KeysGrow key (before ++ (l ++ behind))) {a low high : α}
    {k first last : K} (ha : a ∈ before ++ (l ++ behind)) (hk : key a = some k) (hlow : low ∈ l)
    (hfirst : key low = some first) (hhigh : high ∈ l) (hlast : key high = some last)
    (hle : first ≤ k) (hge : k ≤ last) : a ∈ l := by
  obtain ⟨-, hrest, hbefore⟩ := List.pairwise_append.1 h
  obtain ⟨-, -, hbehind⟩ := List.pairwise_append.1 hrest
  rcases List.mem_append.1 ha with ha | ha
  · have hless := hbefore a ha low (List.mem_append_left _ hlow) k first hk hfirst
    exact absurd hle (not_le_of_gt hless)
  · rcases List.mem_append.1 ha with ha | ha
    · exact ha
    · have hless := hbehind high hhigh a ha last k hlast hk
      exact absurd hge (not_le_of_gt hless)

end Keys

namespace Database

variable (d : Database) {K : Type}

/-- A row of the root table fulfils a restriction. -/
def fulfils (restriction : Restriction) (row : d.Row) : Bool :=
  restriction.row.all (·.holds (d.passes (d.start outerRoot row))) &&
    restriction.feature.all (·.holds (d.selects row))

/-- The key of a row, as keys are compared. -/
def keyAt (read : String → K) (column : String) (row : d.Row) : Option K :=
  (d.cell row column).map read

/-- All rows of a table have keys, and different ones. -/
structure HasKeys (read : String → K) (table column : String) : Prop where
  exists_key : ∀ row ∈ d.rows (Sql.ofText table), ∃ key, d.keyAt read column row = some key
  distinct : (d.rows (Sql.ofText table)).Pairwise fun a b =>
    d.keyAt read column a ≠ d.keyAt read column b

/-- The rows of a page in the order of the root sort key. -/
def IsPage [LinearOrder K] (read : String → K) (p : PageStatement) (page : List d.Row) : Prop :=
  ∃ ordered, ordered.Perm ((d.rows (Sql.ofText p.table)).filter (d.fulfils p.restriction)) ∧
    ordered.Pairwise (fun a b => ∀ k l, d.keyAt read p.sortKey a = some k →
      d.keyAt read p.sortKey b = some l → k ≤ l) ∧
    page = p.paging.cut ordered

variable {d} [LinearOrder K] {read : String → K} {p : PageStatement} {page : List d.Row}

/-- The first and the last key of a page are the least and the greatest, and the rows between them
that fulfil the restriction are those of the page. -/
theorem IsPage.mem_iff (hkeys : d.HasKeys read p.table p.sortKey) (h : d.IsPage read p page)
    (hne : page ≠ []) : ∃ first last,
      page.head?.bind (d.keyAt read p.sortKey) = some first ∧
      page.getLast?.bind (d.keyAt read p.sortKey) = some last ∧
      IsLeast {k | ∃ row ∈ page, d.keyAt read p.sortKey row = some k} first ∧
      IsGreatest {k | ∃ row ∈ page, d.keyAt read p.sortKey row = some k} last ∧
      ∀ row ∈ d.rows (Sql.ofText p.table), row ∈ page ↔ d.fulfils p.restriction row = true ∧
        ∃ k, d.keyAt read p.sortKey row = some k ∧ first ≤ k ∧ k ≤ last := by
  obtain ⟨ordered, hperm, hsorted, rfl⟩ := h
  have hmem : ∀ row, row ∈ ordered ↔
      row ∈ d.rows (Sql.ofText p.table) ∧ d.fulfils p.restriction row = true := by
    intro row
    rw [hperm.mem_iff, List.mem_filter]
  -- different keys in order grow from row to row
  have hgrows : KeysGrow (d.keyAt read p.sortKey) ordered := by
    have hdistinct := (hperm.pairwise_iff fun {a b} => Ne.symm).2 (hkeys.distinct.filter _)
    refine (hsorted.and hdistinct).imp fun {a b} h k l hk hl => lt_of_le_of_ne (h.1 k l hk hl) ?_
    rintro rfl
    exact h.2 (hk.trans hl.symm)
  -- the page is a stretch of the ordered rows
  obtain ⟨before, behind, hsplit⟩ := p.paging.exists_append_cut ordered
  generalize p.paging.cut ordered = page at hne hsplit ⊢
  rw [hsplit] at hmem hgrows
  have hpage : KeysGrow (d.keyAt read p.sortKey) page :=
    (List.pairwise_append.1 (List.pairwise_append.1 hgrows).2.1).1
  have hinside : ∀ row ∈ page,
      row ∈ d.rows (Sql.ofText p.table) ∧ d.fulfils p.restriction row = true := fun row hrow =>
    (hmem row).1 (List.mem_append_right _ (List.mem_append_left _ hrow))
  have hkey : ∀ row ∈ page, ∃ k, d.keyAt read p.sortKey row = some k := fun row hrow =>
    hkeys.exists_key row (hinside row hrow).1
  obtain ⟨first, hhead, hleast⟩ := hpage.exists_isLeast hkey hne
  obtain ⟨last, hfinal, hgreatest⟩ := hpage.exists_isGreatest hkey hne
  refine ⟨first, last, hhead, hfinal, hleast, hgreatest, fun row hrow => ⟨fun hrowPage => ?_, ?_⟩⟩
  · obtain ⟨k, hk⟩ := hkey row hrowPage
    exact ⟨(hinside row hrowPage).2, k, hk, hleast.2 ⟨row, hrowPage, hk⟩,
      hgreatest.2 ⟨row, hrowPage, hk⟩⟩
  -- keys grow, so a row with a key between two rows of the page stands between them
  · rintro ⟨hfulfils, k, hk, hle, hge⟩
    obtain ⟨low, hlow, hfirst⟩ := hleast.1
    obtain ⟨high, hhigh, hlast⟩ := hgreatest.1
    exact hgrows.mem_of_between ((hmem row).2 ⟨hrow, hfulfils⟩) hk hlow hfirst hhigh hlast hle hge

end Database

/-! ## One page -/

section OnePage

variable {s : Storage} {counted : Bool} {window : Window} {p : PageStatement}

theorem Storage.pageStatement_fields (hp : s.pageStatement counted window = .ok p) :
    p.table = s.root.name ∧ p.sortKey = s.root.sortKey ∧ p.paging = window.paging := by
  obtain ⟨_, -, hp⟩ := bind_eq_ok.1 hp
  obtain ⟨_, -, hp⟩ := bind_eq_ok.1 hp
  rw [← pure_eq_ok.1 hp]
  exact ⟨rfl, rfl, rfl⟩

/-- The statement of a group takes all root rows that the window asks for, or those of the page, by
itself if nothing is joined and in a sub-select otherwise. -/
theorem Storage.rowsStatement_cases (hp : s.pageStatement counted window = .ok p)
    (range : Option (Value × Value)) (group : JoinGroup) :
    ∃ r, s.rowsStatement { window with keyRange := range } group = .ok r ∧ r.group = group ∧
      r.readerKeys = p.readerKeys ∧
      ((window.sortKeys = [] ∨ window.paging.isAll = true) ∧ r.paging = ⟨0, 0⟩ ∧
          (window.sortKeys = [] → window.isLookup = false → ∀ least greatest,
            range = some (least, greatest) →
              r.conditions = [.between least greatest, .restricted p.restriction false]) ∨
        window.sortKeys ≠ [] ∧ group.joins = [] ∧ r.paging = p.paging ∧
          r.conditions = [.restricted p.restriction window.isLookup] ∨
        window.sortKeys ≠ [] ∧ group.joins ≠ [] ∧ r.paging = ⟨0, 0⟩ ∧
          r.conditions = [.paged ⟨p.readerKeys, p.restriction, p.paging⟩]) := by
  obtain ⟨restriction, hrestriction, hp⟩ := bind_eq_ok.1 hp
  obtain ⟨readerKeys, hreader, hp⟩ := bind_eq_ok.1 hp
  obtain rfl := pure_eq_ok.1 hp
  have hempty : readerKeys.isEmpty = true ↔ window.sortKeys = [] := by
    rw [List.isEmpty_iff, ← List.length_eq_zero_iff, ← List.length_eq_zero_iff,
      (mapM_eq_ok_iff.1 hreader).length_eq]
  unfold Storage.rowsStatement
  rw [hreader, hrestriction]
  dsimp only [bind, Except.bind]
  -- the statement takes all rows, or it cuts the page itself, or by a sub-select behind joins
  by_cases hcut : (readerKeys.isEmpty || window.paging.isAll) = true
  · refine ⟨_, if_pos hcut, rfl, rfl, .inl ⟨?_, rfl, ?_⟩⟩
    · exact (Bool.or_eq_true_iff.1 hcut).imp_left hempty.1
    · rintro hsort hlookup least greatest rfl
      simp [hempty.2 hsort, hlookup]
  · have hsorted : ¬readerKeys.isEmpty = true := fun h => hcut (Bool.or_eq_true_iff.2 (.inl h))
    by_cases hjoins : group.joins = []
    · refine ⟨_, (if_neg hcut).trans (if_pos (List.isEmpty_iff.2 hjoins)), rfl, rfl,
        .inr (.inl ⟨mt hempty.2 hsorted, hjoins, rfl, ?_⟩)⟩
      cases range with
      | none => rfl
      | some ends => simp [hsorted]
    · exact ⟨_, (if_neg hcut).trans (if_neg (mt List.isEmpty_iff.1 hjoins)), rfl, rfl,
        .inr (.inr ⟨mt hempty.2 hsorted, hjoins, rfl, rfl⟩)⟩

end OnePage

end FeatureStore
