import FeatureStore.Proofs.Read.Groups
import FeatureStore.Read.Rows

/-!
# Layouts of rows

A row of a join group is laid out in one way by all that know of it: the statement that reads the
rows selects and orders by the sort keys of the reader, then those of the tables on the chain of
the group, and then selects the columns of its table; and a reconstruction asks for a row of that
length and takes the chain from the arena (`plan_agrees`). Rows of two groups are compared on the
sort columns that their layouts share (`compareRows_eq_take`). These are the sort keys of the reader
and those of the tables down to the lowest common ancestor of both tables (`exists_isMeet`), since
the tables of a derived tree have different paths.
-/

set_option autoImplicit false

namespace FeatureStore

/-! ## Common fronts -/

section Common

variable {α β : Type} [DecidableEq α] [DecidableEq β]

/-- The length of the longest front that two lists have in common. -/
def commonLength : List α → List α → Nat
  | a :: as, b :: bs => if a = b then commonLength as bs + 1 else 0
  | _, _ => 0

theorem commonLength_append_left (front xs ys : List α) :
    commonLength (front ++ xs) (front ++ ys) = front.length + commonLength xs ys := by
  induction front with
  | nil => simp
  | cons a front ih =>
    rw [List.cons_append, List.cons_append, commonLength, if_pos rfl, ih, List.length_cons]
    omega

theorem take_commonLength : ∀ xs ys : List α,
    xs.take (commonLength xs ys) = ys.take (commonLength xs ys)
  | [], [] => rfl
  | [], _ :: _ => rfl
  | _ :: _, [] => rfl
  | a :: as, b :: bs => by
    rw [commonLength]
    split
    · rename_i h
      rw [List.take_succ_cons, List.take_succ_cons, h, take_commonLength as bs]
    · rfl

theorem commonLength_le_left : ∀ xs ys : List α, commonLength xs ys ≤ xs.length
  | [], _ => Nat.le_refl 0
  | _ :: _, [] => Nat.zero_le _
  | a :: as, b :: bs => by
    rw [commonLength]
    split
    · exact Nat.succ_le_succ (commonLength_le_left as bs)
    · exact Nat.zero_le _

/-- A front of both lists is no longer. -/
theorem le_commonLength : ∀ {front xs ys : List α}, front <+: xs → front <+: ys →
    front.length ≤ commonLength xs ys
  | [], _, _, _, _ => Nat.zero_le _
  | a :: front, xs, ys, hx, hy => by
    obtain ⟨as, rfl⟩ := hx
    obtain ⟨bs, rfl⟩ := hy
    rw [commonLength_append_left]
    exact Nat.le_add_right _ _

/-- Renaming that tells the members of both lists apart leaves what they have in common. -/
theorem commonLength_map {f : α → β} : ∀ {xs ys : List α},
    (∀ a ∈ xs, ∀ b ∈ ys, f a = f b → a = b) →
      commonLength (xs.map f) (ys.map f) = commonLength xs ys
  | [], _, _ => by simp [commonLength]
  | _ :: _, [], _ => by simp [commonLength]
  | a :: as, b :: bs, h => by
    have ih : commonLength (as.map f) (bs.map f) = commonLength as bs :=
      commonLength_map fun c hc d hd =>
        h c (List.mem_cons_of_mem _ hc) d (List.mem_cons_of_mem _ hd)
    rw [List.map_cons, List.map_cons, commonLength, commonLength, ih]
    by_cases hab : a = b
    · rw [if_pos hab, if_pos (congrArg f hab)]
    · rw [if_neg hab, if_neg fun hf => hab (h a List.mem_cons_self b List.mem_cons_self hf)]

end Common

/-- The number of leading sort columns that two layouts share. -/
def SortLayout.shared (a b : SortLayout) : Nat :=
  commonLength (a.map SortColumn.name) (b.map SortColumn.name)

/-- Rows are compared on the sort columns that their layouts share. -/
theorem compareRows_eq_take : ∀ (a b : SortLayout) (x y : Row),
    compareRows a x b y = compareRows (a.take (a.shared b)) x (a.take (a.shared b)) y
  | [], _, _, _ => by simp [compareRows]
  | _ :: _, [], _, _ => by simp [SortLayout.shared, commonLength, compareRows]
  | c :: as, d :: bs, x, y => by
    have ih := compareRows_eq_take as bs x.tail y.tail
    rw [SortLayout.shared, List.map_cons, List.map_cons, commonLength, compareRows]
    split
    · rw [List.take_succ_cons, compareRows, if_pos rfl, ih]
      rfl
    -- where the names part, neither side compares any further
    · rfl

/-! ## Common ancestors -/

namespace Arena

variable {a : Arena} {i j k id : Nat}

/-- The table is the lowest one that two chains have in common. -/
structure IsMeet (a : Arena) (i j k : Nat) : Prop where
  left : k ∈ a.chain i
  right : k ∈ a.chain j
  lowest : ∀ l, l ∈ a.chain i → l ∈ a.chain j → l ∈ a.chain k

/-- Chains that begin with the same table have a lowest table in common, and in front of where
they part is the chain of that table. -/
theorem exists_isMeet (h : 0 < commonLength (a.chain i) (a.chain j)) :
    ∃ k, a.IsMeet i j k ∧ (a.chain k).length = commonLength (a.chain i) (a.chain j) := by
  have hle := commonLength_le_left (a.chain i) (a.chain j)
  have hleft := List.take_prefix (commonLength (a.chain i) (a.chain j)) (a.chain i)
  have hright := List.take_prefix (commonLength (a.chain i) (a.chain j)) (a.chain j)
  rw [← take_commonLength] at hright
  have hlength : ((a.chain i).take (commonLength (a.chain i) (a.chain j))).length =
      commonLength (a.chain i) (a.chain j) := by
    rw [List.length_take, Nat.min_eq_left hle]
  rcases List.eq_nil_or_concat ((a.chain i).take (commonLength (a.chain i) (a.chain j))) with
    hnil | ⟨front, k, hfront⟩
  · rw [hnil, List.length_nil] at hlength
    omega
  · rw [List.concat_eq_append] at hfront
    rw [hfront] at hleft hright hlength
    have hchain := chain_eq_of_front hleft
    rw [← hchain] at hleft hright hlength
    refine ⟨k, ⟨hleft.subset (mem_chain_self a k), hright.subset (mem_chain_self a k), ?_⟩, hlength⟩
    intro l hl hl'
    -- the chain of a common table is a common front, so it lies in the longest one
    have hshort := le_commonLength (chain_prefix_of_mem hl) (chain_prefix_of_mem hl')
    rw [← hlength] at hshort
    exact (List.prefix_of_prefix_length_le (chain_prefix_of_mem hl) hleft hshort).subset
      (mem_chain_self a l)

end Arena

/-! ## Tables that are read -/

namespace TableTree

/-- The tables that have a statement of their own, with their numbers: the root table, and the
others that have columns. They come in pre-order. -/
def readTables (tree : TableTree) : List (Nat × Table) :=
  (tree.tables.zipIdx.map fun (table, id) => (id, table)).filter fun (id, table) =>
    id == 0 || !table.columns.isEmpty

/-- Only the chain of the root table leads to table zero, and only that table has no relations. -/
theorem isReadChain_eq {tree : TableTree} (htree : tree.IsDerived) {chain : List (Nat × Table)}
    (hchain : chain ∈ tree.numberedChains) : isReadChain chain =
      ((lastEntry chain).1 == 0 || !(lastEntry chain).2.columns.isEmpty) := by
  obtain ⟨before, k, table, rfl, hlength, -⟩ := length_of_mem_numberedChains htree hchain
  obtain ⟨behind, hbegins⟩ := begins_of_mem_numberedFrom hchain
  have hids := (chain_of_mem_numberedChains hchain).2
  -- the chain has a table for each relation, so without relations it is that of table zero alone
  have hroot : table.isRoot = (k == 0) := by
    rw [Table.isRoot, Bool.eq_iff_iff, List.isEmpty_iff, ← List.length_eq_zero_iff, ← hlength,
      List.length_eq_zero_iff, beq_iff_eq]
    constructor
    · rintro rfl
      exact (Prod.mk.inj (List.cons.inj hbegins).1).1
    · rintro rfl
      have hzero : (Arena.ofTree tree).chain 0 = [0] :=
        Arena.chain_of_root (Arena.holds_ofTree tree).parent?_eq
      have hcount := congrArg List.length (hzero.symm.trans hids)
      simpa using hcount.symm
  rw [isReadChain, lastTable_append, lastEntry_concat, Table.isRead, hroot]

/-- The read chains lead to the tables that are read. -/
theorem lastEntry_readChains {tree : TableTree} (htree : tree.IsDerived) :
    tree.readChains.map lastEntry = tree.readTables := by
  rw [readTables, ← map_lastEntry_numberedChains, List.filter_map, readChains]
  congr 1
  exact List.filter_congr fun chain hchain => isReadChain_eq htree hchain

theorem lastTable_eq (chain : List (Nat × Table)) : lastTable chain = (lastEntry chain).2 := by
  rw [lastTable, lastEntry]
  cases chain.getLast? <;> rfl

end TableTree

/-! ## The text of a statement -/

namespace Sql

theorem render_append (level : Nat) (a b : Sql) :
    render level (a ++ b) = render level a ++ render level b := by
  rw [render, List.map_append, String.join_append]
  rfl

theorem render_cons (level : Nat) (piece : Piece) (sql : Sql) :
    render level (piece :: sql) = piece.render level ++ render level sql := by
  rw [render, List.map_cons, String.join_cons]
  rfl

theorem separated_cons_cons (sep : String) (part other : Sql) (parts : List Sql) :
    separated sep (part :: other :: parts) =
      part ++ .text sep :: separated sep (other :: parts) := rfl

theorem render_separated (level : Nat) (sep : String) : ∀ parts : List Sql,
    render level (separated sep parts) = sep.intercalate (parts.map (render level))
  | [] => rfl
  | [part] => by
    rw [separated, List.map_cons, List.map_nil, String.intercalate_singleton]
  | part :: other :: parts => by
    have ih := render_separated level sep (other :: parts)
    rw [separated, render_append, render_cons, ih]
    · simp only [List.map_cons, String.intercalate_cons_cons, Piece.render, String.append_assoc]
    · exact List.cons_ne_nil other parts

end Sql

namespace JoinGroup

/-- The expressions that a statement of a group selects: the sort keys of the reader, then those of
the chain, then the columns. -/
def selectTexts (s : Storage) (keys : List ReaderKey) (group : JoinGroup) : List String :=
  (keys.zipIdx.map fun (key, index) => (key.select outerRoot index).render 0) ++
    (group.keys.zipIdx.map fun (key, index) => (key.select index).render 0) ++
    group.columns.map fun column => (selectColumn s group.leaf column).render 0

/-- The positions of some sort keys, the first of which are those of the reader with their
directions. -/
def orderTexts (s : Storage) (keys : List ReaderKey) (count : Nat) : List String :=
  (List.range count).map fun i =>
    toString (i + 1) ++ ((keys[i]?).map (ReaderKey.direction s.dialect)).getD ""

/-- The text is that of a statement which selects the expressions of a group from joined tables and
orders by the positions of all sort keys, with at most a paging behind. -/
def IsReadBy (s : Storage) (keys : List ReaderKey) (group : JoinGroup) (text : String) : Prop :=
  ∃ (source : String) (paging : Paging),
    text = "SELECT " ++ ", ".intercalate (group.selectTexts s keys) ++
      " FROM " ++ source ++ " ORDER BY " ++
      ",".intercalate (orderTexts s keys (keys.length + group.keys.length)) ++ paging.text

theorem length_selectTexts (s : Storage) (keys : List ReaderKey) (group : JoinGroup) :
    (group.selectTexts s keys).length =
      keys.length + group.keys.length + group.columns.length := by
  simp [selectTexts, Nat.add_assoc]

end JoinGroup

namespace RowsStatement

theorem render_select (s : Storage) (r : RowsStatement) :
    (r.select s).map (Sql.render 0) = r.group.selectTexts s r.readerKeys := by
  rw [select, JoinGroup.selectTexts, List.map_append, List.map_append, List.map_map, List.map_map,
    List.map_map]
  rfl

theorem order_eq_orderTexts (s : Storage) (r : RowsStatement) :
    r.order s =
      JoinGroup.orderTexts s r.readerKeys (r.readerKeys.length + r.group.keys.length) := by
  refine List.ext_getElem? fun i => ?_
  rw [order, JoinGroup.orderTexts, List.getElem?_map, List.getElem?_zipIdx, List.getElem?_map,
    List.getElem?_append, List.length_map]
  by_cases hi : i < r.readerKeys.length
  · rw [if_pos hi, List.getElem?_map, List.getElem?_range (by omega), Option.map_some,
      List.getElem?_eq_getElem hi]
    simp [Nat.add_comm]
  · -- behind the keys of the reader stand positions alone
    have hnone : r.readerKeys[i]? = none := List.getElem?_eq_none (Nat.not_lt.1 hi)
    rw [if_neg hi, List.getElem?_map]
    by_cases hlt : i < r.readerKeys.length + r.group.keys.length
    · rw [List.getElem?_range hlt, List.getElem?_eq_getElem (by omega), Option.map_some,
        Option.map_some, Option.map_some, Option.map_some, hnone]
      simp [Nat.add_comm]
    · rw [List.getElem?_eq_none (by omega), List.getElem?_eq_none (by simpa using hlt)]
      rfl

/-- The text of a statement reads its group. -/
theorem isReadBy_sql (s : Storage) (r : RowsStatement) :
    r.group.IsReadBy s r.readerKeys ((r.sql s).render 0) := by
  unfold sql
  extract_lets joins condition
  refine ⟨s.root.name ++ " " ++ outerRoot.text 0 ++ Sql.render 0 joins ++ Sql.render 0 condition,
    r.paging, ?_⟩
  simp only [List.cons_append, List.append_assoc, Sql.render_cons, Sql.render_append,
    Sql.render_separated, render_select, order_eq_orderTexts, Sql.ofText, Piece.render]
  simp [Sql.render, String.append_assoc]

end RowsStatement

/-- Once the keys of the reader and the restriction are resolved, there is a statement for every
group. -/
theorem exists_rowsStatement {s : Storage} {window : Window} {keys : List ReaderKey}
    {restriction : Restriction} (hkeys : s.readerKeys window.sortKeys = .ok keys)
    (hrestriction : s.restriction window.filter = .ok restriction) (group : JoinGroup) :
    ∃ statement, s.rowsStatement window group = .ok statement ∧ statement.group = group ∧
      statement.readerKeys = keys := by
  unfold Storage.rowsStatement
  rw [hkeys, hrestriction]
  dsimp only [bind, Except.bind]
  split
  · exact ⟨_, rfl, rfl, rfl⟩
  · split
    · exact ⟨_, rfl, rfl, rfl⟩
    · exact ⟨_, rfl, rfl, rfl⟩

/-! ## The length of a row -/

/-- The number of cells of a row of a group. -/
def GroupLayout.width (readerKeys : Nat) (layout : GroupLayout) : Nat :=
  readerKeys + layout.chain.length + layout.columns.length

namespace Reconstruction

variable {r : Reconstruction} {x : MergedRow} {layout : GroupLayout}

theorem push_of_short (hlayout : r.groups[x.group]? = some layout)
    (h : x.row.length < layout.width r.readerKeys) :
    (r.push x).1 = .error (.missingRow layout.path r.rows) := by
  rw [GroupLayout.width] at h
  rw [push]
  simp only [hlayout]
  rw [if_pos h]

theorem push_of_long (hlayout : r.groups[x.group]? = some layout)
    (h : layout.width r.readerKeys ≤ x.row.length) : ∃ events, (r.push x).1 = .ok events := by
  rw [GroupLayout.width] at h
  rw [push]
  simp only [hlayout]
  rw [if_neg (Nat.not_lt.2 h)]
  split
  · exact ⟨_, rfl⟩
  · exact ⟨_, rfl⟩

/-- A reconstruction takes the rows of a group exactly if they have all their cells. -/
theorem push_eq_error_iff (hlayout : r.groups[x.group]? = some layout) :
    (∃ e, (r.push x).1 = .error e) ↔ x.row.length < layout.width r.readerKeys := by
  constructor
  · rintro ⟨e, he⟩
    refine Nat.lt_of_not_le fun h => ?_
    obtain ⟨events, hevents⟩ := push_of_long hlayout h
    rw [hevents] at he
    exact absurd he (by simp)
  · intro h
    exact ⟨_, push_of_short hlayout h⟩

/-- What is known behind some rows. -/
def behind (r : Reconstruction) (rows : List MergedRow) : Reconstruction :=
  rows.foldl (fun state x => (state.push x).2) r

/-- A row leaves the layouts. -/
theorem layout_push (r : Reconstruction) (x : MergedRow) :
    (r.push x).2.groups = r.groups ∧ (r.push x).2.readerKeys = r.readerKeys := by
  rw [push]
  dsimp only
  split
  · exact ⟨rfl, rfl⟩
  · split
    · exact ⟨rfl, rfl⟩
    · split
      · exact ⟨rfl, rfl⟩
      · rw [pushKeyed, openFeature]
        dsimp only
        split <;> exact ⟨rfl, rfl⟩

theorem layout_behind (r : Reconstruction) (rows : List MergedRow) :
    (r.behind rows).groups = r.groups ∧ (r.behind rows).readerKeys = r.readerKeys := by
  induction rows generalizing r with
  | nil => exact ⟨rfl, rfl⟩
  | cons x rows ih =>
    obtain ⟨hgroups, hreader⟩ := ih (r.push x).2
    obtain ⟨hgroups', hreader'⟩ := r.layout_push x
    exact ⟨hgroups.trans hgroups', hreader.trans hreader'⟩

end Reconstruction

/-! ## Agreement -/

/-- A join group and its layout are those of a numbered table: the sort keys are named by the paths
of the tables on its chain, and the layout has the numbers of these tables. -/
structure JoinGroup.IsLaidOut (s : Storage) (e : Nat × Table) (group : JoinGroup)
    (layout : GroupLayout) : Prop where
  path_eq : group.path = e.2.path
  columns_eq : group.columns = e.2.columns
  keys_eq : group.keys.map ChainKey.path =
    ((Arena.ofTree s.tree).chain e.1).map (Arena.ofTree s.tree).path
  layout_path_eq : layout.path = e.2.path
  layout_columns_eq : layout.columns = e.2.columns
  layout_chain_eq : layout.chain = (Arena.ofTree s.tree).chain e.1

section Plan

variable {tree : TableTree} {s : Storage}

/-- The sort columns of a layout are those of the reader and the paths of the chain. -/
theorem names_chainLayout {flags : List Bool} {chain : List (Nat × Table)}
    (hchain : chain ∈ tree.numberedChains) :
    (chainLayout flags chain).sort.map SortColumn.name =
      (List.range flags.length).map readerKeyName ++
        ((Arena.ofTree tree).chain (TableTree.lastEntry chain).1).map (Arena.ofTree tree).path := by
  rw [← TableTree.paths_eq_map_chain hchain]
  refine List.ext_getElem? fun i => ?_
  rw [chainLayout, SortLayout.ofFlags, List.getElem?_map, List.getElem?_map, List.getElem?_zipIdx,
    Option.map_map, Option.map_map]
  exact Option.map_id'

/-- Two layouts of a derived tree share the columns of the reader and those of the tables that the
chains have in common. -/
theorem shared_chainLayout (htree : tree.IsDerived) (flags : List Bool)
    {c d : List (Nat × Table)} (hc : c ∈ tree.numberedChains) (hd : d ∈ tree.numberedChains) :
    (chainLayout flags c).sort.shared (chainLayout flags d).sort = flags.length +
      commonLength ((Arena.ofTree tree).chain (TableTree.lastEntry c).1)
        ((Arena.ofTree tree).chain (TableTree.lastEntry d).1) := by
  rw [SortLayout.shared, names_chainLayout hc, names_chainLayout hd, commonLength_append_left,
    List.length_map, List.length_range, commonLength_map]
  intro i hi j hj hpath
  -- different tables have different paths
  rw [← TableTree.ids_eq_chain hc] at hi
  rw [← TableTree.ids_eq_chain hd] at hj
  obtain ⟨e, he, rfl⟩ := List.mem_map.1 hi
  obtain ⟨f, hf, rfl⟩ := List.mem_map.1 hj
  have hid : ∀ {g : Nat × Table}, TableTree.IsPart (Arena.ofTree tree) g →
      (Arena.ofTree tree).idOf? ((Arena.ofTree tree).path g.1) = some g.1 := by
    intro g hg
    obtain ⟨parent, depth, sub, hsub, hroot⟩ := hg
    rw [hsub.path_eq, hroot]
    exact TableTree.idOf?_of_isPart htree ⟨parent, depth, sub, hsub, hroot⟩
  have hfound := hid (TableTree.isPart_of_mem hc he)
  rw [hpath, hid (TableTree.isPart_of_mem hd hf)] at hfound
  exact (Option.some.inj hfound).symm

/-- All chains begin with the root table. -/
theorem commonLength_chain_pos {c d : List (Nat × Table)} (hc : c ∈ tree.numberedChains)
    (hd : d ∈ tree.numberedChains) :
    0 < commonLength ((Arena.ofTree tree).chain (TableTree.lastEntry c).1)
      ((Arena.ofTree tree).chain (TableTree.lastEntry d).1) := by
  obtain ⟨behind, hbegins⟩ := TableTree.begins_of_mem_numberedFrom hc
  obtain ⟨behind', hbegins'⟩ := TableTree.begins_of_mem_numberedFrom hd
  have hleft : [0] <+: (Arena.ofTree tree).chain (TableTree.lastEntry c).1 := by
    rw [← TableTree.ids_eq_chain hc, hbegins]
    exact ⟨behind.map Prod.fst, rfl⟩
  have hright : [0] <+: (Arena.ofTree tree).chain (TableTree.lastEntry d).1 := by
    rw [← TableTree.ids_eq_chain hd, hbegins']
    exact ⟨behind'.map Prod.fst, rfl⟩
  exact le_commonLength hleft hright

/-- The tables that are read lie at the ends of the read chains. -/
theorem exists_readChain (htree : tree.IsDerived) {i : Nat} {e : Nat × Table}
    (he : tree.readTables[i]? = some e) : ∃ chain, tree.readChains[i]? = some chain ∧
      chain ∈ tree.numberedChains ∧ TableTree.lastEntry chain = e := by
  rw [← TableTree.lastEntry_readChains htree, List.getElem?_map, Option.map_eq_some_iff] at he
  obtain ⟨chain, hchain, hlast⟩ := he
  exact ⟨chain, hchain, (List.mem_filter.1 (List.mem_of_getElem? hchain)).1, hlast⟩

/-- The group of a chain is laid out like the last table of the chain. -/
theorem isLaidOut_of_isOf {s : Storage} {group : JoinGroup} {chain : List (Nat × Table)}
    (hchain : chain ∈ s.tree.numberedChains) (h : group.IsOf chain) (flags : List Bool) :
    group.IsLaidOut s (TableTree.lastEntry chain) (chainLayout flags chain) := by
  have hlast := TableTree.lastTable_eq chain
  refine ⟨h.path_eq.trans ?_, h.columns_eq.trans ?_,
    h.keys_eq.trans (TableTree.paths_eq_map_chain hchain), ?_, ?_, TableTree.ids_eq_chain hchain⟩
  · rw [hlast]
  · rw [hlast]
  · rw [chainLayout, hlast]
  · rw [chainLayout, hlast]

/-- Two layouts share the columns of the reader and those of the tables down to the lowest common
ancestor. -/
theorem exists_shared_eq (htree : tree.IsDerived) (flags : List Bool) {i j : Nat}
    {e f : Nat × Table} (he : tree.readTables[i]? = some e) (hf : tree.readTables[j]? = some f) :
    ∃ c d k, tree.readChains[i]? = some c ∧ tree.readChains[j]? = some d ∧
      (Arena.ofTree tree).IsMeet e.1 f.1 k ∧
      (chainLayout flags c).sort.shared (chainLayout flags d).sort =
        flags.length + ((Arena.ofTree tree).chain k).length := by
  obtain ⟨c, hc, hcmem, rfl⟩ := exists_readChain htree he
  obtain ⟨d, hd, hdmem, rfl⟩ := exists_readChain htree hf
  obtain ⟨k, hmeet, hcommon⟩ := Arena.exists_isMeet (commonLength_chain_pos hcmem hdmem)
  refine ⟨c, d, k, hc, hd, hmeet, ?_⟩
  rw [shared_chainLayout htree flags hcmem hdmem, hcommon]

/-- The groups of a plan and the tables that are read. -/
theorem exists_group {name : String} {counted : Bool} {plan : ReadPlan} (htree : s.tree.IsDerived)
    (hplan : ReadPlan.ofStorage name s counted = .ok plan) (flags : List Bool) :
    plan.groups.length = s.tree.readTables.length ∧
      ∀ (i : Nat) (e : Nat × Table), s.tree.readTables[i]? = some e →
        ∃ (group : JoinGroup) (layout : GroupLayout), plan.groups[i]? = some group ∧
          (initial plan flags).groups[i]? = some layout ∧ group.IsLaidOut s e layout := by
  obtain ⟨rfl, -, -⟩ := start_ofStorage htree hplan flags
  obtain ⟨groups, hgroups, hgiven⟩ := bind_eq_ok.1 hplan
  obtain rfl : groups = plan.groups := by
    rw [← pure_eq_ok.1 hgiven]
  -- groups and layouts are both made from the read chains, so they are compared through these
  have hall := forall₂_groupsOf htree hgroups
  constructor
  · rw [← hall.length_eq, ← TableTree.lastEntry_readChains htree, List.length_map]
  · intro i e he
    obtain ⟨chain, hchain, hmem, rfl⟩ := exists_readChain htree he
    obtain ⟨hi, hget⟩ := List.getElem?_eq_some_iff.1 hchain
    have hi' : i < plan.groups.length := hall.length_eq ▸ hi
    have hof := (List.forall₂_iff_get.1 hall).2 i hi hi'
    rw [List.get_eq_getElem, List.get_eq_getElem, hget] at hof
    refine ⟨plan.groups[i], chainLayout flags chain, List.getElem?_eq_getElem hi', ?_,
      isLaidOut_of_isOf hmem hof.2 flags⟩
    rw [initial, List.getElem?_map, hchain]
    rfl

/-- The texts of a plan read its groups. -/
theorem exists_rowsTexts {plan : ReadPlan} {window : Window} {keys : List ReaderKey}
    {restriction : Restriction} (hkeys : plan.storage.readerKeys window.sortKeys = .ok keys)
    (hrestriction : plan.storage.restriction window.filter = .ok restriction) :
    ∃ texts, plan.rowsTexts window = .ok texts ∧
      List.Forall₂ (fun group text => group.IsReadBy plan.storage keys text) plan.groups texts := by
  have hall : ∀ group ∈ plan.groups, ∃ text,
      ((plan.storage.rowsStatement window group).map fun r => (r.sql plan.storage).render 0) =
        .ok text := by
    intro group _
    obtain ⟨statement, hstatement, -⟩ := exists_rowsStatement hkeys hrestriction group
    exact ⟨_, map_eq_ok.2 ⟨statement, hstatement, rfl⟩⟩
  obtain ⟨texts, htexts⟩ := exists_mapM_eq_ok hall
  refine ⟨texts, htexts, (mapM_eq_ok_iff.1 htexts).imp fun group text htext => ?_⟩
  obtain ⟨statement, hstatement, hgroup, hreader⟩ :=
    exists_rowsStatement hkeys hrestriction group
  obtain ⟨other, hother, rfl⟩ := map_eq_ok.1 htext
  obtain rfl := Except.ok.inj (hstatement.symm.trans hother)
  rw [← hgroup, ← hreader]
  exact statement.isReadBy_sql plan.storage

/-- A statement selects as many expressions as the table has tables on its chain and columns, and
those of the reader. -/
theorem JoinGroup.IsLaidOut.length_selectTexts {e : Nat × Table} {group : JoinGroup}
    {layout : GroupLayout} (h : group.IsLaidOut s e layout) (keys : List ReaderKey) :
    (group.selectTexts s keys).length =
      keys.length + ((Arena.ofTree s.tree).chain e.1).length + e.2.columns.length := by
  have hcount := congrArg List.length h.keys_eq
  rw [List.length_map, List.length_map] at hcount
  rw [JoinGroup.length_selectTexts, h.columns_eq, hcount]

/-- Everything that knows of the rows of a read agrees on how they are laid out. The groups are
those of the root table and of the tables with columns, in pre-order. A reconstruction starts, and
each of its layouts has the chain of the table, whose paths name the sort keys of the group. Each
statement selects the sort keys of the reader, those of the chain and the columns, orders by the
positions of the keys, and gives rows of just the length that the reconstruction asks for. And two
layouts share the sort columns of the reader and of the tables down to the lowest common ancestor
of their tables, and on these their rows are compared. -/
theorem plan_agrees {name : String} {counted : Bool} {plan : ReadPlan} {window : Window}
    {keys : List ReaderKey} (htree : s.tree.IsDerived)
    (hplan : ReadPlan.ofStorage name s counted = .ok plan)
    (hkeys : s.readerKeys window.sortKeys = .ok keys) :
    ∃ r, Reconstruction.start plan (window.sortKeys.map SortKey.descending) = .ok r ∧
      plan.groups.length = s.tree.readTables.length ∧
      (∀ (i : Nat) (e : Nat × Table), s.tree.readTables[i]? = some e →
        ∃ (group : JoinGroup) (layout : GroupLayout), plan.groups[i]? = some group ∧
          r.groups[i]? = some layout ∧ group.IsLaidOut s e layout ∧
          (group.selectTexts s keys).length =
            keys.length + ((Arena.ofTree s.tree).chain e.1).length + e.2.columns.length ∧
          ∀ (rows : List MergedRow) (x : MergedRow), x.group = i →
            ((∃ failure, ((r.behind rows).push x).1 = .error failure) ↔
              x.row.length < (group.selectTexts s keys).length)) ∧
      (∀ (restriction : Restriction), s.restriction window.filter = .ok restriction →
        ∃ texts, plan.rowsTexts window = .ok texts ∧
          List.Forall₂ (fun group text => group.IsReadBy s keys text) plan.groups texts) ∧
      ∀ (i j : Nat) (e f : Nat × Table), s.tree.readTables[i]? = some e →
        s.tree.readTables[j]? = some f →
          ∃ (a b : SortLayout) (k : Nat), r.layouts[i]? = some a ∧ r.layouts[j]? = some b ∧
            (Arena.ofTree s.tree).IsMeet e.1 f.1 k ∧
            a.shared b = keys.length + ((Arena.ofTree s.tree).chain k).length ∧
            ∀ x y : Row, compareRows a x b y =
              compareRows (a.take (a.shared b)) x (a.take (a.shared b)) y := by
  have hcount : (window.sortKeys.map SortKey.descending).length = keys.length := by
    rw [List.length_map]
    exact (mapM_eq_ok_iff.1 hkeys).length_eq
  generalize window.sortKeys.map SortKey.descending = flags at hcount ⊢
  obtain ⟨hlength, hgroups⟩ := exists_group htree hplan flags
  obtain ⟨rfl, -, hstart⟩ := start_ofStorage htree hplan flags
  refine ⟨_, hstart, hlength, ?_, fun restriction hrestriction =>
    exists_rowsTexts hkeys hrestriction, ?_⟩
  · intro i e he
    obtain ⟨group, layout, hgroup, hlayout, hlaid⟩ := hgroups i e he
    refine ⟨group, layout, hgroup, hlayout, hlaid, hlaid.length_selectTexts keys, ?_⟩
    intro rows x hx
    -- rows leave the layout, so what is asked for does not change during a read
    obtain ⟨hsame, hreader⟩ := (initial plan flags).layout_behind rows
    have hown : ((initial plan flags).behind rows).groups[x.group]? = some layout := by
      rw [hsame, hx, hlayout]
    rw [Reconstruction.push_eq_error_iff hown, hlaid.length_selectTexts, GroupLayout.width,
      hreader, hlaid.layout_chain_eq, hlaid.layout_columns_eq, ← hcount]
    rfl
  · intro i j e f he hf
    obtain ⟨c, d, k, hc, hd, hmeet, hshared⟩ := exists_shared_eq htree flags he hf
    refine ⟨(chainLayout flags c).sort, (chainLayout flags d).sort, k, ?_, ?_, hmeet, ?_,
      compareRows_eq_take _ _⟩
    · rw [Reconstruction.layouts, initial, List.getElem?_map, List.getElem?_map, hc]
      rfl
    · rw [Reconstruction.layouts, initial, List.getElem?_map, List.getElem?_map, hd]
      rfl
    · rw [hshared, hcount]

/-- Contacts and tenants of the addresses of parcels, the tenants through a junction, in the order
of the names of the parcels: rows of both are compared on that name, on the parcel and on the
address. -/
theorem plan_agrees_addresses :
    let address := "parcel/[id=parcel_id]address"
    let paths := ["parcel/name", address ++ "/[id=address_id]contact/phone",
      address ++ "/[id=address_id]address_2_tenant/[tenant_id=id]tenant/name"]
    let window : Window := ⟨0, 0, [⟨"name", true⟩], none, false, none⟩
    let joined := "SELECT A.name AS CSKEY_0, A.id AS SKEY, B.id AS SKEY_1, "
    let texts :=
      [ "SELECT A.name AS CSKEY_0, A.id AS SKEY, A.name FROM parcel A " ++
          "ORDER BY 1 DESC NULLS LAST,2",
        joined ++ "C.id AS SKEY_2, C.phone FROM parcel A JOIN address B ON (A.id=B.parcel_id) " ++
          "JOIN contact C ON (B.id=C.address_id) ORDER BY 1 DESC NULLS LAST,2,3,4",
        joined ++ "D.id AS SKEY_2, D.name FROM parcel A JOIN address B ON (A.id=B.parcel_id) " ++
          "JOIN address_2_tenant C ON (B.id=C.address_id) JOIN tenant D ON (C.tenant_id=D.id) " ++
          "ORDER BY 1 DESC NULLS LAST,2,3,4" ]
    ∃ tree plan keys r, TableTree.ofPaths paths = .ok tree ∧
      ReadPlan.ofStorage "parcel" (.plain tree .postgis) false = .ok plan ∧
      (Storage.plain tree .postgis).readerKeys window.sortKeys = .ok keys ∧
      Reconstruction.start plan [true] = .ok r ∧ plan.rowsTexts window = .ok texts ∧
      List.Forall₂ (fun group text => group.IsReadBy (.plain tree .postgis) keys text)
        plan.groups texts ∧
      ∃ a b k, r.layouts[1]? = some a ∧ r.layouts[2]? = some b ∧
        (Arena.ofTree tree).IsMeet 2 3 k ∧
        a.shared b = 1 + ((Arena.ofTree tree).chain k).length ∧ a.shared b = 3 ∧
        ∀ x y : Row, compareRows a x b y = compareRows (a.take 3) x (a.take 3) y := by
  intro address paths window joined texts
  have hcomputed : (do
      let tree ← TableTree.ofPaths paths
      let plan ← ReadPlan.ofStorage "parcel" (.plain tree .postgis) false
      let keys ← (Storage.plain tree .postgis).readerKeys window.sortKeys
      let r ← Reconstruction.start plan [true]
      let texts ← plan.rowsTexts window
      let _ ← (Storage.plain tree .postgis).restriction window.filter
      return (texts, tree.readTables.map Prod.fst, keys.length,
        (r.layouts[1]?.map fun a => r.layouts[2]?.map a.shared)) :
        Except Error (List String × List Nat × Nat × Option (Option Nat))).toOption =
      some (texts, [0, 2, 3], 1, some (some 3)) := by
    decide +kernel
  obtain ⟨tree, htree, hok⟩ := bind_eq_ok.1 (toOption_eq_some.1 hcomputed)
  obtain ⟨plan, hplan, hok⟩ := bind_eq_ok.1 hok
  obtain ⟨keys, hkeys, hok⟩ := bind_eq_ok.1 hok
  obtain ⟨r, hr, hok⟩ := bind_eq_ok.1 hok
  obtain ⟨rendered, htexts, hok⟩ := bind_eq_ok.1 hok
  obtain ⟨restriction, hrestriction, hok⟩ := bind_eq_ok.1 hok
  obtain ⟨hrendered, hok⟩ := Prod.mk.inj (pure_eq_ok.1 hok)
  obtain ⟨hids, hok⟩ := Prod.mk.inj hok
  obtain ⟨hcount, hlayouts⟩ := Prod.mk.inj hok
  rw [hrendered] at htexts
  have hid : ∀ i id : Nat, [0, 2, 3][i]? = some id →
      ∃ e, tree.readTables[i]? = some e ∧ e.1 = id := by
    intro i id hi
    rwa [← hids, List.getElem?_map, Option.map_eq_some_iff] at hi
  obtain ⟨e, he, htwo⟩ := hid 1 2 rfl
  obtain ⟨f, hf, hother⟩ := hid 2 3 rfl
  obtain ⟨r', hr', -, -, hread, hmeet⟩ :=
    plan_agrees (TableTree.isDerived_of_ofPaths htree) hplan hkeys
  obtain rfl : r = r' := Except.ok.inj (hr.symm.trans hr')
  obtain ⟨others, hothers, hall⟩ := hread restriction hrestriction
  obtain rfl : texts = others := Except.ok.inj (htexts.symm.trans hothers)
  obtain ⟨a, b, k, ha, hb, hk, hshared, hcompared⟩ := hmeet 1 2 e f he hf
  rw [htwo, hother] at hk
  rw [hcount] at hshared
  rw [ha, hb] at hlayouts
  have hthree : a.shared b = 3 := Option.some.inj (Option.some.inj hlayouts)
  rw [hthree] at hcompared
  exact ⟨tree, plan, keys, r, htree, hplan, hkeys, hr, htexts, hall, a, b, k, ha, hb, hk, hshared,
    hthree, hcompared⟩

end Plan

end FeatureStore
