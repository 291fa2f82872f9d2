import FeatureStore.Proofs.Write.Staged

/-!
# The order in which rows are written

A new feature is written row by row: a row, and then for each table below its own the rows that
belong to it, in the order in which they were staged (`TableTree.writtenRows`). The statements of
a new feature are those of these rows one after the other (`emit_of_isOwned`). Every staged row is
written exactly once: rows are grouped by the row that they belong to, and every row belongs to one
(`perm_writtenRows`). A row comes behind the row that it belongs to (`parentsFirst_writtenRows`),
and rows of one table that belong to the same row keep their order (`inOrder_writtenRows`).
-/

set_option autoImplicit false

namespace FeatureStore

/-- A staged row with its table and the row of the parent that it belongs to. -/
structure WrittenRow where
  table : Table
  ref : RowRef
  staged : StagedRow
  parent : Option RowRef

namespace WrittenRow

/-- The statement that inserts the row. -/
def insertion (srid : Nat) (x : WrittenRow) : Statement :=
  insertStatement srid x.table x.ref x.staged x.parent none

/-- The statements that write the row. -/
def statements (srid : Nat) (x : WrittenRow) : List Statement :=
  x.insertion srid :: linkStatements x.table x.ref x.parent

/-- Of two rows of one table that belong to the same row, the first was staged first. -/
def InOrder (x y : WrittenRow) : Prop :=
  x.ref.table = y.ref.table → x.parent = y.parent → x.ref.row < y.ref.row

end WrittenRow

namespace Staging

/-- A staged row of a table as it is written. -/
def written (s : Staging) (table : Table) (ref : RowRef) : WrittenRow :=
  let staged := ((s.rowsOf ref.table)[ref.row]?).getD default
  let parent := (s.arena.parent? ref.table).bind fun parent =>
    staged.parentRow.map (RowRef.mk parent)
  ⟨table, ref, staged, parent⟩

/-- All staged rows of a table. -/
def refsOf (s : Staging) (table : Nat) : List RowRef :=
  (List.range (s.rowsOf table).length).map (RowRef.mk table)

end Staging

namespace TableTree

mutual
/-- A row of the table at the top of a tree and all rows below it in the order in which they are
written. The top has the number `id`. -/
def writtenRows (s : Staging) (id : Nat) : TableTree → Nat → List WrittenRow
  | .node table children, row =>
    s.written table ⟨id, row⟩ :: writtenBelow s (id + 1) row children

/-- The rows of some tables under a row of their parent. The first table has the number `id`. -/
def writtenBelow (s : Staging) (id parentRow : Nat) : List TableTree → List WrittenRow
  | [] => []
  | tree :: rest =>
    (s.rowsUnder id (some parentRow)).flatMap (tree.writtenRows s id) ++
      writtenBelow s (id + tree.size) parentRow rest
end

end TableTree

/-! ## Rows under a row -/

namespace Staging

variable {s : Staging} {table row : Nat} {owner : Option Nat}

theorem mem_rowsUnder : row ∈ s.rowsUnder table owner ↔ (s.ownersOf table)[row]? = some owner := by
  rw [rowsUnder, List.mem_map, ownersOf, List.getElem?_map, Option.map_eq_some_iff]
  constructor
  · rintro ⟨⟨staged, index⟩, hmem, rfl⟩
    obtain ⟨hzip, howner⟩ := List.mem_filter.1 hmem
    exact ⟨staged, List.mem_zipIdx_iff_getElem?.1 hzip, beq_iff_eq.1 howner⟩
  · rintro ⟨staged, hget, howner⟩
    exact ⟨(staged, row), List.mem_filter.2 ⟨List.mem_zipIdx_iff_getElem?.2 hget,
      beq_iff_eq.2 howner⟩, rfl⟩

theorem lt_of_mem_rowsUnder (h : row ∈ s.rowsUnder table owner) :
    row < (s.rowsOf table).length := by
  rw [← length_ownersOf]
  exact (List.getElem?_eq_some_iff.1 (mem_rowsUnder.1 h)).1

/-- Rows that belong to one row are found in the order in which they were staged. -/
theorem pairwise_rowsUnder (s : Staging) (table : Nat) (owner : Option Nat) :
    (s.rowsUnder table owner).Pairwise (· < ·) := by
  have hindexes : ((s.rowsOf table).zipIdx.map Prod.snd).Pairwise (· < ·) := by
    rw [List.zipIdx_map_snd]
    exact List.pairwise_lt_range'
  rw [rowsUnder, List.pairwise_map]
  exact (List.pairwise_map.1 hindexes).filter _

/-- The rows of a table are those under all rows of the parent. -/
theorem IsOwned.perm_rowsUnder {tree : TableTree} (h : s.IsOwned tree) {parent : Nat}
    (hparent : s.arena.parent? table = some parent) :
    ((List.range (s.rowsOf parent).length).flatMap fun i => s.rowsUnder table (some i)).Perm
      (List.range (s.rowsOf table).length) := by
  refine (List.perm_ext_iff_of_nodup ?_ List.nodup_range).2 fun row => ?_
  · -- a row belongs to one row only
    refine List.nodup_flatMap.2 ⟨fun i _ => (pairwise_rowsUnder s table (some i)).imp Nat.ne_of_lt,
      List.pairwise_lt_range.imp fun {i j} hij => ?_⟩
    intro row hi hj
    have := (mem_rowsUnder.1 hi).symm.trans (mem_rowsUnder.1 hj)
    exact Nat.ne_of_lt hij (Option.some.inj (Option.some.inj this))
  · rw [List.mem_flatMap, List.mem_range]
    constructor
    · rintro ⟨i, -, hrow⟩
      exact lt_of_mem_rowsUnder hrow
    · intro hrow
      rw [← length_ownersOf] at hrow
      obtain ⟨i, howner, hlt⟩ := h.owned hparent _ (List.getElem_mem hrow)
      exact ⟨i, List.mem_range.2 hlt, mem_rowsUnder.2 (by
        rw [List.getElem?_eq_getElem hrow, howner])⟩

/-- Where staged rows are numbered like a tree, a part below a table has that table as its
parent. -/
theorem parent?_of_holdsList {tree t : TableTree} {rest : List TableTree} {parent depth id : Nat}
    (harena : s.arena = Arena.ofTree tree)
    (hholds : (Arena.ofTree tree).HoldsList parent depth id (t :: rest)) :
    s.arena.parent? id = some parent := by
  rw [harena]
  exact hholds.first.parent?_eq

/-- A row found under a row belongs to it. -/
theorem parent_written {parent i : Nat} (hparent : s.arena.parent? table = some parent)
    (hrow : row ∈ s.rowsUnder table (some i)) (t : Table) :
    (s.written t ⟨table, row⟩).parent = some ⟨parent, i⟩ := by
  have howner := mem_rowsUnder.1 hrow
  rw [ownersOf, List.getElem?_map, Option.map_eq_some_iff] at howner
  obtain ⟨staged, hget, howner⟩ := howner
  show (s.arena.parent? table).bind _ = _
  rw [hparent, hget]
  show staged.parentRow.map (RowRef.mk parent) = _
  rw [howner]
  rfl

end Staging

/-! ## Statements and rows -/

namespace TableTree

open Staging

variable {tree : TableTree} {s : Staging}

/-- The row of the parent that a row below the root belongs to is known. -/
theorem parentRef_eq (h : s.IsOwned tree) {id row : Nat} (hrow : row < (s.rowsOf id).length)
    (t : Table) : parentRef s t ⟨id, row⟩ (s.written t ⟨id, row⟩).staged =
      .ok (s.written t ⟨id, row⟩).parent := by
  have hstaged : (s.written t ⟨id, row⟩).staged = (s.rowsOf id)[row] := by
    show ((s.rowsOf id)[row]?).getD default = _
    rw [List.getElem?_eq_getElem hrow]
    rfl
  have hparents : (s.written t ⟨id, row⟩).parent = (s.arena.parent? id).bind fun parent =>
      (s.written t ⟨id, row⟩).staged.parentRow.map (RowRef.mk parent) := rfl
  rw [parentRef, hparents]
  cases hparent : s.arena.parent? id with
  | none => rfl
  | some parent =>
    obtain ⟨owner, howner, -⟩ := h.owned hparent (s.rowsOf id)[row].parentRow
      (List.mem_map_of_mem (List.getElem_mem hrow))
    rw [hstaged, howner]
    rfl

theorem row_eq_ok {id row : Nat} (hrow : row < (s.rowsOf id).length) (t : Table) :
    s.row id row = .ok (s.written t ⟨id, row⟩).staged := by
  show _ = Except.ok (((s.rowsOf id)[row]?).getD default)
  rw [Staging.row, List.getElem?_eq_getElem hrow]
  rfl

mutual
/-- The statements that write a row and all rows below it are those of these rows. -/
theorem emit_of_isOwned (htree : tree.IsDerived) (h : s.IsOwned tree) (srid : Nat) :
    ∀ {t : TableTree} {parent : Option Nat} {depth id row : Nat},
    (Arena.ofTree tree).Holds parent depth id t → row < (s.rowsOf id).length →
      t.emit srid s id none row = .ok ((t.writtenRows s id row).flatMap (·.statements srid))
  | .node table children, parent, depth, id, row, hholds, hrow => by
    rw [emit, writtenRows, List.flatMap_cons]
    refine bind_eq_ok.2 ⟨_, row_eq_ok hrow table, bind_eq_ok.2 ⟨_, parentRef_eq h hrow table, ?_⟩⟩
    exact bind_eq_ok.2 ⟨_, emitList_of_isOwned htree h srid hholds.below row, rfl⟩

theorem emitList_of_isOwned (htree : tree.IsDerived) (h : s.IsOwned tree) (srid : Nat) :
    ∀ {l : List TableTree} {parent depth id : Nat},
    (Arena.ofTree tree).HoldsList parent depth id l → ∀ parentRow : Nat,
      emitList srid s id parentRow l =
        .ok ((writtenBelow s id parentRow l).flatMap (·.statements srid))
  | [], _, _, _, _, _ => rfl
  | t :: rest, parent, depth, id, hholds, parentRow => by
    have hparent := parent?_of_holdsList h.arena_eq hholds
    have hkey : s.parentKey id parentRow = some parentRow := by
      rw [parentKey, hparent]
      rfl
    have htable : s.tableOf t.root.path = .ok id := by
      have hid := Arena.idOf?_path htree hholds.first.get?_eq
      rw [tableOf, h.arena_eq]
      rw [show (t.topNode (some parent) depth id).path = t.root.path from rfl] at hid
      rw [hid]
    have hcount : s.rowCount t.root.path parentRow =
        .ok (s.rowsUnder id (some parentRow)).length := by
      rw [rowCount, htable, ← hkey]
      rfl
    -- counting and taking the n-th row go over the same list of rows
    have hrows : ((List.range (s.rowsUnder id (some parentRow)).length).mapM fun n => do
        t.emit srid s id none (← s.nthRow id parentRow n) : Except Error (List (List Statement))) =
        .ok ((s.rowsUnder id (some parentRow)).map fun row =>
          (t.writtenRows s id row).flatMap (·.statements srid)) := by
      refine mapM_range_eq_ok_map fun n row hget => ?_
      have hnth : s.nthRow id parentRow n = .ok row := by
        rw [nthRow, hkey, hget]
      have hlt := lt_of_mem_rowsUnder (List.mem_of_getElem? hget)
      exact bind_eq_ok.2 ⟨row, hnth, emit_of_isOwned htree h srid hholds.first hlt⟩
    have hothers := emitList_of_isOwned htree h srid hholds.others parentRow
    rw [emitList, hcount]
    refine bind_eq_ok.2 ⟨_, rfl, bind_eq_ok.2 ⟨_, hrows, bind_eq_ok.2 ⟨_, hothers, ?_⟩⟩⟩
    rw [writtenBelow, List.flatMap_append, List.flatMap_assoc, List.flatMap_def]
    rfl
end

/-- A statement for the rows of some tables is one for a row of the first of them and the rows below
it, or one for the others. -/
theorem cases_of_mem_emitList {srid : Nat} {t : TableTree} {rest : List TableTree}
    {id parentRow : Nat} {statements : List Statement}
    (h : emitList srid s id parentRow (t :: rest) = .ok statements) :
    ∃ others, emitList srid s (id + t.size) parentRow rest = .ok others ∧
      ∀ statement ∈ statements, (∃ row written, t.emit srid s id none row = .ok written ∧
        statement ∈ written) ∨ statement ∈ others := by
  rw [emitList] at h
  obtain ⟨count, -, h⟩ := bind_eq_ok.1 h
  obtain ⟨rows, hrows, h⟩ := bind_eq_ok.1 h
  obtain ⟨others, hothers, h⟩ := bind_eq_ok.1 h
  obtain rfl := pure_eq_ok.1 h
  refine ⟨others, hothers, fun statement hmem => (List.mem_append.1 hmem).imp_left fun hmem => ?_⟩
  obtain ⟨written, hwritten, hmem⟩ := List.mem_flatten.1 hmem
  obtain ⟨n, -, hn⟩ := exists_of_mapM_eq_ok hrows hwritten
  obtain ⟨row, -, hemit⟩ := bind_eq_ok.1 hn
  exact ⟨row, written, hemit, hmem⟩

/-- The statements of the one root row and all rows below it. -/
theorem emit_eq (htree : tree.IsDerived) (h : s.IsStaged tree) (srid : Nat) {t : TableTree}
    {parent : Option Nat} {depth id row : Nat} (hholds : (Arena.ofTree tree).Holds parent depth id t)
    (hrow : row < (s.rowsOf id).length) :
    t.emit srid s id none row = .ok ((t.writtenRows s id row).flatMap (·.statements srid)) :=
  emit_of_isOwned htree h.isOwned srid hholds hrow

/-! ## Every row once -/

mutual
/-- Every row of the tables of a tree is written under one row of the top. -/
theorem perm_writtenRows (h : s.IsOwned tree) : ∀ {t : TableTree} {parent : Option Nat}
    {depth id : Nat}, (Arena.ofTree tree).Holds parent depth id t →
      ((List.range (s.rowsOf id).length).flatMap fun row =>
        (t.writtenRows s id row).map WrittenRow.ref).Perm
          ((List.range' id t.size).flatMap s.refsOf)
  | .node table children, parent, depth, id, hholds => by
    -- the rows of the top come apart from those below them
    have htop : (List.range (s.rowsOf id).length).flatMap (fun row => [RowRef.mk id row]) =
        s.refsOf id := List.flatMap_pure_eq_map _ _
    have hsplit := List.flatMap_append_perm (List.range (s.rowsOf id).length)
      (fun row => [RowRef.mk id row])
      (fun row => (writtenBelow s (id + 1) row children).map WrittenRow.ref)
    rw [size, List.range'_succ, List.flatMap_cons, ← htop]
    exact hsplit.symm.trans ((perm_writtenBelow h hholds.below).append_left _)

theorem perm_writtenBelow (h : s.IsOwned tree) : ∀ {l : List TableTree} {parent depth id : Nat},
    (Arena.ofTree tree).HoldsList parent depth id l →
      ((List.range (s.rowsOf parent).length).flatMap fun row =>
        (writtenBelow s id row l).map WrittenRow.ref).Perm
          ((List.range' id (sizeOfList l)).flatMap s.refsOf)
  | [], _, _, _, _ => by simp [writtenBelow, sizeOfList]
  | t :: rest, parent, depth, id, hholds => by
    have hparent := parent?_of_holdsList h.arena_eq hholds
    have hsplit := List.flatMap_append_perm (List.range (s.rowsOf parent).length)
      (fun row => (s.rowsUnder id (some row)).flatMap fun r =>
        (t.writtenRows s id r).map WrittenRow.ref)
      (fun row => (writtenBelow s (id + t.size) row rest).map WrittenRow.ref)
    -- the rows under all rows of the parent are all rows of the table
    have hfirst : ((List.range (s.rowsOf parent).length).flatMap fun row =>
        (s.rowsUnder id (some row)).flatMap fun r => (t.writtenRows s id r).map WrittenRow.ref).Perm
          ((List.range' id t.size).flatMap s.refsOf) := by
      rw [← List.flatMap_assoc]
      exact ((h.perm_rowsUnder hparent).flatMap_right _).trans (perm_writtenRows h hholds.first)
    rw [sizeOfList, ← List.range'_append_1, List.flatMap_append]
    simp only [writtenBelow, List.map_append, List.map_flatMap]
    exact hsplit.symm.trans (hfirst.append (perm_writtenBelow h hholds.others))
end

theorem nodup_flatMap_refsOf (s : Staging) (id n : Nat) :
    ((List.range' id n).flatMap s.refsOf).Nodup := by
  have hids : (List.range' id n).Pairwise (· < ·) := List.pairwise_lt_range'
  refine List.nodup_flatMap.2 ⟨fun k _ => ?_, hids.imp fun {j k} hjk => ?_⟩
  · exact List.nodup_range.map fun i j hij => (RowRef.mk.inj hij).2
  · intro ref hj hk
    obtain ⟨i, -, rfl⟩ := List.mem_map.1 hj
    obtain ⟨i', -, href⟩ := List.mem_map.1 hk
    exact Nat.ne_of_lt hjk (RowRef.mk.inj href).1.symm

/-- No row is written under two rows of the top. -/
theorem disjoint_writtenRows (h : s.IsOwned tree) {t : TableTree} {parent : Option Nat}
    {depth id a b : Nat} (hholds : (Arena.ofTree tree).Holds parent depth id t) (hab : a < b)
    (hb : b < (s.rowsOf id).length) {ref : RowRef}
    (hrefa : ref ∈ (t.writtenRows s id a).map WrittenRow.ref)
    (hrefb : ref ∈ (t.writtenRows s id b).map WrittenRow.ref) : False := by
  have hnodup := (perm_writtenRows h hholds).nodup_iff.2 (nodup_flatMap_refsOf s id t.size)
  have hdisjoint := List.pairwise_iff_getElem.1 (List.nodup_flatMap.1 hnodup).2 a b
    (by simpa using hab.trans hb) (by simpa using hb) hab
  rw [List.getElem_range, List.getElem_range] at hdisjoint
  exact hdisjoint hrefa hrefb

/-! ## Rows and their parents -/

mutual
/-- The rows written belong to tables of the tree. -/
theorem table_of_mem_writtenRows (s : Staging) : ∀ {t : TableTree} {id row : Nat} {x : WrittenRow},
    x ∈ t.writtenRows s id row →
      ∃ k, x.ref.table = id + k ∧ t.tables[k]? = some x.table ∧ x = s.written x.table x.ref
  | .node table children, id, row, x, h => by
    rw [writtenRows] at h
    rcases List.mem_cons.1 h with rfl | h
    · exact ⟨0, rfl, rfl, rfl⟩
    · obtain ⟨k, hk, htable, hx⟩ := table_of_mem_writtenBelow s h
      exact ⟨k + 1, by omega, htable, hx⟩

theorem table_of_mem_writtenBelow (s : Staging) : ∀ {l : List TableTree} {id row : Nat}
    {x : WrittenRow}, x ∈ writtenBelow s id row l →
      ∃ k, x.ref.table = id + k ∧ (tablesOfList l)[k]? = some x.table ∧ x = s.written x.table x.ref
  | [], _, _, _, h => by simp [writtenBelow] at h
  | t :: rest, id, row, x, h => by
    rw [writtenBelow] at h
    rw [tablesOfList]
    rcases List.mem_append.1 h with h | h
    · obtain ⟨r, -, hr⟩ := List.mem_flatMap.1 h
      obtain ⟨k, hk, htable, hx⟩ := table_of_mem_writtenRows s hr
      have hlt := (List.getElem?_eq_some_iff.1 htable).1
      exact ⟨k, hk, by rw [List.getElem?_append_left hlt, htable], hx⟩
    · obtain ⟨k, hk, htable, hx⟩ := table_of_mem_writtenBelow s h
      have hlength := length_tables t
      refine ⟨t.size + k, by omega, ?_, hx⟩
      rw [List.getElem?_append_right (by omega), ← htable]
      congr 1
      omega
end

mutual
/-- A row written below the first one belongs to another one, and an edge leads from the table of
that one to its own. -/
theorem parent_of_mem_writtenRows : ∀ {t : TableTree} {parent : Option Nat} {depth id row : Nat}
    {x : WrittenRow}, s.arena = Arena.ofTree tree → (Arena.ofTree tree).Holds parent depth id t →
    x ∈ t.writtenRows s id row → x = s.written t.root ⟨id, row⟩ ∨ id < x.ref.table ∧
      ∃ y ∈ t.writtenRows s id row, x.parent = some y.ref ∧ (y.table, x.table) ∈ t.edges
  | .node table children, parent, depth, id, row, x, harena, hholds, h => by
    rw [writtenRows] at h ⊢
    rcases List.mem_cons.1 h with rfl | h
    · exact Or.inl rfl
    · obtain ⟨hid, y, hy, hparent⟩ := parent_of_mem_writtenBelow harena hholds.below
        (s.written table ⟨id, row⟩) rfl h
      exact Or.inr ⟨hid, y, hy, hparent⟩

theorem parent_of_mem_writtenBelow : ∀ {l : List TableTree} {parent depth id row : Nat}
    {x : WrittenRow}, s.arena = Arena.ofTree tree →
    (Arena.ofTree tree).HoldsList parent depth id l → ∀ top : WrittenRow,
    top.ref = ⟨parent, row⟩ → x ∈ writtenBelow s id row l → id ≤ x.ref.table ∧
      ∃ y ∈ top :: writtenBelow s id row l, x.parent = some y.ref ∧
        (y.table, x.table) ∈ edgesOfList top.table l
  | [], _, _, _, _, _, _, _, _, _, h => by simp [writtenBelow] at h
  | t :: rest, parent, depth, id, row, x, harena, hholds, top, htop, h => by
    rw [writtenBelow] at h ⊢
    rw [edgesOfList]
    rcases List.mem_append.1 h with h | h
    · obtain ⟨r, hr, hx⟩ := List.mem_flatMap.1 h
      rcases parent_of_mem_writtenRows harena hholds.first hx with
        rfl | ⟨hid, y, hy, hparent, hedge⟩
      · have hparent := parent?_of_holdsList harena hholds
        refine ⟨Nat.le_refl _, top, List.mem_cons_self, ?_, List.mem_cons_self⟩
        rw [parent_written hparent hr, htop]
      · refine ⟨Nat.le_of_lt hid, y, ?_, hparent, ?_⟩
        · exact List.mem_cons_of_mem _ (List.mem_append_left _ (List.mem_flatMap.2 ⟨r, hr, hy⟩))
        · exact List.mem_cons_of_mem _ (List.mem_append_left _ hedge)
    · obtain ⟨hid, y, hy, hparent, hedge⟩ :=
        parent_of_mem_writtenBelow harena hholds.others top htop h
      refine ⟨by omega, y, ?_, hparent, List.mem_cons_of_mem _ (List.mem_append_right _ hedge)⟩
      rcases List.mem_cons.1 hy with rfl | hy
      · exact List.mem_cons_self
      · exact List.mem_cons_of_mem _ (List.mem_append_right _ hy)
end

end TableTree

/-- Every row stands behind the row that it belongs to, or that row is known beforehand. -/
def ParentsFirst : List RowRef → List WrittenRow → Prop
  | _, [] => True
  | known, x :: rest =>
    (∀ ref, x.parent = some ref → ref ∈ known) ∧ ParentsFirst (x.ref :: known) rest

namespace ParentsFirst

theorem mono : ∀ {rows : List WrittenRow} {known more : List RowRef}, known ⊆ more →
    ParentsFirst known rows → ParentsFirst more rows
  | [], _, _, _, _ => trivial
  | _ :: _, _, _, hsub, ⟨hparent, hrest⟩ =>
    ⟨fun ref href => hsub (hparent ref href), hrest.mono (List.cons_subset_cons _ hsub)⟩

theorem append {others : List WrittenRow} : ∀ {rows : List WrittenRow} {known : List RowRef},
    ParentsFirst known rows → ParentsFirst known others → ParentsFirst known (rows ++ others)
  | [], _, _, hothers => hothers
  | _ :: _, _, ⟨hparent, hrest⟩, hothers =>
    ⟨hparent, hrest.append (hothers.mono (List.subset_cons_self _ _))⟩

theorem flatMap {α : Type} {known : List RowRef} {f : α → List WrittenRow} : ∀ {l : List α},
    (∀ a ∈ l, ParentsFirst known (f a)) → ParentsFirst known (l.flatMap f)
  | [], _ => trivial
  | a :: l, h => by
    rw [List.flatMap_cons]
    obtain ⟨ha, hl⟩ := List.forall_mem_cons.1 h
    exact ha.append (flatMap hl)

/-- A row of such a list has the row that it belongs to in front of it. -/
theorem mem_before {x : WrittenRow} {behind : List WrittenRow} {ref : RowRef} :
    ∀ {before : List WrittenRow} {known : List RowRef},
    ParentsFirst known (before ++ x :: behind) → x.parent = some ref →
      ref ∈ known ∨ ref ∈ before.map WrittenRow.ref
  | [], _, h, hx => Or.inl (h.1 ref hx)
  | y :: before, known, h, hx => by
    rcases mem_before h.2 hx with hmem | hmem
    · rcases List.mem_cons.1 hmem with rfl | hmem
      · exact Or.inr List.mem_cons_self
      · exact Or.inl hmem
    · exact Or.inr (List.mem_cons_of_mem _ hmem)

end ParentsFirst

namespace TableTree

open Staging

variable {tree : TableTree} {s : Staging}

mutual
/-- Every row comes behind the row that it belongs to. -/
theorem parentsFirst_writtenRows (harena : s.arena = Arena.ofTree tree) : ∀ {t : TableTree}
    {parent : Option Nat} {depth id row : Nat} {known : List RowRef},
    (Arena.ofTree tree).Holds parent depth id t →
    (∀ ref, (s.written t.root ⟨id, row⟩).parent = some ref → ref ∈ known) →
      ParentsFirst known (t.writtenRows s id row)
  | .node _ _, _, _, _, _, _, hholds, hknown =>
    ⟨hknown, parentsFirst_writtenBelow harena hholds.below List.mem_cons_self⟩

theorem parentsFirst_writtenBelow (harena : s.arena = Arena.ofTree tree) : ∀ {l : List TableTree}
    {parent depth id row : Nat} {known : List RowRef},
    (Arena.ofTree tree).HoldsList parent depth id l → ⟨parent, row⟩ ∈ known →
      ParentsFirst known (writtenBelow s id row l)
  | [], _, _, _, _, _, _, _ => trivial
  | t :: rest, parent, depth, id, row, known, hholds, hknown => by
    rw [writtenBelow]
    refine ParentsFirst.append (ParentsFirst.flatMap fun r hr => ?_)
      (parentsFirst_writtenBelow harena hholds.others hknown)
    refine parentsFirst_writtenRows harena hholds.first fun ref href => ?_
    rw [parent_written (parent?_of_holdsList harena hholds) hr] at href
    rwa [← Option.some.inj href]
end

/-! ## The order among siblings -/

/-- Rows below two rows of one table are in order: the tops are, and no other two rows of them
belong to the same row. -/
theorem inOrder_of_lt (h : s.IsOwned tree) {t : TableTree} {parent : Option Nat}
    {depth id a b : Nat} (hholds : (Arena.ofTree tree).Holds parent depth id t) (hab : a < b)
    (hb : b < (s.rowsOf id).length) {x y : WrittenRow} (hx : x ∈ t.writtenRows s id a)
    (hy : y ∈ t.writtenRows s id b) : x.InOrder y := by
  intro htable hparents
  rcases parent_of_mem_writtenRows h.arena_eq hholds hx with rfl | ⟨hidx, p, hp, hpx, -⟩ <;>
    rcases parent_of_mem_writtenRows h.arena_eq hholds hy with rfl | ⟨hidy, q, hq, hqy, -⟩
  · exact hab
  · rw [← htable] at hidy
    exact absurd hidy (Nat.lt_irrefl id)
  · rw [htable] at hidx
    exact absurd hidx (Nat.lt_irrefl id)
  · rw [hpx, hqy] at hparents
    -- the common parent row would be written under both tops
    have hsame := Option.some.inj hparents
    refine (disjoint_writtenRows h hholds hab hb (List.mem_map_of_mem hp) ?_).elim
    rw [hsame]
    exact List.mem_map_of_mem hq

mutual
/-- Rows of one table that belong to the same row are written in the order in which they were
staged. -/
theorem inOrder_writtenRows (h : s.IsOwned tree) : ∀ {t : TableTree} {parent : Option Nat}
    {depth id : Nat} (row : Nat), (Arena.ofTree tree).Holds parent depth id t →
      (t.writtenRows s id row).Pairwise WrittenRow.InOrder
  | .node table children, parent, depth, id, row, hholds => by
    rw [writtenRows, List.pairwise_cons]
    refine ⟨fun y hy htable => ?_, inOrder_writtenBelow h row hholds.below⟩
    obtain ⟨k, hk, -⟩ := table_of_mem_writtenBelow s hy
    rw [← htable] at hk
    change id = id + 1 + k at hk
    omega

theorem inOrder_writtenBelow (h : s.IsOwned tree) : ∀ {l : List TableTree} {parent depth id : Nat}
    (row : Nat), (Arena.ofTree tree).HoldsList parent depth id l →
      (writtenBelow s id row l).Pairwise WrittenRow.InOrder
  | [], _, _, _, _, _ => List.Pairwise.nil
  | t :: rest, parent, depth, id, row, hholds => by
    rw [writtenBelow]
    refine List.pairwise_append.2 ⟨List.pairwise_flatMap.2 ⟨fun r _ =>
      inOrder_writtenRows h r hholds.first, ?_⟩, inOrder_writtenBelow h row hholds.others, ?_⟩
    · refine (pairwise_rowsUnder s id (some row)).imp_of_mem fun {a b} _ hb hab x hx y hy => ?_
      exact inOrder_of_lt h hholds.first hab (lt_of_mem_rowsUnder hb) hx hy
    · -- rows below different siblings are rows of different tables
      intro x hx y hy htable
      obtain ⟨r, -, hx⟩ := List.mem_flatMap.1 hx
      obtain ⟨k, hk, hget, -⟩ := table_of_mem_writtenRows s hx
      obtain ⟨j, hj, -⟩ := table_of_mem_writtenBelow s hy
      have hlt := (List.getElem?_eq_some_iff.1 hget).1
      have hlength := length_tables t
      omega
end

end TableTree

end FeatureStore
