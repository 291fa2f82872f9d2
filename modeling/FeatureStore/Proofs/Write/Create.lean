import FeatureStore.Proofs.Write.WrittenRows

/-!
# The statements of a new feature

The statements of a new feature and its staged rows correspond (`changeStatements_create`).
Whatever was staged below the one root row, the statements can be made, and they are those of the
staged rows in some order: every staged row is inserted exactly once, behind the row that it
belongs to and behind the rows staged before it under the same one. An insertion is followed by
the one statement that ties the row to its parent row, or by none where the row stores the key of
the parent row itself (`IsTied`). The key stored is the identifier that the database gave to that
parent row (`storesKey`).
-/

set_option autoImplicit false

namespace FeatureStore

/-! ## The key of the parent row -/

/-- The text that inserts a row with the values of some columns. -/
def insertSql (table : String) (names : List String) (values : List Sql) (key : String) : Sql :=
  .text ("INSERT INTO " ++ table ++ " (" ++ ",".intercalate names ++ ") VALUES ") ::
    Sql.parenthesized (Sql.separated "," values) ++ Sql.ofText (" RETURNING " ++ key)

/-- A row stores in a column the identifier captured for another row: the insertion names the column
once, with that identifier as its value. -/
def WrittenRow.StoresKey (x : WrittenRow) (srid : Nat) (field : String) (ref : RowRef) : Prop :=
  ∃ names, field ∉ names ∧ ∀ (ids : CapturedIds) (id : String), ids.get? ref = some id →
    ∃ values, values.length = names.length ∧ (x.insertion srid).sql ids =
      .ok (insertSql x.table.name (field :: names) ([idLiteral id] :: values) x.table.primaryKey)

section Columns

variable {srid : Nat} {t : Table} {staged : StagedRow}

/-- A staged value needs no captured identifier. -/
theorem exists_sql_ofStaged (srid : Nat) (kind : ColumnKind) (value : Option String)
    (ids : CapturedIds) : ∃ sql, (StoredValue.ofStaged srid kind value).sql ids = .ok sql := by
  cases value with
  | none => exact ⟨_, rfl⟩
  | some text =>
    rw [StoredValue.ofStaged]
    split <;> exact ⟨_, rfl⟩

/-- A column is added only if it is not there yet. -/
theorem addStagedColumn_cases (columns : List (String × StoredValue)) (column : Column) :
    addStagedColumn srid t staged columns column = columns ∨
      column.name ∉ columns.map Prod.fst ∧ ∃ value,
        addStagedColumn srid t staged columns column =
          columns ++ [(column.name, StoredValue.ofStaged srid column.kind value)] := by
  rw [addStagedColumn]
  split
  · exact Or.inl rfl
  · rename_i hnew
    rw [Bool.or_eq_true, not_or, List.any_eq_true] at hnew
    split
    · rename_i value _
      refine Or.inr ⟨fun hmem => hnew.2 ?_, value, rfl⟩
      obtain ⟨c, hc, hname⟩ := List.mem_map.1 hmem
      exact ⟨c, hc, beq_iff_eq.2 hname⟩
    · exact Or.inl rfl

/-- Staged columns are put behind the columns that are there, under other names. -/
theorem foldl_addStagedColumn : ∀ (columns : List Column) (start : List (String × StoredValue)),
    ∃ more, columns.foldl (addStagedColumn srid t staged) start = start ++ more ∧
      ∀ c ∈ more, c.1 ∉ start.map Prod.fst ∧
        ∃ kind value, c.2 = StoredValue.ofStaged srid kind value
  | [], start => ⟨[], by simp⟩
  | column :: columns, start => by
    rw [List.foldl_cons]
    rcases @addStagedColumn_cases srid t staged start column with hsame | ⟨hnew, value, hadd⟩
    · rw [hsame]
      exact foldl_addStagedColumn columns start
    · rw [hadd]
      obtain ⟨more, hmore, hall⟩ := foldl_addStagedColumn columns
        (start ++ [(column.name, StoredValue.ofStaged srid column.kind value)])
      refine ⟨_ :: more, by rw [hmore, List.append_assoc]; rfl, fun c hc => ?_⟩
      rcases List.mem_cons.1 hc with rfl | hc
      · exact ⟨hnew, column.kind, value, rfl⟩
      · obtain ⟨hother, hstaged⟩ := hall c hc
        rw [List.map_append, List.mem_append, not_or] at hother
        exact ⟨hother.1, hstaged⟩

/-- Behind the identifier that is given and the key of the parent row, only staged values are
written. -/
theorem exists_insertColumns (srid : Nat) (t : Table) (staged : StagedRow)
    (parent : Option RowRef) (given : Option String) :
    ∃ more, insertColumns srid t staged parent given =
        givenColumns t given ++ parentColumns t parent ++ more ∧
      ∀ c ∈ more, c.1 ∉ (givenColumns t given ++ parentColumns t parent).map Prod.fst ∧
        ∃ kind value, c.2 = StoredValue.ofStaged srid kind value :=
  foldl_addStagedColumn _ _

/-- Behind the key of the parent row, only staged values are written. -/
theorem insertColumns_eq (srid : Nat) (t : Table) (staged : StagedRow) (parent : Option RowRef) :
    ∃ more, insertColumns srid t staged parent none = parentColumns t parent ++ more ∧
      ∀ c ∈ more, c.1 ∉ (parentColumns t parent).map Prod.fst ∧
        ∃ kind value, c.2 = StoredValue.ofStaged srid kind value :=
  exists_insertColumns srid t staged parent none

end Columns

/-- A row of a one-to-many or merge relation stores the key of its parent row. -/
theorem WrittenRow.storesKey {x : WrittenRow} {r : Relation} {ref : RowRef} (srid : Nat)
    (hrelation : x.table.relation? = some r) (hparent : x.parent = some ref)
    (hkind : r.kind = .oneToMany ∨ r.kind = .oneToOneMerge) :
    x.StoresKey srid r.targetField ref := by
  have hown : parentColumns x.table x.parent = [(r.targetField, .idOf ref)] := by
    rcases hkind with hkind | hkind <;>
      simp only [parentColumns, hrelation, hparent, hkind]
  -- the key of the parent row comes first, and no staged column takes its place
  obtain ⟨more, hcolumns, hall⟩ := insertColumns_eq srid x.table x.staged x.parent
  rw [hown] at hcolumns hall
  refine ⟨more.map Prod.fst, fun hmem => ?_, fun ids id hid => ?_⟩
  · obtain ⟨c, hc, hname⟩ := List.mem_map.1 hmem
    exact (hall c hc).1 (by rw [hname]; exact List.mem_cons_self)
  · -- the other values are rendered without the captured identifiers
    let values := more.map fun c => ((c.2.sql ids).toOption).getD []
    have hvalues : (more.mapM fun c => c.2.sql ids) = .ok values := by
      refine mapM_eq_ok_map fun c hc => ?_
      obtain ⟨kind, value, hstaged⟩ := (hall c hc).2
      obtain ⟨sql, hsql⟩ := exists_sql_ofStaged srid kind value ids
      rw [hstaged, hsql]
      rfl
    have hown : (StoredValue.idOf ref).sql ids = .ok [idLiteral id] := by
      rw [StoredValue.sql, CapturedIds.get, hid]
      rfl
    refine ⟨values, by rw [List.length_map, List.length_map], ?_⟩
    rw [insertion, insertStatement, hcolumns, List.singleton_append, Statement.sql,
      if_neg (by simp)]
    refine bind_eq_ok.2 ⟨_, ?_, rfl⟩
    rw [List.mapM_cons]
    exact bind_eq_ok.2 ⟨_, hown, bind_eq_ok.2 ⟨_, hvalues, rfl⟩⟩

/-! ## Rows and statements -/

/-- The statements, besides its insertion, that tie a row to that of its parent. -/
inductive IsTied (srid : Nat) (x y : WrittenRow) : List Statement → Prop
  /-- The row stores the key of its parent row. -/
  | stored {r : Relation} : x.table.relation? = some r →
      (r.kind = .oneToMany ∨ r.kind = .oneToOneMerge) → x.StoresKey srid r.targetField y.ref →
      IsTied srid x y []
  /-- A row of the junction links both rows. -/
  | linked {r : Relation} {j : Junction} : x.table.relation? = some r → r.kind = .manyToMany →
      r.junction = some j →
      IsTied srid x y [.link j.table j.sourceField j.targetField y.ref x.ref]
  /-- The row of the parent table, found by its primary key, is pointed at the row. -/
  | referenced {r : Relation} : x.table.relation? = some r → r.kind = .oneToOneReference →
      IsTied srid x y [.pointAt y.table.name r.sourceField y.table.primaryKey y.ref x.ref]

theorem linkStatements_none (t : Table) (ref : RowRef) : linkStatements t ref none = [] := by
  unfold linkStatements
  cases t.relation? <;> rfl

/-- A row along an edge is tied to the row of its parent. -/
theorem isTied_of_links {x y : WrittenRow} {r : Relation} (srid : Nat)
    (hrelation : x.table.relation? = some r) (hlinks : r.Links y.table x.table)
    (hparent : x.parent = some y.ref) :
    IsTied srid x y (linkStatements x.table x.ref x.parent) := by
  -- the relation is stored in the row, or told by a statement behind it
  cases hkind : r.kind with
  | none => exact absurd hkind hlinks.kind_ne
  | oneToOneMerge =>
    have hnone : linkStatements x.table x.ref x.parent = [] := by
      simp only [linkStatements, hrelation, hparent, hkind]
    rw [hnone]
    exact .stored hrelation (Or.inr hkind) (x.storesKey srid hrelation hparent (Or.inr hkind))
  | oneToMany =>
    have hnone : linkStatements x.table x.ref x.parent = [] := by
      simp only [linkStatements, hrelation, hparent, hkind]
    rw [hnone]
    exact .stored hrelation (Or.inl hkind) (x.storesKey srid hrelation hparent (Or.inl hkind))
  | manyToMany =>
    obtain ⟨j, hj⟩ := Option.isSome_iff_exists.1 (hlinks.junction_isSome.2 hkind)
    have hone : linkStatements x.table x.ref x.parent =
        [.link j.table j.sourceField j.targetField y.ref x.ref] := by
      simp only [linkStatements, hrelation, hparent, hkind, hj]
    rw [hone]
    exact .linked hrelation hkind hj
  | oneToOneReference =>
    have hone : linkStatements x.table x.ref x.parent =
        [.pointAt y.table.name r.sourceField y.table.primaryKey y.ref x.ref] := by
      simp only [linkStatements, hrelation, hparent, hkind, hlinks.sourceTable,
        hlinks.sourcePrimaryKey]
    rw [hone]
    exact .referenced hrelation hkind

/-- The rows are the staged rows of a feature in an order in which they can be written. -/
structure Staging.IsWrittenBy (s : Staging) (tree : TableTree) (srid : Nat)
    (rows : List WrittenRow) : Prop where
  /-- A row comes with its table, its values and the row of the parent that it belongs to. -/
  staged : ∀ x ∈ rows, tree.tables[x.ref.table]? = some x.table ∧
    (s.rowsOf x.ref.table)[x.ref.row]? = some x.staged ∧
    x.parent = (s.arena.parent? x.ref.table).bind fun parent =>
      x.staged.parentRow.map (RowRef.mk parent)
  nodup : (rows.map WrittenRow.ref).Nodup
  complete : ∀ ref, ref ∈ rows.map WrittenRow.ref ↔ ref.row < (s.rowsOf ref.table).length
  parent_before : ∀ before x behind ref, rows = before ++ x :: behind → x.parent = some ref →
    ref ∈ before.map WrittenRow.ref
  inOrder : rows.Pairwise WrittenRow.InOrder
  tied : ∀ x ∈ rows, x.ref = ⟨0, 0⟩ ∧ x.parent = none ∧ x.statements srid = [x.insertion srid] ∨
    ∃ y ∈ rows, x.parent = some y.ref ∧ ∃ ties, x.statements srid = x.insertion srid :: ties ∧
      IsTied srid x y ties

/-- Only the insertion of a row captures an identifier. -/
theorem filterMap_capture?_statements (srid : Nat) (rows : List WrittenRow) :
    (rows.flatMap (WrittenRow.statements srid)).filterMap Statement.capture? =
      rows.map WrittenRow.ref := by
  have hlink : ∀ (t : Table) (ref : RowRef) (parent : Option RowRef),
      (linkStatements t ref parent).filterMap Statement.capture? = [] := by
    intro t ref parent
    unfold linkStatements
    split
    · split <;> rfl
    · rfl
  rw [List.filterMap_flatMap, List.map_eq_flatMap]
  congr 1
  funext x
  have hinsert : (x.insertion srid).capture? = some x.ref := rfl
  rw [WrittenRow.statements, List.filterMap_cons_some hinsert, hlink]

theorem Staging.IsStaged.length_rowsOf_root {tree : TableTree} {s : Staging} (h : s.IsStaged tree) :
    (s.rowsOf 0).length = 1 := by
  rw [← Staging.length_ownersOf, h.root]
  rfl

theorem Staging.IsOwned.parent_root {tree : TableTree} {s : Staging} (h : s.IsOwned tree) :
    (s.written tree.root ⟨0, 0⟩).parent = none := by
  show (s.arena.parent? 0).bind _ = none
  rw [h.arena_eq, Arena.parent?_root]
  rfl

/-- Since the root row belongs to none, no row has to be known beforehand. -/
theorem Staging.IsOwned.parentsFirst {tree : TableTree} {s : Staging} (h : s.IsOwned tree) :
    ParentsFirst [] (tree.writtenRows s 0 0) :=
  TableTree.parentsFirst_writtenRows h.arena_eq (Arena.holds_ofTree tree) fun ref href => by
    rw [h.parent_root] at href
    exact absurd href (by simp)

/-- All staged rows of all tables are written, since there is one root row. -/
theorem Staging.IsStaged.perm_refs {tree : TableTree} {s : Staging} (h : s.IsStaged tree) :
    ((tree.writtenRows s 0 0).map WrittenRow.ref).Perm
      ((List.range' 0 tree.size).flatMap s.refsOf) := by
  have hperm := TableTree.perm_writtenRows h.isOwned (Arena.holds_ofTree tree)
  rw [h.length_rowsOf_root] at hperm
  simpa using hperm

theorem Staging.IsStaged.mem_refs_iff {tree : TableTree} {s : Staging} (h : s.IsStaged tree)
    (ref : RowRef) : ref ∈ (tree.writtenRows s 0 0).map WrittenRow.ref ↔
      ref.row < (s.rowsOf ref.table).length := by
  rw [h.perm_refs.mem_iff, List.mem_flatMap]
  constructor
  · rintro ⟨k, -, href⟩
    obtain ⟨row, hrow, rfl⟩ := List.mem_map.1 href
    exact List.mem_range.1 hrow
  · intro href
    have hsize : s.arena.size = tree.size := by
      rw [h.arena_eq]
      exact tree.length_number none 0 0
    have hlt : ref.table < tree.size := by
      rw [← hsize]
      exact h.isOwned.lt_size (List.ne_nil_of_length_pos (by omega))
    exact ⟨ref.table, by simpa using hlt, List.mem_map.2 ⟨ref.row, List.mem_range.2 href, rfl⟩⟩

/-- All rows that are written for a feature. -/
theorem isWrittenBy_writtenRows {tree : TableTree} {s : Staging} (htree : tree.IsDerived)
    (h : s.IsStaged tree) (srid : Nat) : s.IsWrittenBy tree srid (tree.writtenRows s 0 0) := by
  have hholds := Arena.holds_ofTree tree
  refine ⟨fun x hx => ?_, h.perm_refs.nodup_iff.2 (TableTree.nodup_flatMap_refsOf s 0 tree.size),
    h.mem_refs_iff, fun before x behind ref hrows hx => ?_,
    TableTree.inOrder_writtenRows h.isOwned 0 hholds, fun x hx => ?_⟩
  · obtain ⟨k, hk, htable, hwritten⟩ := TableTree.table_of_mem_writtenRows s hx
    rw [Nat.zero_add] at hk
    have hlt := (h.mem_refs_iff x.ref).1 (List.mem_map_of_mem hx)
    refine ⟨by rw [hk, htable], ?_, ?_⟩
    · rw [hwritten]
      show (s.rowsOf x.ref.table)[x.ref.row]? = some (((s.rowsOf x.ref.table)[x.ref.row]?).getD _)
      rw [List.getElem?_eq_getElem hlt]
      rfl
    · rw [hwritten]
      rfl
  · have hfirst := h.isOwned.parentsFirst
    rw [hrows] at hfirst
    exact (hfirst.mem_before hx).resolve_left (by simp)
  · -- a row belongs to the root, or its parent is written too
    rcases TableTree.parent_of_mem_writtenRows h.arena_eq hholds hx with
      rfl | ⟨-, y, hy, hparent, hedge⟩
    · refine Or.inl ⟨rfl, h.isOwned.parent_root, ?_⟩
      rw [WrittenRow.statements, h.isOwned.parent_root, linkStatements_none]
    · obtain ⟨r, hrelations, hlinks⟩ := htree.links hedge
      refine Or.inr ⟨y, hy, hparent, _, rfl, isTied_of_links srid ?_ hlinks hparent⟩
      rw [Table.relation?, hrelations, List.getLast?_concat]

/-- For a feature that was staged without a second root row, the statements that create it can
always be made. They are those of its rows, each of which is inserted once, in an order in which
every row finds the key of its parent row. -/
theorem changeStatements_create {tree : TableTree} {ops : List ValueOp} {s : Staging}
    (htree : tree.IsDerived) (hops : ∀ op ∈ ops, op.KeepsRoot tree)
    (happly : (Staging.start tree).apply ops = .ok s) (srid : Nat) :
    ∃ rows, tree.changeStatements srid .create s =
        .ok (rows.flatMap (WrittenRow.statements srid)) ∧
      (rows.flatMap (WrittenRow.statements srid)).filterMap Statement.capture? =
        rows.map WrittenRow.ref ∧
      s.IsWrittenBy tree srid rows := by
  have h := Staging.isStaged_apply htree hops happly
  have hroot : 0 < (s.rowsOf 0).length := by
    rw [← Staging.length_ownersOf, h.root]
    exact Nat.one_pos
  exact ⟨tree.writtenRows s 0 0, TableTree.emit_eq htree h srid (Arena.holds_ofTree tree) hroot,
    filterMap_capture?_statements srid _, isWrittenBy_writtenRows htree h srid⟩

/-- A parcel with two owners and the address of the first one, which is opened by its value and
written before the second owner. -/
theorem changeStatements_create_parcel :
    let owner := "parcel/[id=parcel_id]owner"
    let address := "parcel/[id=parcel_id]owner/[address_id=id]address"
    let ops : List ValueOp :=
      [ .value "parcel/name" "name" "north", .row owner, .value (owner ++ "/name") "name" "Ann",
        .value (address ++ "/street") "street" "Elm", .row owner, .null owner "name" ]
    ∃ tree s rows,
      TableTree.ofPaths ["parcel/name", owner ++ "/name", address ++ "/street"] = .ok tree ∧
      (∀ op ∈ ops, op.KeepsRoot tree) ∧ (Staging.start tree).apply ops = .ok s ∧
      tree.changeStatements 4326 .create s =
        .ok (rows.flatMap (WrittenRow.statements 4326)) ∧
      (rows.flatMap (WrittenRow.statements 4326)).filterMap Statement.capture? =
        [⟨0, 0⟩, ⟨1, 0⟩, ⟨2, 0⟩, ⟨1, 1⟩] ∧
      s.IsWrittenBy tree 4326 rows := by
  intro owner address ops
  have hcaptured : (do
      let tree ← TableTree.ofPaths ["parcel/name", owner ++ "/name", address ++ "/street"]
      let s ← (Staging.start tree).apply ops
      let statements ← tree.changeStatements 4326 .create s
      return (decide (∀ op ∈ ops, op.KeepsRoot tree),
        statements.filterMap Statement.capture?) :
        Except Error (Bool × List RowRef)).toOption =
      some (true, [⟨0, 0⟩, ⟨1, 0⟩, ⟨2, 0⟩, ⟨1, 1⟩]) := by
    decide +kernel
  obtain ⟨tree, htree, hok⟩ := bind_eq_ok.1 (toOption_eq_some.1 hcaptured)
  obtain ⟨s, hs, hok⟩ := bind_eq_ok.1 hok
  obtain ⟨statements, hstatements, hok⟩ := bind_eq_ok.1 hok
  obtain ⟨hops, hrefs⟩ := Prod.mk.inj (pure_eq_ok.1 hok)
  have hops := of_decide_eq_true hops
  obtain ⟨rows, hrows, -, hwritten⟩ :=
    changeStatements_create (TableTree.isDerived_of_ofPaths htree) hops hs 4326
  obtain rfl := Except.ok.inj (hstatements.symm.trans hrows)
  exact ⟨tree, s, rows, htree, hops, hs, hrows, hrefs, hwritten⟩

end FeatureStore
