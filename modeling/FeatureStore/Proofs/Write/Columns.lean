import FeatureStore.Proofs.Write.Blocks
import FeatureStore.Proofs.Write.Kept

/-!
# The columns of an insertion

An insertion names its columns in three stages: the identifier that the writer gave, the key of the
parent row, and what was staged. The last stage is a loop that passes over a column if its name is
the primary key or stands among the names so far. What the loop gives is said without the names
that it gathers: of the stored columns of one name it takes the first, unless the name is taken
beforehand (`foldl_addStagedColumn_eq`). A staged value is the one that was set last, whatever calls
were made on the container and whether they succeeded (`valueAt?_afterCalls`). With both, every
insertion of a change is written out (`insertions_exact`).
-/

set_option autoImplicit false

namespace FeatureStore

/-! ## The last value -/

/-- The cell that an operation sets and what is set there, if the operation succeeds. -/
def ValueOp.setting? (s : Staging) (op : ValueOp) :
    Option ((RowRef × String) × Option String) :=
  match s.applyOp op with
  | .ok _ => do return (← op.cell? s, ← op.content?)
  | .error _ => none

/-- What the last of some settings sets a cell to. -/
def lastValue (cell : RowRef × String)
    (settings : List ((RowRef × String) × Option String)) : Option (Option String) :=
  ((settings.filter (·.1 == cell)).getLast?).map Prod.snd

/-- Later settings come before earlier ones. -/
theorem lastValue_append (cell : RowRef × String)
    (settings more : List ((RowRef × String) × Option String)) :
    lastValue cell (settings ++ more) = (lastValue cell more).or (lastValue cell settings) := by
  rw [lastValue, List.filter_append, List.getLast?_append, Option.map_or]
  rfl

namespace Staging

variable {tree : TableTree} {s : Staging}

/-- What calls set, one after the other. -/
def settings (s : Staging) : List ValueOp → List ((RowRef × String) × Option String)
  | [] => []
  | op :: ops => (op.setting? s).toList ++ (s.afterCall op).settings ops

/-- A call sets the cell that it says, and leaves all others. -/
theorem valueAt?_afterCall (htree : tree.IsDerived) (h : s.IsOwned tree) (op : ValueOp)
    (ref : RowRef) (column : String) :
    (s.afterCall op).valueAt? ref column =
      (lastValue (ref, column) (op.setting? s).toList).or (s.valueAt? ref column) := by
  rw [afterCall, InPlace.run_call, ValueOp.setting?]
  cases hop : s.applyOp op with
  | error e => rfl
  | ok next =>
    show next.valueAt? ref column = _
    by_cases hcell : op.cell? s = some (ref, column)
    · -- what is set at a cell has a content
      obtain ⟨value, hvalue⟩ : ∃ value, op.content? = some value := by
        cases op with
        | row path => exact absurd hcell.symm (Option.some_ne_none _)
        | value path name content => exact ⟨_, rfl⟩
        | null path name => exact ⟨_, rfl⟩
      rw [(valueAt?_applyOp_self htree h hop hcell hvalue).1, hcell, hvalue]
      simp [lastValue]
    · -- a call at another cell leaves this one alone, and sets nothing at it
      rw [valueAt?_applyOp_of_ne htree h hop hcell]
      suffices hnone : lastValue (ref, column) (do return (← op.cell? s, ← op.content?) :
          Option ((RowRef × String) × Option String)).toList = none by
        rw [hnone, Option.none_or]
      rcases hother : op.cell? s with _ | other
      · rfl
      · rcases op.content? with _ | value
        · rfl
        · have hne : other ≠ (ref, column) := fun heq => hcell (hother.trans (congrArg some heq))
          simp [lastValue, hne]

/-- What stands in a cell is the last value that was set there, or else what stood there before the
calls. -/
theorem valueAt?_afterCalls (htree : tree.IsDerived) (ref : RowRef) (column : String)
    (ops : List ValueOp) (h : s.IsOwned tree) (horder : s.InOrder) :
    (s.afterCalls ops).valueAt? ref column =
      (lastValue (ref, column) (s.settings ops)).or (s.valueAt? ref column) := by
  induction ops generalizing s with
  | nil => rfl
  | cons op ops ih =>
    obtain ⟨hnext, hnextOrder⟩ := isOwned_inOrder_afterCall h horder op
    have hrest := ih hnext hnextOrder
    rw [valueAt?_afterCall htree h op ref column] at hrest
    show ((s.afterCall op).afterCalls ops).valueAt? ref column = _
    rw [hrest, settings, lastValue_append, Option.or_assoc]

/-- Nothing is set before the first call. -/
theorem valueAt?_start (tree : TableTree) (ref : RowRef) (column : String) :
    (start tree).valueAt? ref column = none := by
  rw [valueAt?, rowsOf_start]
  split
  · cases ref.row with
    | zero => rfl
    | succ n => rfl
  · rfl

/-- In a container of calls every cell has the last value that was set there. -/
theorem valueAt?_afterCalls_start (htree : tree.IsDerived) (ops : List ValueOp) (ref : RowRef)
    (column : String) : ((start tree).afterCalls ops).valueAt? ref column =
      lastValue (ref, column) ((start tree).settings ops) := by
  rw [valueAt?_afterCalls htree ref column ops (isStaged_start tree).isOwned
    (inOrder_start tree), valueAt?_start, Option.or_none]

/-- The row of the parent table that a row belongs to. -/
def parentOf? (s : Staging) (ref : RowRef) : Option RowRef :=
  (s.arena.parent? ref.table).bind fun parent =>
    (s.rowsOf ref.table)[ref.row]?.bind fun row => row.parentRow.map (RowRef.mk parent)

theorem parent_written_eq (s : Staging) (t : Table) (ref : RowRef) :
    (s.written t ref).parent = s.parentOf? ref := by
  rw [written, parentOf?]
  cases (s.rowsOf ref.table)[ref.row]? <;> rfl

theorem get?_written (s : Staging) (t : Table) (ref : RowRef) :
    (s.written t ref).staged.get? = s.valueAt? ref := by
  funext name
  rw [written, valueAt?]
  cases (s.rowsOf ref.table)[ref.row]? <;> rfl

end Staging

/-! ## The columns -/

/-- The first column of every name. -/
def firstOfNames : List Column → List Column
  | [] => []
  | c :: rest => c :: (firstOfNames rest).filter (·.name != c.name)

theorem nodup_firstOfNames (columns : List Column) :
    ((firstOfNames columns).map Column.name).Nodup := by
  induction columns with
  | nil => exact List.nodup_nil
  | cons c rest ih =>
    rw [firstOfNames, List.map_cons, List.nodup_cons]
    refine ⟨fun hmem => ?_, ih.sublist (List.filter_sublist.map _)⟩
    obtain ⟨other, hother, hname⟩ := List.mem_map.1 hmem
    exact bne_iff_ne.1 (List.mem_filter.1 hother).2 hname

/-- The staged value of a column, unless its name is the primary key or taken beforehand. -/
def Table.entry? (t : Table) (taken : List String) (staged : String → Option (Option String))
    (c : Column) : Option (Column × Option String) :=
  if c.name = t.primaryKey ∨ c.name ∈ taken then none
  else (staged c.name).map fun value => (c, value)

/-- The columns that take staged values, with these: the first of each name has an entry. -/
def Table.listed (t : Table) (taken : List String) (staged : String → Option (Option String))
    (columns : List Column) : List (Column × Option String) :=
  (firstOfNames columns).filterMap (t.entry? taken staged)

/-- The column that stores the key of the parent row, if the row stores it itself. -/
def Table.parentField? (t : Table) : Option String :=
  t.relation?.bind fun r =>
    match r.kind with
    | .oneToOneMerge => some r.targetField
    | .oneToMany => some r.targetField
    | _ => none

section Listed

variable {t : Table} {srid : Nat} {taken : List String} {row : StagedRow}
  {staged : String → Option (Option String)}

theorem entry?_eq_some {c : Column} {entry : Column × Option String}
    (h : t.entry? taken staged c = some entry) :
    c.name ∉ taken ∧ entry.1 = c ∧ staged c.name = some entry.2 := by
  rw [Table.entry?] at h
  split at h
  · exact absurd h.symm (Option.some_ne_none entry)
  · rename_i hnew
    obtain ⟨value, hvalue, rfl⟩ := Option.map_eq_some_iff.1 h
    exact ⟨fun hmem => hnew (Or.inr hmem), rfl, hvalue⟩

theorem entry?_eq_none {c : Column}
    (h : c.name = t.primaryKey ∨ c.name ∈ taken ∨ staged c.name = none) :
    t.entry? taken staged c = none := by
  rw [Table.entry?]
  rcases h with hkey | hmem | hunset
  · exact if_pos (Or.inl hkey)
  · exact if_pos (Or.inr hmem)
  · rw [hunset]
    exact ite_self _

theorem notMem_of_mem_listed {columns : List Column} {entry : Column × Option String}
    (h : entry ∈ t.listed taken staged columns) : entry.1.name ∉ taken := by
  obtain ⟨c, -, hentry⟩ := List.mem_filterMap.1 h
  obtain ⟨hnew, hsame, -⟩ := entry?_eq_some hentry
  rwa [hsame]

/-- No name is listed twice. -/
theorem nodup_listed (t : Table) (taken : List String) (staged : String → Option (Option String))
    (columns : List Column) :
    ((t.listed taken staged columns).map fun entry => entry.1.name).Nodup := by
  have hfirst := nodup_firstOfNames columns
  rw [List.Nodup, List.pairwise_map] at hfirst ⊢
  refine List.Pairwise.filterMap _ (fun c d hne x hx y hy => ?_) hfirst
  rw [(entry?_eq_some hx).2.1, (entry?_eq_some hy).2.1]
  exact hne

/-- Columns behind one that is passed over are listed as if it was not there. -/
theorem listed_cons_of_none {c : Column} (columns : List Column)
    (h : c.name = t.primaryKey ∨ c.name ∈ taken ∨ staged c.name = none) :
    t.listed taken staged (c :: columns) = t.listed taken staged columns := by
  rw [Table.listed, firstOfNames, List.filterMap_cons_none (entry?_eq_none h),
    List.filterMap_filter]
  refine List.filterMap_congr fun d _ => ?_
  by_cases hd : d.name = c.name
  · -- another column of the name is passed over for the same reason
    rw [if_neg (by simpa using hd)]
    rw [← hd] at h
    exact (entry?_eq_none h).symm
  · rw [if_pos (by simpa using hd)]

/-- A column that is listed takes its name from those behind it. -/
theorem listed_cons_of_some {c : Column} (columns : List Column) {value : Option String}
    (hkey : c.name ≠ t.primaryKey) (hnew : c.name ∉ taken) (hvalue : staged c.name = some value) :
    t.listed taken staged (c :: columns) =
      (c, value) :: t.listed (taken ++ [c.name]) staged columns := by
  have hfirst : t.entry? taken staged c = some (c, value) := by
    rw [Table.entry?, if_neg (not_or.2 ⟨hkey, hnew⟩), hvalue]
    rfl
  rw [Table.listed, firstOfNames, List.filterMap_cons_some hfirst, List.filterMap_filter]
  congr 1
  refine List.filterMap_congr fun d _ => ?_
  by_cases hd : d.name = c.name
  · rw [if_neg (by simpa using hd), entry?_eq_none (Or.inr (Or.inl (by simp [hd])))]
  · rw [if_pos (by simpa using hd)]
    simp only [Table.entry?, List.mem_append, List.mem_singleton, hd, or_false]

/-- The loop over the stored columns puts the listed ones behind those that are there. -/
theorem foldl_addStagedColumn_eq (columns : List Column) (start : List (String × StoredValue)) :
    columns.foldl (addStagedColumn srid t row) start =
      start ++ (t.listed (start.map Prod.fst) row.get? columns).map fun entry =>
        (entry.1.name, StoredValue.ofStaged srid entry.1.kind entry.2) := by
  -- the names taken are those gathered so far
  induction columns generalizing start with
  | nil => exact (List.append_nil start).symm
  | cons c rest ih =>
    rw [List.foldl_cons, addStagedColumn]
    have htaken : start.any (·.1 == c.name) = true ↔ c.name ∈ start.map Prod.fst := by
      rw [List.any_eq_true, List.mem_map]
      exact exists_congr fun x => and_congr_right fun _ => beq_iff_eq
    split
    · rename_i hpassed
      rw [Bool.or_eq_true, decide_eq_true_eq, htaken] at hpassed
      rw [ih, listed_cons_of_none rest (hpassed.imp_right Or.inl)]
    · rename_i hnew
      rw [Bool.or_eq_true, decide_eq_true_eq, htaken, not_or] at hnew
      split
      · rename_i value hvalue
        rw [ih, listed_cons_of_some rest hnew.1 hnew.2 hvalue, List.map_append, List.map_cons,
          List.append_assoc]
        rfl
      · rename_i hunset
        rw [ih, listed_cons_of_none rest (Or.inr (Or.inr hunset))]

end Listed

/-! ## One insertion -/

/-- The columns of an insertion with the values written to them, where the parent row has the
identifier `key`: the identifier that was given, the key of the parent row, and what was staged. -/
def Table.insertedCells (t : Table) (srid : Nat) (given : Option String) (key : String)
    (staged : String → Option (Option String)) : List (String × Sql) :=
  let before := given.toList.map (fun id => (t.idColumn, [idLiteral id])) ++
    t.parentField?.toList.map fun field => (field, [idLiteral key])
  before ++ (t.listed (before.map Prod.fst) staged (t.columns.filter Column.isStored)).map
    fun entry => (entry.1.name, stagedLiteral srid entry.1.kind entry.2)

/-- The text that inserts a row with these cells. -/
def Table.insertText (t : Table) (cells : List (String × Sql)) : Sql :=
  if cells.isEmpty then
    Sql.ofText ("INSERT INTO " ++ t.name ++ " DEFAULT VALUES RETURNING " ++ t.primaryKey)
  else insertSql t.name (cells.map Prod.fst) (cells.map Prod.snd) t.primaryKey

/-- An insertion has exactly the columns of its row, each once and with its value. Where the row
stores the key of the parent row, there is a parent row, and its identifier is all that has to be
known to write the text. -/
structure Statement.InsertsExactly (statement : Statement) (srid : Nat) (t : Table)
    (given : Option String) (parent : Option RowRef)
    (staged : String → Option (Option String)) : Prop where
  hasParent : t.parentField?.isSome = true → parent.isSome = true
  needs : statement.needs = if t.parentField?.isSome then parent.toList else []
  nodup : ∀ key, ((t.insertedCells srid given key staged).map Prod.fst).Nodup
  sql : ∀ (ids : CapturedIds) (key : String), (∀ row ∈ statement.needs, ids.get? row = some key) →
    statement.sql ids = .ok (t.insertText (t.insertedCells srid given key staged))

theorem parentColumns_eq (t : Table) (parent : Option RowRef) :
    parentColumns t parent = (t.parentField?.bind fun field =>
      parent.map fun row => (field, StoredValue.idOf row)).toList := by
  unfold parentColumns Table.parentField?
  cases t.relation? with
  | none => rfl
  | some r =>
    cases parent with
    | none =>
      dsimp only [Option.bind_some]
      cases r.kind <;> rfl
    | some row =>
      dsimp only [Option.bind_some]
      cases r.kind <;> rfl

/-- No column is named twice, where an identifier is only given to a row that does not store the key
of another one. -/
theorem nodup_insertedCells (t : Table) (srid : Nat) {given : Option String}
    (hgiven : given.isSome = true → t.parentField? = none) (key : String)
    (staged : String → Option (Option String)) :
    ((t.insertedCells srid given key staged).map Prod.fst).Nodup := by
  rw [Table.insertedCells, List.map_append, List.map_map]
  refine List.Nodup.append ?_ (nodup_listed t _ staged _) fun name hbefore hlisted => ?_
  · cases given with
    | none => cases t.parentField? <;> simp
    | some id =>
      rw [hgiven rfl]
      simp
  · obtain ⟨entry, hentry, rfl⟩ := List.mem_map.1 hlisted
    exact notMem_of_mem_listed hentry hbefore

/-- A column of an insertion and the cell that it becomes with some identifiers. -/
def BecomesCell (ids : CapturedIds) (column : String × StoredValue) (cell : String × Sql) : Prop :=
  column.1 = cell.1 ∧ column.2.sql ids = .ok cell.2

theorem map_fst_eq_of_becomesCell {ids : CapturedIds} {columns : List (String × StoredValue)}
    {cells : List (String × Sql)} (h : List.Forall₂ (BecomesCell ids) columns cells) :
    columns.map Prod.fst = cells.map Prod.fst := by
  induction h with
  | nil => rfl
  | cons hcell _ ih => rw [List.map_cons, List.map_cons, hcell.1, ih]

/-- The columns of an insertion become the cells of its row, once the parent row has its
identifier. -/
theorem becomesCell_insertColumns (srid : Nat) {t : Table} (staged : StagedRow)
    {parent : Option RowRef} (given : Option String) {ids : CapturedIds} {key : String}
    (hparent : t.parentField?.isSome = true → parent.isSome = true)
    (hkey : ∀ row ∈ (parentColumns t parent).flatMap (·.2.needs), ids.get? row = some key) :
    List.Forall₂ (BecomesCell ids) (insertColumns srid t staged parent given)
      (t.insertedCells srid given key staged.get?) := by
  have hgiven : List.Forall₂ (BecomesCell ids) (givenColumns t given)
      (given.toList.map fun id => (t.idColumn, [idLiteral id])) := by
    cases given with
    | none => exact .nil
    | some id => exact .cons ⟨rfl, rfl⟩ .nil
  have hfield : List.Forall₂ (BecomesCell ids) (parentColumns t parent)
      (t.parentField?.toList.map fun field => (field, [idLiteral key])) := by
    rw [parentColumns_eq] at hkey ⊢
    cases hfield : t.parentField? with
    | none => exact .nil
    | some field =>
      obtain ⟨row, rfl⟩ := Option.isSome_iff_exists.1 (hparent (by rw [hfield]; rfl))
      rw [hfield] at hkey
      refine .cons ⟨rfl, ?_⟩ .nil
      rw [StoredValue.sql, CapturedIds.get_of_get? (hkey row List.mem_cons_self)]
      rfl
  have hbefore := List.rel_append hgiven hfield
  -- the same names are taken in front of the staged columns
  rw [insertColumns, foldl_addStagedColumn_eq, map_fst_eq_of_becomesCell hbefore]
  refine List.rel_append hbefore (List.forall₂_map_left_iff.2 (List.forall₂_map_right_iff.2 ?_))
  exact List.forall₂_same.2 fun entry _ => ⟨rfl, sql_ofStaged srid entry.1.kind entry.2 ids⟩

/-- The insertion of a row has exactly the columns of the row. -/
theorem insertsExactly_insertStatement (srid : Nat) {t : Table} (ref : RowRef) (staged : StagedRow)
    {parent : Option RowRef} {given : Option String}
    (hparent : t.parentField?.isSome = true → parent.isSome = true)
    (hgiven : given.isSome = true → t.parentField? = none) :
    (insertStatement srid t ref staged parent given).InsertsExactly srid t given parent
      staged.get? where
  hasParent := hparent
  needs := by
    rw [needs_insertStatement, parentColumns_eq]
    cases hfield : t.parentField? with
    | none => rfl
    | some field =>
      obtain ⟨row, rfl⟩ := Option.isSome_iff_exists.1 (hparent (by rw [hfield]; rfl))
      rfl
  nodup key := nodup_insertedCells t srid hgiven key staged.get?
  sql ids key hkey := by
    rw [needs_insertStatement] at hkey
    have hcells := becomesCell_insertColumns srid staged given hparent hkey
    have hvalues :
        (insertColumns srid t staged parent given).mapM (fun column => column.2.sql ids) =
          .ok ((t.insertedCells srid given key staged.get?).map Prod.snd) :=
      mapM_eq_ok_iff.2 (List.forall₂_map_right_iff.2 (hcells.imp fun _ _ hcell => hcell.2))
    have hnames := map_fst_eq_of_becomesCell hcells
    have hempty : (insertColumns srid t staged parent given).isEmpty =
        (t.insertedCells srid given key staged.get?).isEmpty := by
      rw [← List.isEmpty_map (f := Prod.fst), hnames, List.isEmpty_map]
    rw [insertStatement, Statement.sql, Table.insertText, hempty]
    split
    · rfl
    · exact bind_eq_ok.2 ⟨_, hvalues, by rw [hnames]; rfl⟩

/-! ## All insertions of a change -/

/-- The identifier that a change gives to a row: an update gives its own to the root row. -/
def ChangeKind.givenFor (ref : RowRef) : ChangeKind → Option String
  | .update id => if ref = ⟨0, 0⟩ then some id else none
  | _ => none

namespace TableTree

open Staging

variable {tree : TableTree} {s : Staging}

/-- The statements of the root row and all rows below it, whatever identifier is given for the root
row. -/
theorem emit_node_of_isOwned {table : Table} {children : List TableTree}
    (htree : (TableTree.node table children).IsDerived)
    (h : s.IsOwned (.node table children)) (srid : Nat) (given : Option String) :
    (TableTree.node table children).emit srid s 0 given 0 =
      .ok (insertStatement srid table ⟨0, 0⟩ (s.written table ⟨0, 0⟩).staged
          (s.written table ⟨0, 0⟩).parent given ::
        linkStatements table ⟨0, 0⟩ (s.written table ⟨0, 0⟩).parent ++
          (writtenBelow s 1 0 children).flatMap (·.statements srid)) := by
  have hholds := Arena.holds_ofTree (.node table children)
  rw [emit]
  refine bind_eq_ok.2 ⟨_, row_eq_ok h.root_pos table, bind_eq_ok.2
    ⟨_, parentRef_eq h h.root_pos table, ?_⟩⟩
  exact bind_eq_ok.2 ⟨_, emitList_of_isOwned htree h srid hholds.below 0, rfl⟩

/-- Linking a row captures nothing. -/
theorem capture?_of_mem_linkStatements {t : Table} {row : RowRef} {parent : Option RowRef}
    {statement : Statement} (h : statement ∈ linkStatements t row parent) :
    statement.capture? = none := by
  cases hcapture : statement.capture? with
  | none => rfl
  | some ref =>
    exact absurd ((isBelow_of_mem_linkStatements (k := ref.table) h).2 ref hcapture)
      (Nat.lt_irrefl _)

/-- The statements of the written rows that capture something are their insertions. -/
theorem exists_row_of_capture? {srid : Nat} {rows : List WrittenRow} {statement : Statement}
    {ref : RowRef} (h : statement ∈ rows.flatMap (WrittenRow.statements srid))
    (hcapture : statement.capture? = some ref) :
    ∃ x ∈ rows, x.ref = ref ∧ statement = x.insertion srid := by
  obtain ⟨x, hx, hstatement⟩ := List.mem_flatMap.1 h
  rcases List.mem_cons.1 hstatement with rfl | hlink
  · exact ⟨x, hx, Option.some.inj hcapture, rfl⟩
  · rw [capture?_of_mem_linkStatements hlink] at hcapture
    exact absurd hcapture.symm (Option.some_ne_none ref)

/-- The insertion of a written row has exactly the columns of the row. Only to the root row an
identifier is given. -/
theorem insertsExactly_of_mem_writtenRows (htree : tree.IsDerived) (h : s.IsOwned tree) (srid : Nat)
    {x : WrittenRow} (hx : x ∈ tree.writtenRows s 0 0) {given : Option String}
    (hgiven : given.isSome = true → x.ref.table = 0) :
    tree.tables[x.ref.table]? = some x.table ∧
      (insertStatement srid x.table x.ref x.staged x.parent given).InsertsExactly srid x.table given
        (s.parentOf? x.ref) (s.valueAt? x.ref) := by
  obtain ⟨k, hk, htable, hwritten⟩ := table_of_mem_writtenRows s hx
  rw [Nat.zero_add] at hk
  rw [← hk] at htable
  have hparent : x.parent = s.parentOf? x.ref :=
    (congrArg WrittenRow.parent hwritten).trans (s.parent_written_eq x.table x.ref)
  have hstaged : x.staged.get? = s.valueAt? x.ref :=
    (congrArg (·.staged.get?) hwritten).trans (s.get?_written x.table x.ref)
  -- the table of the root row has no relation
  have hroot : tree.root.parentField? = none := by
    rw [Table.parentField?, Table.relation?, htree.root_relations]
    rfl
  refine ⟨htable, ?_⟩
  rw [← hparent, ← hstaged]
  refine insertsExactly_insertStatement srid x.ref x.staged (fun hfield => ?_) fun hid => ?_
  · rcases parent_of_mem_writtenRows h.arena_eq (Arena.holds_ofTree tree) hx with
      heq | ⟨-, y, -, hy, -⟩
    · have htop : x.table = tree.root := by rw [heq]; rfl
      rw [htop, hroot] at hfield
      exact absurd hfield (by simp)
    · rw [hy]
      rfl
  · rw [hgiven hid] at htable
    have htop : tree.tables[0]? = some tree.root := by cases tree; rfl
    rw [Option.some.inj (htable.symm.trans htop)]
    exact hroot

/-- What a change inserts below and with the root row has exactly the columns of its rows. -/
theorem insertsExactly_of_emit (htree : tree.IsDerived) (h : s.IsOwned tree) (srid : Nat)
    (given : Option String) :
    ∃ statements, tree.emit srid s 0 given 0 = .ok statements ∧
      ∀ statement ∈ statements, ∀ ref, statement.capture? = some ref →
        ∃ t, tree.tables[ref.table]? = some t ∧
          statement.InsertsExactly srid t (if ref = ⟨0, 0⟩ then given else none) (s.parentOf? ref)
            (s.valueAt? ref) := by
  obtain ⟨table, children⟩ := tree
  refine ⟨_, emit_node_of_isOwned htree h srid given, fun statement hmem ref hcapture => ?_⟩
  rcases List.mem_append.1 hmem with hmem | hbelow
  · rcases List.mem_cons.1 hmem with rfl | hlink
    · obtain rfl := Option.some.inj hcapture
      rw [if_pos rfl]
      exact ⟨table, insertsExactly_of_mem_writtenRows htree h srid (x := s.written table ⟨0, 0⟩)
        List.mem_cons_self fun _ => rfl⟩
    · rw [capture?_of_mem_linkStatements hlink] at hcapture
      exact absurd hcapture.symm (Option.some_ne_none ref)
  · obtain ⟨x, hx, rfl, rfl⟩ := exists_row_of_capture? hbelow hcapture
    obtain ⟨k, hk, -⟩ := table_of_mem_writtenBelow s hx
    have hne : x.ref ≠ ⟨0, 0⟩ := by
      intro heq
      have hzero : x.ref.table = 0 := congrArg RowRef.table heq
      omega
    rw [if_neg hne]
    exact ⟨x.table, insertsExactly_of_mem_writtenRows htree h srid (List.mem_cons_of_mem _ hx)
      fun hnone => absurd hnone (by simp)⟩

end TableTree

/-- Whatever was called on a container, its changes have their statements, and every insertion among
them has exactly these columns: the identifier column if the row is the root row of an update, the
field of a one-to-many or merge relation with the identifier captured for the parent row, and the
stored columns that are staged on the row, each with the value set last. -/
theorem insertions_exact {tree : TableTree} (htree : tree.IsDerived) (ops : List ValueOp)
    (kind : ChangeKind) (srid : Nat) :
    ∃ statements,
      tree.changeStatements srid kind ((Staging.start tree).afterCalls ops) = .ok statements ∧
      ∀ statement ∈ statements, ∀ ref, statement.capture? = some ref →
        ∃ t, tree.tables[ref.table]? = some t ∧
          statement.InsertsExactly srid t (kind.givenFor ref)
            (((Staging.start tree).afterCalls ops).parentOf? ref)
            fun name => lastValue (ref, name) ((Staging.start tree).settings ops) := by
  have howned := (Staging.isOwned_inOrder_afterCalls tree ops).1
  have hvalues : ∀ ref, ((Staging.start tree).afterCalls ops).valueAt? ref =
      fun name => lastValue (ref, name) ((Staging.start tree).settings ops) :=
    fun ref => funext (Staging.valueAt?_afterCalls_start htree ops ref)
  simp only [← hvalues]
  cases kind with
  | create =>
    obtain ⟨statements, hemit, hall⟩ :=
      TableTree.insertsExactly_of_emit htree howned srid none
    refine ⟨statements, hemit, fun statement hmem ref hcapture => ?_⟩
    have hinserts := hall statement hmem ref hcapture
    rwa [ite_self] at hinserts
  | update id =>
    -- an update deletes first; the deletion captures no row
    obtain ⟨statements, hemit, hall⟩ :=
      TableTree.insertsExactly_of_emit htree howned srid (some id)
    refine ⟨_, map_eq_ok.2 ⟨statements, hemit, rfl⟩, List.forall_mem_cons.2 ⟨?_, hall⟩⟩
    intro ref hcapture
    exact absurd hcapture.symm (Option.some_ne_none ref)
  | delete id =>
    refine ⟨_, rfl, List.forall_mem_singleton.2 fun ref hcapture => ?_⟩
    exact absurd hcapture.symm (Option.some_ne_none ref)

/-- An owner of a parcel whose name is set twice, with a call between that fails. What is staged for
the key of the parcel gives way to the identifier of the parcel row. -/
theorem insertions_exact_owner :
    let owner := "parcel/[id=parcel_id]owner"
    let ops : List ValueOp := [.row owner, .value (owner ++ "/name") "name" "Ann",
      .value (owner ++ "/parcel_id") "parcel_id" "7", .row "nowhere",
      .value (owner ++ "/name") "name" "Bea"]
    ∃ tree t statements,
      TableTree.ofPaths ["parcel/name", owner ++ "/parcel_id", owner ++ "/name"] = .ok tree ∧
      tree.tables[1]? = some t ∧ tree.changeStatements 4326 (.update "5")
        ((Staging.start tree).afterCalls ops) = .ok statements ∧
      ∃ insertion ∈ statements, insertion.InsertsExactly 4326 t none (some ⟨0, 0⟩)
          (fun name => lastValue (⟨1, 0⟩, name) ((Staging.start tree).settings ops)) ∧
        t.insertText (t.insertedCells 4326 none "5"
            fun name => lastValue (⟨1, 0⟩, name) ((Staging.start tree).settings ops)) =
          insertSql "owner" ["parcel_id", "name"] [[.text "5"], [.quoted "Bea"]] "id" := by
  intro owner ops
  have hcomputed : (do
      let tree ← TableTree.ofPaths ["parcel/name", owner ++ "/parcel_id", owner ++ "/name"]
      let s := (Staging.start tree).afterCalls ops
      let statements ← tree.changeStatements 4326 (.update "5") s
      return decide ((tree.tables[1]?.map fun t => t.insertText (t.insertedCells 4326 none "5"
          fun name => lastValue (⟨1, 0⟩, name) ((Staging.start tree).settings ops))) =
            some (insertSql "owner" ["parcel_id", "name"] [[.text "5"], [.quoted "Bea"]] "id") ∧
        s.parentOf? ⟨1, 0⟩ = some ⟨0, 0⟩ ∧
        some ⟨1, 0⟩ ∈ statements.map Statement.capture?) : Except Error Bool).toOption =
      some true := by
    decide +kernel
  obtain ⟨tree, htree, hok⟩ := bind_eq_ok.1 (toOption_eq_some.1 hcomputed)
  obtain ⟨statements, hstatements, hok⟩ := bind_eq_ok.1 hok
  obtain ⟨htable, hparent, hcaptured⟩ := of_decide_eq_true (pure_eq_ok.1 hok)
  obtain ⟨t, ht, htext⟩ := Option.map_eq_some_iff.1 htable
  obtain ⟨insertion, hinsertion, hcapture⟩ := List.mem_map.1 hcaptured
  obtain ⟨others, hothers, hall⟩ :=
    insertions_exact (TableTree.isDerived_of_ofPaths htree) ops (.update "5") 4326
  obtain rfl := Except.ok.inj (hstatements.symm.trans hothers)
  obtain ⟨found, hfound, hexact⟩ := hall insertion hinsertion ⟨1, 0⟩ hcapture
  obtain rfl := Option.some.inj (ht.symm.trans hfound)
  rw [hparent] at hexact
  exact ⟨tree, t, statements, htree, ht, hstatements, insertion, hinsertion, hexact, htext⟩

end FeatureStore
