import FeatureStore.Proofs.Write.Create
import FeatureStore.Write.Run

/-!
# The identifier that a write gives back

A run gives back what the database answered to the insertion of the root row. All other insertions
of a feature are for rows of tables below the root (`isBelow_of_emit`), and what is captured for
them does not count as the identifier of the feature (`found_of_isBelow`). A run comes to its end if
every statement needs only identifiers that were captured before it (`CapturedFirst`) and the
database does what it is asked for (`Statement.IsAnswered`). The statements of a staged feature are
of that kind, for a new feature as for one that is replaced (`capturedFirst_changeStatements`).
-/

set_option autoImplicit false

namespace FeatureStore

/-! ## Captured identifiers -/

theorem lookup_filter_ne {row other : RowRef} (h : other ≠ row) : ∀ l : List (RowRef × String),
    (l.filter fun entry => entry.1 != row).lookup other = l.lookup other
  | [] => rfl
  | (key, id) :: l => by
    have ih := lookup_filter_ne h l
    by_cases hkey : key = row
    · rw [List.filter_cons_of_neg (by simp [hkey]), ih, hkey]
      simp only [List.lookup_cons, beq_false_of_ne h]
    · rw [List.filter_cons_of_pos (by simpa using hkey), List.lookup_cons, List.lookup_cons, ih]

theorem CapturedIds.get?_insert (ids : CapturedIds) (row other : RowRef) (id : String) :
    (ids.insert row id).get? other = if other = row then some id else ids.get? other := by
  rw [get?, insert, List.lookup_cons]
  by_cases h : other = row
  · simp [h]
  · simp only [beq_false_of_ne h, if_neg h, lookup_filter_ne h]
    rfl

/-! ## Statements that can be written -/

/-- The rows whose identifiers a value is made of. -/
def StoredValue.needs : StoredValue → List RowRef
  | .idOf row => [row]
  | _ => []

/-- The rows whose identifiers a statement is written with. -/
def Statement.needs : Statement → List RowRef
  | .delete _ _ _ => []
  | .insert _ _ _ columns _ => columns.flatMap fun column => column.2.needs
  | .link _ _ _ parent child => [parent, child]
  | .pointAt _ _ _ parent child => [parent, child]

/-- The identifiers of some rows are known. -/
def CapturedIds.Knows (ids : CapturedIds) (rows : List RowRef) : Prop :=
  ∀ row ∈ rows, ∃ id, ids.get? row = some id

/-- A row whose identifier is put in is known besides those known before. -/
theorem CapturedIds.Knows.insert {ids : CapturedIds} {known : List RowRef} (h : ids.Knows known)
    (row : RowRef) (id : String) : (ids.insert row id).Knows (row :: known) := by
  intro other hother
  rw [get?_insert]
  by_cases hsame : other = row
  · exact ⟨id, if_pos hsame⟩
  · rw [if_neg hsame]
    exact h other ((List.mem_cons.1 hother).resolve_left hsame)

theorem CapturedIds.get_of_get? {ids : CapturedIds} {row : RowRef} {id : String}
    (h : ids.get? row = some id) : ids.get row = .ok id := by
  rw [get, h]

theorem StoredValue.exists_sql {ids : CapturedIds} {value : StoredValue}
    (h : ids.Knows value.needs) : ∃ sql, value.sql ids = .ok sql := by
  cases value with
  | idOf row =>
    obtain ⟨id, hid⟩ := h row List.mem_cons_self
    exact ⟨_, map_eq_ok.2 ⟨id, CapturedIds.get_of_get? hid, rfl⟩⟩
  | missing => exact ⟨_, rfl⟩
  | text value => exact ⟨_, rfl⟩
  | geometry value srid => exact ⟨_, rfl⟩
  | id value => exact ⟨_, rfl⟩

/-- A statement can be written once the identifiers it needs are known. -/
theorem Statement.exists_text {ids : CapturedIds} {statement : Statement}
    (h : ids.Knows statement.needs) : ∃ text, statement.text ids = .ok text := by
  suffices hsql : ∃ sql, statement.sql ids = .ok sql by
    obtain ⟨sql, hsql⟩ := hsql
    exact ⟨_, map_eq_ok.2 ⟨sql, hsql, rfl⟩⟩
  cases statement with
  | delete table column id => exact ⟨_, rfl⟩
  | insert table row id columns key =>
    rw [sql]
    split
    · exact ⟨_, rfl⟩
    · have hcolumns : ∀ column ∈ columns, ∃ value, column.2.sql ids = .ok value :=
        fun column hcolumn => StoredValue.exists_sql fun row hrow =>
          h row (List.mem_flatMap.2 ⟨column, hcolumn, hrow⟩)
      obtain ⟨values, hvalues⟩ := exists_mapM_eq_ok hcolumns
      exact ⟨_, bind_eq_ok.2 ⟨values, hvalues, rfl⟩⟩
  | link table parentField childField parent child =>
    obtain ⟨first, hfirst⟩ := h parent List.mem_cons_self
    obtain ⟨second, hsecond⟩ := h child (List.mem_cons_of_mem _ List.mem_cons_self)
    exact ⟨_, bind_eq_ok.2 ⟨first, CapturedIds.get_of_get? hfirst,
      bind_eq_ok.2 ⟨second, CapturedIds.get_of_get? hsecond, rfl⟩⟩⟩
  | pointAt table field key parent child =>
    obtain ⟨source, hsource⟩ := h parent List.mem_cons_self
    obtain ⟨target, htarget⟩ := h child (List.mem_cons_of_mem _ List.mem_cons_self)
    exact ⟨_, bind_eq_ok.2 ⟨target, CapturedIds.get_of_get? htarget,
      bind_eq_ok.2 ⟨source, CapturedIds.get_of_get? hsource, rfl⟩⟩⟩

/-- Every statement needs only identifiers that are known beforehand or captured before it. -/
def CapturedFirst : List RowRef → List Statement → Prop
  | _, [] => True
  | known, statement :: rest =>
    statement.needs ⊆ known ∧ CapturedFirst (statement.capture?.toList ++ known) rest

/-! ## Answers and runs -/

/-- The answer of a database that does what a statement asks for, where inserted rows have these
values: a removal finds a row, and an insertion gives back the value of the column asked for and
stores the identifiers known beforehand. -/
def Statement.IsAnswered (rows : RowRef → String → String) : Statement → WriteAnswer → Prop
  | .delete _ _ _, answer => ∃ found, answer = .ok (some found)
  | .insert _ row _ columns key, answer => answer = .ok (some (rows row key)) ∧
      ∀ column id, (column, StoredValue.id id) ∈ columns → rows row column = id
  | .link _ _ _ _ _, answer => ∃ returned, answer = .ok returned
  | .pointAt _ _ _ _ _, answer => ∃ returned, answer = .ok returned

namespace WriteState

variable {rows : RowRef → String → String} {state : WriteState}

/-- A statement that was answered gives its row an identifier and leaves the others. -/
theorem exists_settle (state : WriteState) {statement : Statement} {answer : WriteAnswer}
    (h : statement.IsAnswered rows answer) : ∃ returned next, answer = .ok returned ∧
      state.settle statement returned = .ok next ∧
      ∀ known, state.ids.Knows known → next.ids.Knows (statement.capture?.toList ++ known) := by
  cases statement with
  | delete table column id =>
    obtain ⟨found, rfl⟩ := h
    exact ⟨_, _, rfl, rfl, fun known hknown => hknown⟩
  | insert table row id columns key =>
    obtain ⟨rfl, -⟩ := h
    exact ⟨_, _, rfl, rfl, fun known hknown => hknown.insert row (rows row key)⟩
  | link table parentField childField parent child =>
    obtain ⟨returned, rfl⟩ := h
    exact ⟨_, state, rfl, by cases returned <;> rfl, fun known hknown => hknown⟩
  | pointAt table field key parent child =>
    obtain ⟨returned, rfl⟩ := h
    exact ⟨_, state, rfl, by cases returned <;> rfl, fun known hknown => hknown⟩

/-- A run whose statements are answered comes to its end. -/
theorem exists_run : ∀ {statements : List Statement} {answers : List WriteAnswer}
    {state : WriteState} {known : List RowRef}, CapturedFirst known statements →
    state.ids.Knows known → List.Forall₂ (Statement.IsAnswered rows) statements answers →
      ∃ found texts, state.run statements answers = (.ok found, texts)
  | [], _, state, _, _, _, _ => ⟨state.featureId, [], rfl⟩
  | statement :: rest, answer :: answers, state, known, hfirst, hknown, .cons hanswer hanswers => by
    obtain ⟨hneeds, hrest⟩ := hfirst
    obtain ⟨text, htext⟩ := Statement.exists_text fun row hrow => hknown row (hneeds hrow)
    obtain ⟨returned, next, rfl, hsettle, hkeeps⟩ := exists_settle state hanswer
    obtain ⟨found, texts, hrun⟩ := exists_run hrest (hkeeps known hknown) hanswers
    refine ⟨found, text :: texts, ?_⟩
    rw [run, htext]
    simp only [List.headD_cons, hsettle, List.tail_cons, hrun]

/-- The first step of a run that comes to its end. -/
theorem run_cons_eq_ok {statement : Statement} {rest : List Statement} {answer : WriteAnswer}
    {answers : List WriteAnswer} {found : Option String} {texts : List String}
    (h : state.run (statement :: rest) (answer :: answers) = (.ok found, texts)) :
    ∃ returned next others, answer = .ok returned ∧ state.settle statement returned = .ok next ∧
      next.run rest answers = (.ok found, others) := by
  rw [run] at h
  split at h
  · simp at h
  · rw [List.headD_cons] at h
    split at h
    · simp at h
    · rename_i returned
      split at h
      · simp at h
      · rename_i next hsettle
        obtain ⟨hresult, -⟩ := Prod.mk.inj h
        exact ⟨returned, next, _, rfl, hsettle, Prod.ext hresult rfl⟩

end WriteState

/-! ## The statements of a feature -/

/-- The column whose value a statement gives back. -/
def Statement.returned? : Statement → Option String
  | .delete _ column _ => some column
  | .insert _ _ _ _ key => some key
  | _ => none

/-- The text of a statement that gives a column back ends with it. -/
theorem Statement.text_of_returned? {statement : Statement} {column text : String}
    {ids : CapturedIds} (h : statement.returned? = some column)
    (htext : statement.text ids = .ok text) : ∃ front, text = front ++ " RETURNING " ++ column := by
  obtain ⟨sql, hsql, rfl⟩ := map_eq_ok.1 htext
  cases statement with
  | delete table name id =>
    obtain rfl := Option.some.inj h
    rw [← Except.ok.inj hsql]
    refine ⟨"DELETE FROM " ++ table ++ " WHERE " ++ name ++ "=" ++ (idLiteral id).render 0, ?_⟩
    simp [Sql.render, Piece.render, String.append_assoc]
  | insert table row id columns key =>
    obtain rfl := Option.some.inj h
    rw [Statement.sql] at hsql
    split at hsql
    · rw [← Except.ok.inj hsql]
      refine ⟨"INSERT INTO " ++ table ++ " DEFAULT VALUES", ?_⟩
      simp [Sql.render, Sql.ofText, Piece.render, String.append_assoc]
    · obtain ⟨values, -, hsql⟩ := bind_eq_ok.1 hsql
      rw [← pure_eq_ok.1 hsql]
      refine ⟨Sql.render 0 (.text ("INSERT INTO " ++ table ++ " (" ++
        ",".intercalate (columns.map Prod.fst) ++ ") VALUES ") ::
          Sql.parenthesized (Sql.separated "," values)), ?_⟩
      simp [Sql.render, Sql.ofText, Piece.render, String.append_assoc]
  | link table parentField childField parent child => exact absurd h (by simp [returned?])
  | pointAt table field key parent child => exact absurd h (by simp [returned?])

/-- The statement does not remove a feature, and captures an identifier only for a row of a table
behind the one with a number. -/
def Statement.IsBelow (k : Nat) (statement : Statement) : Prop :=
  statement.isDelete = false ∧ ∀ row, statement.capture? = some row → k < row.table

theorem isBelow_of_mem_linkStatements {t : Table} {row : RowRef} {parent : Option RowRef} {k : Nat}
    {statement : Statement} (h : statement ∈ linkStatements t row parent) :
    statement.IsBelow k := by
  unfold linkStatements at h
  split at h
  · split at h
    · rw [List.mem_singleton.1 h]
      exact ⟨rfl, fun row hrow => nomatch hrow⟩
    · rw [List.mem_singleton.1 h]
      exact ⟨rfl, fun row hrow => nomatch hrow⟩
    · exact absurd h List.not_mem_nil
  · exact absurd h List.not_mem_nil

namespace TableTree

variable {s : Staging}

mutual
/-- The statements of a row and all rows below it begin with its insertion, whatever identifier is
given for it, and all others are for rows of later tables. -/
theorem isBelow_of_emit {srid : Nat} : ∀ {t : TableTree} {id row : Nat} {given : Option String}
    {statements : List Statement}, t.emit srid s id given row = .ok statements →
      ∃ staged parent below, (∀ other, t.emit srid s id other row =
          .ok (insertStatement srid t.root ⟨id, row⟩ staged parent other :: below)) ∧
        ∀ statement ∈ below, statement.IsBelow id
  | .node table children, id, row, given, statements, h => by
    rw [emit] at h
    obtain ⟨staged, hstaged, h⟩ := bind_eq_ok.1 h
    obtain ⟨parent, hparent, h⟩ := bind_eq_ok.1 h
    obtain ⟨below, hbelow, -⟩ := bind_eq_ok.1 h
    refine ⟨staged, parent, linkStatements table ⟨id, row⟩ parent ++ below, fun other => ?_,
      fun statement hmem => ?_⟩
    · rw [emit]
      exact bind_eq_ok.2 ⟨staged, hstaged, bind_eq_ok.2 ⟨parent, hparent,
        bind_eq_ok.2 ⟨below, hbelow, rfl⟩⟩⟩
    · rcases List.mem_append.1 hmem with hlink | hmem
      · exact isBelow_of_mem_linkStatements hlink
      · exact isBelow_of_emitList (Nat.lt_succ_self id) hbelow statement hmem

theorem isBelow_of_emitList {srid : Nat} : ∀ {l : List TableTree} {k id parentRow : Nat}
    {statements : List Statement}, k < id → emitList srid s id parentRow l = .ok statements →
      ∀ statement ∈ statements, statement.IsBelow k
  | [], _, _, _, _, _, h, statement, hmem => by
    rw [← Except.ok.inj h] at hmem
    exact absurd hmem List.not_mem_nil
  | t :: rest, k, id, parentRow, statements, hlt, h, statement, hmem => by
    obtain ⟨others, hothers, hcases⟩ := cases_of_mem_emitList h
    rcases hcases statement hmem with ⟨row, written, hemit, hmem⟩ | hmem
    · obtain ⟨staged, parent, below, hall, hbelow⟩ := isBelow_of_emit hemit
      obtain rfl := Except.ok.inj (hemit.symm.trans (hall none))
      rcases List.mem_cons.1 hmem with rfl | hmem
      · refine ⟨rfl, fun ref href => ?_⟩
        rw [← Option.some.inj href]
        exact hlt
      · exact ⟨(hbelow statement hmem).1,
          fun ref href => hlt.trans ((hbelow statement hmem).2 ref href)⟩
    · exact isBelow_of_emitList (Nat.lt_add_right _ hlt) hothers statement hmem
end

end TableTree

/-- The statements of a change that writes a feature: the old one is removed if there is one, the
root row is inserted, and all others are for rows below. -/
inductive WritesRoot (tree : TableTree) (srid : Nat) : ChangeKind → List Statement → Prop
  | create {staged : StagedRow} {parent : Option RowRef} {below : List Statement} :
      (∀ statement ∈ below, statement.IsBelow 0) →
      WritesRoot tree srid .create
        (insertStatement srid tree.root ⟨0, 0⟩ staged parent none :: below)
  | update {staged : StagedRow} {parent : Option RowRef} {below : List Statement} (id : String) :
      (∀ statement ∈ below, statement.IsBelow 0) →
      WritesRoot tree srid (.update id) (tree.deleteStatement id ::
        insertStatement srid tree.root ⟨0, 0⟩ staged parent (some id) :: below)

/-- A change that does not remove a feature writes one. -/
theorem writesRoot_of_changeStatements {tree : TableTree} {srid : Nat} {kind : ChangeKind}
    {s : Staging} {statements : List Statement} (hkind : ∀ id, kind ≠ .delete id)
    (h : tree.changeStatements srid kind s = .ok statements) :
    WritesRoot tree srid kind statements := by
  cases kind with
  | delete id => exact absurd rfl (hkind id)
  | create =>
    obtain ⟨staged, parent, below, hall, hbelow⟩ := TableTree.isBelow_of_emit h
    obtain rfl := Except.ok.inj (Eq.trans (Eq.symm h) (hall none))
    exact .create hbelow
  | update id =>
    obtain ⟨written, hwritten, rfl⟩ := map_eq_ok.1 h
    obtain ⟨staged, parent, below, hall, hbelow⟩ := TableTree.isBelow_of_emit hwritten
    obtain rfl := Except.ok.inj (hwritten.symm.trans (hall (some id)))
    exact .update id hbelow

/-- Only the parent row is needed to insert a row, whatever identifier is given for it. -/
theorem needs_insertStatement (srid : Nat) (t : Table) (row : RowRef) (staged : StagedRow)
    (parent : Option RowRef) (given : Option String) :
    (insertStatement srid t row staged parent given).needs =
      (parentColumns t parent).flatMap fun column => column.2.needs := by
  obtain ⟨more, hcolumns, hall⟩ := exists_insertColumns srid t staged parent given
  have hgiven : (givenColumns t given).flatMap (fun column => column.2.needs) = [] := by
    cases given <;> rfl
  have hmore : more.flatMap (fun column => column.2.needs) = [] := by
    refine List.flatMap_eq_nil_iff.2 fun column hcolumn => ?_
    obtain ⟨-, kind, value, hvalue⟩ := hall column hcolumn
    rw [hvalue]
    cases value with
    | none => rfl
    | some text =>
      rw [StoredValue.ofStaged]
      split <;> rfl
  show (insertColumns srid t staged parent given).flatMap _ = _
  rw [hcolumns, List.flatMap_append, List.flatMap_append, hgiven, hmore, List.nil_append,
    List.append_nil]

theorem needs_insertStatement_subset (srid : Nat) (t : Table) (row : RowRef) (staged : StagedRow)
    (parent : Option RowRef) (given : Option String) :
    (insertStatement srid t row staged parent given).needs ⊆ parent.toList := by
  rw [needs_insertStatement]
  unfold parentColumns
  split
  · split
    · exact List.Subset.refl _
    · exact List.Subset.refl _
    · exact List.nil_subset _
  · exact List.nil_subset _

/-- A link needs the row and that of its parent. -/
theorem capturedFirst_linkStatements {t : Table} {row : RowRef} {parent : Option RowRef}
    {known : List RowRef} (hrow : row ∈ known) (hparent : ∀ ref, parent = some ref → ref ∈ known)
    {rest : List Statement} (hrest : CapturedFirst known rest) :
    CapturedFirst known (linkStatements t row parent ++ rest) := by
  unfold linkStatements
  split
  · rename_i relation ref _
    have hboth : [ref, row] ⊆ known := by
      intro other hother
      rcases List.mem_cons.1 hother with rfl | hother
      · exact hparent _ rfl
      · rwa [List.mem_singleton.1 hother]
    split
    · exact ⟨hboth, hrest⟩
    · exact ⟨hboth, hrest⟩
    · exact hrest
  · exact hrest

/-- The statements of rows that come behind those they belong to need nothing else. -/
theorem capturedFirst_of_parentsFirst {srid : Nat} : ∀ {rows : List WrittenRow}
    {known : List RowRef}, ParentsFirst known rows →
      CapturedFirst known (rows.flatMap (WrittenRow.statements srid))
  | [], _, _ => trivial
  | x :: rest, known, ⟨hparent, hrest⟩ => by
    rw [List.flatMap_cons]
    refine ⟨fun ref href => ?_, capturedFirst_linkStatements List.mem_cons_self
      (fun ref href => List.mem_cons_of_mem _ (hparent ref href))
      (capturedFirst_of_parentsFirst hrest)⟩
    have href := needs_insertStatement_subset srid x.table x.ref x.staged x.parent none href
    exact hparent ref (Option.mem_toList.1 href)

/-- The statements of a staged feature can be made, and each needs only identifiers captured before
it. -/
theorem capturedFirst_changeStatements {tree : TableTree} {ops : List ValueOp} {s : Staging}
    (htree : tree.IsDerived) (happly : (Staging.start tree).apply ops = .ok s) (srid : Nat)
    (kind : ChangeKind) :
    ∃ statements, tree.changeStatements srid kind s = .ok statements ∧
      CapturedFirst [] statements := by
  have h := Staging.isOwned_apply happly
  have hemit := TableTree.emit_of_isOwned htree h srid (Arena.holds_ofTree tree) h.root_pos
  have hfirst : CapturedFirst []
      ((tree.writtenRows s 0 0).flatMap (WrittenRow.statements srid)) :=
    capturedFirst_of_parentsFirst h.parentsFirst
  cases kind with
  | create => exact ⟨_, hemit, hfirst⟩
  | delete id => exact ⟨_, rfl, List.nil_subset _, trivial⟩
  | update id =>
    -- the identifier given changes the insertion of the root row, but not what that needs
    obtain ⟨staged, parent, below, hall, -⟩ := TableTree.isBelow_of_emit hemit
    rw [Except.ok.inj (hemit.symm.trans (hall none))] at hfirst
    refine ⟨_, map_eq_ok.2 ⟨_, hall (some id), rfl⟩, List.nil_subset _, ?_, hfirst.2⟩
    rw [needs_insertStatement, ← needs_insertStatement srid tree.root ⟨0, 0⟩ staged parent none]
    exact hfirst.1

/-! ## What a run gives back -/

namespace WriteState

variable {rows : RowRef → String → String}

/-- What is captured for rows below the root does not count as the identifier of the feature. -/
theorem featureId_settle {state next : WriteState} {statement : Statement}
    {returned : Option String} (hbelow : statement.IsBelow 0)
    (h : state.settle statement returned = .ok next) : next.featureId = state.featureId := by
  obtain ⟨hkeeps, hcapture⟩ := hbelow
  cases statement with
  | delete table column id => exact absurd hkeeps (by simp [Statement.isDelete])
  | insert table row id columns key =>
    cases returned with
    | none => simp [settle] at h
    | some found =>
      rw [← Except.ok.inj h]
      exact if_neg (Nat.ne_of_gt (hcapture row rfl))
  | link table parentField childField parent child =>
    cases returned <;> rw [← Except.ok.inj h]
  | pointAt table field key parent child =>
    cases returned <;> rw [← Except.ok.inj h]

theorem found_of_isBelow : ∀ {statements : List Statement} {answers : List WriteAnswer}
    {state : WriteState} {found : Option String} {texts : List String},
    (∀ statement ∈ statements, statement.IsBelow 0) →
    List.Forall₂ (Statement.IsAnswered rows) statements answers →
      state.run statements answers = (.ok found, texts) → found = state.featureId
  | [], _, state, found, _, _, _, h => (Except.ok.inj (Prod.mk.inj h).1).symm
  | statement :: rest, answer :: answers, state, found, texts, hbelow, .cons _ hanswers, h => by
    obtain ⟨hfirst, hrest⟩ := List.forall_mem_cons.1 hbelow
    obtain ⟨returned, next, others, -, hsettle, hrun⟩ := run_cons_eq_ok h
    rw [found_of_isBelow hrest hanswers hrun]
    exact featureId_settle hfirst hsettle

/-- The insertion of the root row decides what a run gives back. -/
theorem found_of_insertion {srid : Nat} {t : Table} {staged : StagedRow} {parent : Option RowRef}
    {given : Option String} {below : List Statement} {answers : List WriteAnswer}
    {state : WriteState} {found : Option String} {texts : List String}
    (hbelow : ∀ statement ∈ below, statement.IsBelow 0)
    (hanswers : List.Forall₂ (Statement.IsAnswered rows)
      (insertStatement srid t ⟨0, 0⟩ staged parent given :: below) answers)
    (h : state.run (insertStatement srid t ⟨0, 0⟩ staged parent given :: below) answers =
      (.ok found, texts)) : found = some (rows ⟨0, 0⟩ t.primaryKey) := by
  cases hanswers with
  | cons hanswer hanswers =>
    obtain ⟨returned, next, others, hreturned, hsettle, hrun⟩ := run_cons_eq_ok h
    obtain rfl := Except.ok.inj (hanswer.1.symm.trans hreturned)
    rw [found_of_isBelow hbelow hanswers hrun, ← Except.ok.inj hsettle]
    rfl

end WriteState

namespace WritesRoot

variable {tree : TableTree} {srid : Nat} {kind : ChangeKind} {statements : List Statement}
  {rows : RowRef → String → String} {answers : List WriteAnswer}

/-- Only the insertion of the root row captures an identifier of the root table, and it asks for
the primary key. -/
theorem returned?_eq (h : WritesRoot tree srid kind statements) :
    (∃ statement ∈ statements, statement.capture? = some ⟨0, 0⟩) ∧
    ∀ statement ∈ statements, ∀ row, statement.capture? = some row → row.table = 0 →
      statement.returned? = some tree.root.primaryKey := by
  cases h with
  | create hbelow =>
    refine ⟨⟨_, List.mem_cons_self, rfl⟩, List.forall_mem_cons.2 ⟨fun _ _ _ => rfl, ?_⟩⟩
    intro statement hmem row hrow hzero
    exact absurd hzero (Nat.ne_of_gt ((hbelow statement hmem).2 row hrow))
  | update id hbelow =>
    refine ⟨⟨_, List.mem_cons_of_mem _ List.mem_cons_self, rfl⟩, List.forall_mem_cons.2
      ⟨fun row hrow => (nomatch hrow), List.forall_mem_cons.2 ⟨fun _ _ _ => rfl, ?_⟩⟩⟩
    intro statement hmem row hrow hzero
    exact absurd hzero (Nat.ne_of_gt ((hbelow statement hmem).2 row hrow))

/-- A run gives back the primary key of the root row. -/
theorem found_eq (h : WritesRoot tree srid kind statements)
    (hanswers : List.Forall₂ (Statement.IsAnswered rows) statements answers)
    {found : Option String} {texts : List String}
    (hrun : runStatements statements answers = (.ok found, texts)) :
    found = some (rows ⟨0, 0⟩ tree.root.primaryKey) := by
  cases h with
  | create hbelow => exact WriteState.found_of_insertion hbelow hanswers hrun
  | update id hbelow =>
    cases hanswers with
    | cons _ hanswers =>
      obtain ⟨_, next, others, -, -, hrun⟩ := WriteState.run_cons_eq_ok hrun
      exact WriteState.found_of_insertion hbelow hanswers hrun

/-- A feature that is replaced keeps its identifier in the column for it. -/
theorem given_eq {id : String} (h : WritesRoot tree srid (.update id) statements)
    (hanswers : List.Forall₂ (Statement.IsAnswered rows) statements answers) :
    rows ⟨0, 0⟩ tree.root.idColumn = id := by
  cases h with
  | @update staged parent below _ hbelow =>
    cases hanswers with
    | cons _ hanswers =>
      cases hanswers with
      | cons hanswer _ =>
        -- the identifier that is given comes first among the columns
        obtain ⟨more, hcolumns, -⟩ := exists_insertColumns srid tree.root staged parent (some id)
        refine hanswer.2 tree.root.idColumn id ?_
        rw [hcolumns]
        exact List.mem_cons_self

end WritesRoot

end FeatureStore
