import FeatureStore.Proofs.Write.Returned

/-!
# Staged values in statements

What becomes of a value that is staged. It is set on a row (`ValueOp.cell?`), and it stays there
until another operation sets the same column of the same row (`valueAt?_apply`). Operations never
remove a row or move it to another parent row, so a row below the first root row stays below it
(`refs_writtenRows_subset`), and the insertion of a row has all staged values of the columns that
are stored (`mem_insertColumns`). So a value that is set before a second root row is opened reaches
the text of an insertion (`changeStatements_keeps`), unless its column has no place there: columns
that the table does not have are accepted and left out, and so is what is set on a second root row
(`not_keeps_colour`).
-/

set_option autoImplicit false

namespace FeatureStore

/-! ## What operations set -/

/-- The row that a value at a path is set on: the current row of the table that the path leads to,
or else the next row of that table, which is opened for the value. -/
def Staging.target? (s : Staging) (path : String) : Option RowRef :=
  (s.resolve? path).map fun table =>
    ⟨table, (s.currentRow? table).getD (s.rowsOf table).length⟩

/-- The row and the column that an operation sets. -/
def ValueOp.cell? (s : Staging) : ValueOp → Option (RowRef × String)
  | .row _ => none
  | .value path column _ => (s.target? path).map fun ref => (ref, column)
  | .null path column => (s.target? path).map fun ref => (ref, column)

/-- What an operation sets: a value, or no value. -/
def ValueOp.content? : ValueOp → Option (Option String)
  | .row _ => none
  | .value _ _ content => some (some content)
  | .null _ _ => some none

namespace StagedRow

theorem lookup_setColumn (column name : String) (value : Option String) :
    ∀ values : List (String × Option String), (setColumn column value values).lookup name =
      if name = column then some value else values.lookup name
  | [] => by
    rw [setColumn, List.lookup_cons]
    by_cases h : name = column
    · simp [h]
    · simp [h, beq_false_of_ne h]
  | (other, old) :: values => by
    rw [setColumn]
    by_cases hother : other = column
    · subst hother
      rw [if_pos rfl, List.lookup_cons, List.lookup_cons]
      by_cases h : name = other
      · simp [h]
      · simp [h, beq_false_of_ne h]
    · rw [if_neg hother, List.lookup_cons, List.lookup_cons, lookup_setColumn column name value values]
      by_cases h : name = other
      · subst h
        simp [hother]
      · simp [beq_false_of_ne h]

theorem get?_set (row : StagedRow) (column name : String) (value : Option String) :
    (row.set column value).get? name = if name = column then some value else row.get? name :=
  lookup_setColumn column name value row.values

end StagedRow

namespace Staging

variable {tree : TableTree} {s next last : Staging}

/-- What is set on a column of a row, if anything is. -/
def valueAt? (s : Staging) (ref : RowRef) (column : String) : Option (Option String) :=
  (s.rowsOf ref.table)[ref.row]?.bind (·.get? column)

/-- All rows of a staging are there, in front of more rows at most. -/
def Extends (s next : Staging) : Prop := ∀ table, s.rowsOf table <+: next.rowsOf table

/-- Every cell has what was set on it. -/
def SameValues (s next : Staging) : Prop :=
  ∀ ref column, next.valueAt? ref column = s.valueAt? ref column

/-- All rows of a staging still belong to their rows. -/
def KeepsOwners (s next : Staging) : Prop := ∀ table, s.ownersOf table <+: next.ownersOf table

theorem Extends.refl (s : Staging) : s.Extends s := fun _ => List.prefix_refl _

theorem Extends.keepsOwners (h : s.Extends next) : s.KeepsOwners next := fun table => (h table).map _

theorem KeepsOwners.trans (h : s.KeepsOwners next) (hnext : next.KeepsOwners last) :
    s.KeepsOwners last := fun table => (h table).trans (hnext table)

theorem keepsOwners_setValue (s : Staging) (ref : RowRef) (column : String)
    (value : Option String) : s.KeepsOwners (s.setValue ref column value) := by
  intro table
  rw [ownersOf_setValue]

/-! ## Values -/

theorem getElem?_setValue (s : Staging) (ref other : RowRef) (column : String)
    (value : Option String) :
    ((s.setValue ref column value).rowsOf other.table)[other.row]? =
      ((s.rowsOf other.table)[other.row]?).map fun row =>
        if ref = other then row.set column value else row := by
  obtain ⟨table, row⟩ := ref
  obtain ⟨k, i⟩ := other
  show ((s.updateTable table fun rows => rows.modify row _).rowsOf k)[i]? = _
  rw [rowsOf_updateTable]
  by_cases htable : k = table
  · subst htable
    by_cases hlt : k < s.rows.length
    · rw [if_pos ⟨rfl, hlt⟩, List.getElem?_modify]
      simp only [RowRef.mk.injEq, true_and]
      rfl
    · rw [if_neg (fun h => hlt h.2), rowsOf, List.getElem?_eq_none (Nat.not_lt.1 hlt)]
      rfl
  · rw [if_neg (fun h => htable h.1)]
    simp [Ne.symm htable]

/-- A value that is set on a row is there. -/
theorem valueAt?_setValue_self {ref : RowRef} (h : ref.row < (s.rowsOf ref.table).length)
    (column : String) (value : Option String) :
    (s.setValue ref column value).valueAt? ref column = some value := by
  rw [valueAt?, getElem?_setValue, List.getElem?_eq_getElem h]
  show StagedRow.get? (if ref = ref then _ else _) column = _
  rw [if_pos rfl, StagedRow.get?_set, if_pos rfl]

/-- Values of other cells stay. -/
theorem valueAt?_setValue_of_ne {ref other : RowRef} {column name : String}
    (h : (ref, column) ≠ (other, name)) (value : Option String) :
    (s.setValue ref column value).valueAt? other name = s.valueAt? other name := by
  rw [valueAt?, valueAt?, getElem?_setValue]
  cases (s.rowsOf other.table)[other.row]? with
  | none => rfl
  | some row =>
    show StagedRow.get? (if ref = other then _ else _) name = row.get? name
    split
    · rename_i href
      rw [StagedRow.get?_set, if_neg]
      rintro rfl
      exact h (by rw [href])
    · rfl

/-! ## One operation -/

theorem extends_addRow {path : String} {row : Nat} (h : s.addRow path = .ok (row, next)) :
    s.Extends next := by
  obtain ⟨table, owner, -, -, rfl, -⟩ := addRow_eq_ok h
  intro k
  rw [rowsOf_updateTable]
  split
  · exact List.prefix_append _ _
  · exact List.prefix_refl _

/-- Nothing is set on a new row, and what is set on the others stays. -/
theorem sameValues_addRow {path : String} {row : Nat} (h : s.addRow path = .ok (row, next)) :
    s.SameValues next := by
  obtain ⟨table, owner, -, -, rfl, -⟩ := addRow_eq_ok h
  intro ref column
  rw [valueAt?, valueAt?, rowsOf_updateTable]
  split
  · by_cases hlt : ref.row < (s.rowsOf ref.table).length
    · rw [List.getElem?_append_left hlt]
    · -- the row is the new one, or it is not there at all
      rw [List.getElem?_append_right (Nat.not_lt.1 hlt),
        List.getElem?_eq_none (Nat.not_lt.1 hlt), Option.bind_none]
      cases ref.row - (s.rowsOf ref.table).length with
      | zero => rfl
      | succ n => rfl
  · rfl

/-- What setting a value does: it is set on the row for it, which may be opened before. -/
theorem addValue_eq_setValue (htree : tree.IsDerived) (h : s.IsOwned tree) {path column : String}
    {value : Option String} (hadd : s.addValue path column value = .ok next) :
    ∃ ref opened, s.target? path = some ref ∧ s.Extends opened ∧ s.SameValues opened ∧
      ref.row < (opened.rowsOf ref.table).length ∧ next = opened.setValue ref column value := by
  obtain ⟨table, row, opened, htable, hopened, rfl⟩ := addValue_eq_ok hadd
  rcases hopened with ⟨hcurrent, rfl⟩ | ⟨hnone, hopened⟩
  · refine ⟨⟨table, row⟩, _, ?_, Extends.refl _, fun _ _ => rfl, lt_of_currentRow? hcurrent, rfl⟩
    rw [target?, htable, Option.map_some, hcurrent]
    rfl
  · have hlt := lt_size_of_resolve? htable
    obtain ⟨rfl, owner, hnext⟩ := addRow_path htree h.arena_eq hlt hopened
    refine ⟨⟨table, _⟩, opened, ?_, extends_addRow hopened, sameValues_addRow hopened, ?_, rfl⟩
    · rw [target?, htable, Option.map_some, hnone]
      rfl
    · show (s.rowsOf table).length < (opened.rowsOf table).length
      rw [← length_ownersOf, ← length_ownersOf, hnext, s.ownersOf_concat (h.length_eq ▸ hlt),
        if_pos rfl, List.length_append]
      exact Nat.lt_succ_self _

/-- What an operation does: it opens a row, or it sets a cell for which it may open a row. -/
theorem applyOp_cases (htree : tree.IsDerived) (h : s.IsOwned tree) {op : ValueOp}
    (happly : s.applyOp op = .ok next) :
    op.cell? s = none ∧ op.content? = none ∧ s.Extends next ∧ s.SameValues next ∨
      ∃ ref column value opened, op.cell? s = some (ref, column) ∧ op.content? = some value ∧
        s.Extends opened ∧ s.SameValues opened ∧ ref.row < (opened.rowsOf ref.table).length ∧
        next = opened.setValue ref column value := by
  cases op with
  | row path =>
    obtain ⟨⟨row, added⟩, hadd, rfl⟩ := map_eq_ok.1 happly
    exact Or.inl ⟨rfl, rfl, extends_addRow hadd, sameValues_addRow hadd⟩
  | value path column content =>
    obtain ⟨ref, opened, htarget, hextends, hsame, hrow, hnext⟩ :=
      addValue_eq_setValue htree h happly
    refine Or.inr ⟨ref, column, some content, opened, ?_, rfl, hextends, hsame, hrow, hnext⟩
    rw [ValueOp.cell?, htarget]
    rfl
  | null path column =>
    obtain ⟨ref, opened, htarget, hextends, hsame, hrow, hnext⟩ :=
      addValue_eq_setValue htree h happly
    refine Or.inr ⟨ref, column, none, opened, ?_, rfl, hextends, hsame, hrow, hnext⟩
    rw [ValueOp.cell?, htarget]
    rfl

theorem keepsOwners_applyOp (htree : tree.IsDerived) (h : s.IsOwned tree) {op : ValueOp}
    (happly : s.applyOp op = .ok next) : s.KeepsOwners next := by
  rcases applyOp_cases htree h happly with
    ⟨-, -, hextends, -⟩ | ⟨ref, column, value, opened, -, -, hextends, -, -, rfl⟩
  · exact hextends.keepsOwners
  · exact hextends.keepsOwners.trans (opened.keepsOwners_setValue ref column value)

/-- What an operation sets is there behind it, on a row that is there. -/
theorem valueAt?_applyOp_self (htree : tree.IsDerived) (h : s.IsOwned tree) {op : ValueOp}
    {ref : RowRef} {column : String} {value : Option String}
    (happly : s.applyOp op = .ok next) (hcell : op.cell? s = some (ref, column))
    (hcontent : op.content? = some value) :
    next.valueAt? ref column = some value ∧ ref.row < (next.rowsOf ref.table).length := by
  rcases applyOp_cases htree h happly with
    ⟨hnone, -⟩ | ⟨other, name, content, opened, hother, hsame, -, -, hrow, rfl⟩
  · rw [hnone] at hcell
    exact absurd hcell.symm (Option.some_ne_none _)
  · obtain ⟨rfl, rfl⟩ := Prod.mk.inj (Option.some.inj (hother.symm.trans hcell))
    obtain rfl := Option.some.inj (hsame.symm.trans hcontent)
    refine ⟨valueAt?_setValue_self hrow name content, ?_⟩
    rw [← length_ownersOf, ownersOf_setValue, length_ownersOf]
    exact hrow

/-- An operation that does not set a cell leaves what is there. -/
theorem valueAt?_applyOp_of_ne (htree : tree.IsDerived) (h : s.IsOwned tree) {op : ValueOp}
    {ref : RowRef} {column : String} (happly : s.applyOp op = .ok next)
    (hcell : op.cell? s ≠ some (ref, column)) : next.valueAt? ref column = s.valueAt? ref column := by
  rcases applyOp_cases htree h happly with
    ⟨-, -, -, hsame⟩ | ⟨other, name, content, opened, hother, -, -, hsame, -, rfl⟩
  · exact hsame ref column
  · rw [valueAt?_setValue_of_ne (fun heq => hcell (hother.trans (congrArg some heq)))]
    exact hsame ref column

/-! ## More operations -/

/-- No operation of a list sets a cell when they are applied one after the other. -/
def Spares (cell : RowRef × String) (s : Staging) : List ValueOp → Prop
  | [] => True
  | op :: rest => op.cell? s ≠ some cell ∧
    match s.applyOp op with
    | .ok next => next.Spares cell rest
    | .error _ => True

instance decidableSpares (cell : RowRef × String) : (s : Staging) → (ops : List ValueOp) →
    Decidable (s.Spares cell ops)
  | _, [] => inferInstanceAs (Decidable True)
  | s, op :: rest =>
    have : Decidable (match s.applyOp op with
        | .ok next => next.Spares cell rest
        | .error _ => True) :=
      match s.applyOp op with
      | .ok next => decidableSpares cell next rest
      | .error _ => inferInstanceAs (Decidable True)
    inferInstanceAs (Decidable (_ ∧ _))

theorem keepsOwners_apply (htree : tree.IsDerived) {ops : List ValueOp} (h : s.IsOwned tree)
    (happly : s.apply ops = .ok last) : s.KeepsOwners last := by
  induction ops generalizing s with
  | nil =>
    obtain rfl := pure_eq_ok.1 happly
    exact (Extends.refl s).keepsOwners
  | cons op rest ih =>
    obtain ⟨next, hop, hrest⟩ := bind_eq_ok.1 happly
    exact (keepsOwners_applyOp htree h hop).trans (ih (isOwned_applyOp h hop) hrest)

/-- What is set on a cell stays there while no operation sets the cell. -/
theorem valueAt?_apply (htree : tree.IsDerived) {ops : List ValueOp} {ref : RowRef}
    {column : String} {value : Option String} (h : s.IsOwned tree)
    (happly : s.apply ops = .ok last) (hspared : s.Spares (ref, column) ops)
    (hvalue : s.valueAt? ref column = some value) : last.valueAt? ref column = some value := by
  induction ops generalizing s with
  | nil =>
    obtain rfl := pure_eq_ok.1 happly
    exact hvalue
  | cons op rest ih =>
    obtain ⟨next, hop, hrest⟩ := bind_eq_ok.1 happly
    obtain ⟨hcell, hspared⟩ := hspared
    rw [hop] at hspared
    exact ih (isOwned_applyOp h hop) hrest hspared
      ((valueAt?_applyOp_of_ne htree h hop hcell).trans hvalue)

end Staging

/-! ## Rows that are written -/

namespace TableTree

open Staging

variable {s last : Staging}

theorem rowsUnder_subset (h : s.KeepsOwners last) (table : Nat) (owner : Option Nat) :
    s.rowsUnder table owner ⊆ last.rowsUnder table owner := by
  intro row hrow
  obtain ⟨more, hmore⟩ := h table
  have howner := mem_rowsUnder.1 hrow
  refine mem_rowsUnder.2 ?_
  rw [← hmore, List.getElem?_append_left (List.getElem?_eq_some_iff.1 howner).1, howner]

mutual
/-- Rows that are written under a row are written under it with more rows staged. -/
theorem refs_writtenRows_subset (h : s.KeepsOwners last) : ∀ (t : TableTree) (id row : Nat),
    (t.writtenRows s id row).map WrittenRow.ref ⊆ (t.writtenRows last id row).map WrittenRow.ref
  | .node table children, id, row => by
    rw [writtenRows, writtenRows, List.map_cons, List.map_cons]
    exact List.cons_subset_cons _ (refs_writtenBelow_subset h children (id + 1) row)

theorem refs_writtenBelow_subset (h : s.KeepsOwners last) : ∀ (l : List TableTree) (id row : Nat),
    (writtenBelow s id row l).map WrittenRow.ref ⊆ (writtenBelow last id row l).map WrittenRow.ref
  | [], _, _ => List.nil_subset _
  | t :: rest, id, row => by
    intro ref href
    rw [writtenBelow, List.map_append, List.map_flatMap, List.mem_append] at href ⊢
    rcases href with href | href
    · obtain ⟨r, hr, href⟩ := List.mem_flatMap.1 href
      exact Or.inl (List.mem_flatMap.2
        ⟨r, rowsUnder_subset h id (some row) hr, refs_writtenRows_subset h t id r href⟩)
    · exact Or.inr (refs_writtenBelow_subset h rest (id + t.size) row href)
end

end TableTree

/-! ## Insertions -/

/-- The column that says how values of a name are written: the first stored one of that name. -/
def Table.stored? (t : Table) (name : String) : Option Column :=
  (t.columns.filter Column.isStored).find? (·.name == name)

/-- Rows of the table store the key of their parent row in a column. -/
def Table.StoresParentIn (t : Table) (column : String) : Prop :=
  ∃ r, t.relation? = some r ∧ (r.kind = .oneToMany ∨ r.kind = .oneToOneMerge) ∧
    r.targetField = column

/-- The literal of a staged value. -/
def stagedLiteral (srid : Nat) (kind : ColumnKind) : Option String → Sql
  | none => [.text "NULL"]
  | some content =>
    if kind = .spatial then Dialect.geometryLiteral (.quoted content) srid else [.quoted content]

/-- An insertion into a table writes a literal to a column: in its text, the literal stands among
the values at a place where the column stands among the names. -/
def Statement.Writes (statement : Statement) (t : Table) (column : String) (literal : Sql) : Prop :=
  ∀ ids : CapturedIds, ids.Knows statement.needs →
    ∃ (names : List String) (values : List Sql) (i : Nat),
    statement.sql ids = .ok (insertSql t.name names values t.primaryKey) ∧
    names.length = values.length ∧ names[i]? = some column ∧ values[i]? = some literal

theorem sql_ofStaged (srid : Nat) (kind : ColumnKind) (value : Option String) (ids : CapturedIds) :
    (StoredValue.ofStaged srid kind value).sql ids = .ok (stagedLiteral srid kind value) := by
  cases value with
  | none => rfl
  | some content =>
    rw [StoredValue.ofStaged, stagedLiteral]
    split <;> rfl

theorem mem_parentColumns {t : Table} {parent : Option RowRef} {column : String}
    (h : column ∈ (parentColumns t parent).map Prod.fst) : t.StoresParentIn column := by
  unfold parentColumns at h
  split at h
  · rename_i r ref hrelation
    split at h
    · rename_i hkind
      exact ⟨r, hrelation, Or.inr hkind, (List.mem_singleton.1 h).symm⟩
    · rename_i hkind
      exact ⟨r, hrelation, Or.inl hkind, (List.mem_singleton.1 h).symm⟩
    · exact absurd h List.not_mem_nil
  · exact absurd h List.not_mem_nil

section Columns

variable {srid : Nat} {t : Table} {staged : StagedRow} {name : String} {value : Option String}

theorem mem_foldl_addStagedColumn (hkey : name ≠ t.primaryKey)
    (hvalue : staged.get? name = some value) {columns : List Column} {c : Column}
    {start : List (String × StoredValue)} (hc : columns.find? (·.name == name) = some c)
    (hnew : name ∉ start.map Prod.fst) :
    (name, StoredValue.ofStaged srid c.kind value) ∈
      columns.foldl (addStagedColumn srid t staged) start := by
  induction columns generalizing start with
  | nil => simp at hc
  | cons column rest ih =>
    rw [List.foldl_cons]
    by_cases hname : column.name = name
    · -- the column is added, and what follows stands behind it
      rw [List.find?_cons_of_pos (by simpa using hname)] at hc
      obtain rfl := Option.some.inj hc
      have hadd : addStagedColumn srid t staged start column =
          start ++ [(name, StoredValue.ofStaged srid column.kind value)] := by
        rw [addStagedColumn, hname, hvalue, if_neg]
        rw [Bool.or_eq_true, not_or, List.any_eq_true]
        refine ⟨by simpa using hkey, ?_⟩
        rintro ⟨other, hother, hsame⟩
        exact hnew (List.mem_map.2 ⟨other, hother, beq_iff_eq.1 hsame⟩)
      obtain ⟨more, hmore, -⟩ := @foldl_addStagedColumn srid t staged rest
        (start ++ [(name, StoredValue.ofStaged srid column.kind value)])
      rw [hadd, hmore]
      simp
    · rw [List.find?_cons_of_neg (by simpa using hname)] at hc
      refine ih hc ?_
      rcases @addStagedColumn_cases srid t staged start column with hsame | ⟨-, other, hadd⟩
      · rwa [hsame]
      · rw [hadd, List.map_append, List.mem_append, not_or]
        exact ⟨hnew, by simpa using Ne.symm hname⟩

/-- The insertion of a row has what was staged for a stored column, unless the column is the
primary key or holds the key of the parent row. -/
theorem mem_insertColumns {c : Column} (hc : t.stored? name = some c)
    (hkey : name ≠ t.primaryKey) (hforeign : ¬ t.StoresParentIn name)
    (hvalue : staged.get? name = some value) (parent : Option RowRef) :
    (name, StoredValue.ofStaged srid c.kind value) ∈
      insertColumns srid t staged parent none :=
  mem_foldl_addStagedColumn hkey hvalue hc fun hmem => hforeign (mem_parentColumns hmem)

end Columns

/-- The text of an insertion has the literal of each of its columns where it has the name. -/
theorem writes_of_mem {t : Table} {ref : RowRef} {given : Option String}
    {columns : List (String × StoredValue)} {name : String} {value : StoredValue} {literal : Sql}
    (hmem : (name, value) ∈ columns) (hliteral : ∀ ids, value.sql ids = .ok literal) :
    (Statement.insert t.name ref given columns t.primaryKey).Writes t name literal := by
  intro ids hknown
  have hcolumns : ∀ column ∈ columns, ∃ literal, column.2.sql ids = .ok literal :=
    fun column hcolumn => StoredValue.exists_sql fun row hrow =>
      hknown row (List.mem_flatMap.2 ⟨column, hcolumn, hrow⟩)
  obtain ⟨values, hvalues⟩ := exists_mapM_eq_ok hcolumns
  obtain ⟨hlength, hall⟩ := List.forall₂_iff_get.1 (mapM_eq_ok_iff.1 hvalues)
  obtain ⟨i, hi, hget⟩ := List.mem_iff_getElem.1 hmem
  refine ⟨columns.map Prod.fst, values, i, ?_, by rw [List.length_map, hlength], ?_, ?_⟩
  · rw [Statement.sql, if_neg]
    · exact bind_eq_ok.2 ⟨values, hvalues, rfl⟩
    · rw [List.isEmpty_iff]
      rintro rfl
      exact absurd hmem List.not_mem_nil
  · rw [List.getElem?_map, List.getElem?_eq_getElem hi, hget]
    rfl
  · have hi' : i < values.length := hlength ▸ hi
    have hsql := hall i hi hi'
    rw [List.get_eq_getElem, List.get_eq_getElem, hget, hliteral] at hsql
    rw [List.getElem?_eq_getElem hi', Except.ok.inj hsql]

/-! ## Whole scripts -/

/-- A row that is written has what was staged for it. -/
theorem WrittenRow.get?_staged {tree : TableTree} {s : Staging} {x : WrittenRow} {id row : Nat}
    {name : String} {value : Option String} (hx : x ∈ tree.writtenRows s id row)
    (hvalue : s.valueAt? x.ref name = some value) : x.staged.get? name = some value := by
  obtain ⟨k, -, -, hwritten⟩ := TableTree.table_of_mem_writtenRows s hx
  obtain ⟨staged, hstaged, hget⟩ := Option.bind_eq_some_iff.1 hvalue
  have hsame : x.staged = ((s.rowsOf x.ref.table)[x.ref.row]?).getD default := by
    conv_lhs => rw [hwritten]
    rfl
  rw [hsame, hstaged]
  exact hget

/-- A value that an operation sets, before any second root row is opened, and that no later
operation sets again, is written by the statements of the new feature: they can be made, one of them
inserts the row, and it writes the value to the column, if that is a stored one and neither the
primary key nor the key of the parent row. -/
theorem changeStatements_keeps {tree : TableTree} {before after : List ValueOp} {op : ValueOp}
    {mid s : Staging} {ref : RowRef} {name : String} {value : Option String} {t : Table} {c : Column}
    (htree : tree.IsDerived) (happly : (Staging.start tree).apply (before ++ op :: after) = .ok s)
    (hbefore : ∀ other ∈ before, other.KeepsRoot tree)
    (hmid : (Staging.start tree).apply before = .ok mid)
    (hcell : op.cell? mid = some (ref, name)) (hcontent : op.content? = some value)
    (hspared : ∀ next, mid.applyOp op = .ok next → next.Spares (ref, name) after)
    (ht : tree.tables[ref.table]? = some t) (hc : t.stored? name = some c)
    (hkey : name ≠ t.primaryKey) (srid : Nat) :
    ∃ statements, tree.changeStatements srid .create s = .ok statements ∧
      ∃ insertion ∈ statements, insertion.capture? = some ref ∧
        (t.StoresParentIn name ∨
          insertion.Writes t name (stagedLiteral srid c.kind value)) := by
  have howned := Staging.isOwned_apply happly
  obtain ⟨mid', hmid', hrest⟩ : ∃ mid', (Staging.start tree).apply before = .ok mid' ∧
      mid'.apply (op :: after) = .ok s := by
    rw [Staging.apply, List.foldlM_append] at happly
    exact bind_eq_ok.1 happly
  obtain rfl := Except.ok.inj (hmid.symm.trans hmid')
  obtain ⟨next, hop, hafter⟩ := bind_eq_ok.1 hrest
  have hkeeps : op.KeepsRoot tree := by
    cases op with
    | row path => exact absurd hcontent.symm (Option.some_ne_none value)
    | value path column content => trivial
    | null path column => trivial
  have hstaged := Staging.isStaged_apply htree hbefore hmid
  have hnext := Staging.isStaged_applyOp htree hstaged hkeeps hop
  -- the value is set, and both it and its row are kept to the end
  obtain ⟨hvalue, hrow⟩ :=
    Staging.valueAt?_applyOp_self htree hstaged.isOwned hop hcell hcontent
  have hlast := Staging.valueAt?_apply htree hnext.isOwned hafter (hspared next hop) hvalue
  have hrefs := TableTree.refs_writtenRows_subset
    (Staging.keepsOwners_apply htree hnext.isOwned hafter) tree 0 0 ((hnext.mem_refs_iff ref).2 hrow)
  obtain ⟨x, hx, rfl⟩ := List.mem_map.1 hrefs
  obtain ⟨k, hk, htable, -⟩ := TableTree.table_of_mem_writtenRows s hx
  rw [Nat.zero_add] at hk
  rw [hk, htable] at ht
  obtain rfl := Option.some.inj ht
  refine ⟨_, TableTree.emit_of_isOwned htree howned srid (Arena.holds_ofTree tree) howned.root_pos,
    x.insertion srid, List.mem_flatMap.2 ⟨x, hx, List.mem_cons_self⟩, rfl, ?_⟩
  by_cases hforeign : x.table.StoresParentIn name
  · exact Or.inl hforeign
  · have hget := WrittenRow.get?_staged hx hlast
    exact Or.inr (writes_of_mem (mem_insertColumns hc hkey hforeign hget x.parent)
      (sql_ofStaged srid c.kind value))

/-- The name of a first owner, which another owner without a name and even a second parcel leave. -/
theorem changeStatements_keeps_owner :
    let owner := "parcel/[id=parcel_id]owner"
    let before : List ValueOp := [.value "parcel/name" "name" "north", .row owner]
    let op : ValueOp := .value (owner ++ "/name") "name" "Ann"
    let after : List ValueOp := [.row owner, .null (owner ++ "/name") "name", .row "parcel"]
    ∃ tree s t statements, TableTree.ofPaths ["parcel/name", owner ++ "/name"] = .ok tree ∧
      (Staging.start tree).apply (before ++ op :: after) = .ok s ∧ tree.tables[1]? = some t ∧
      tree.changeStatements 4326 .create s = .ok statements ∧
      ∃ insertion ∈ statements, insertion.capture? = some ⟨1, 0⟩ ∧
        (t.StoresParentIn "name" ∨ insertion.Writes t "name" [.quoted "Ann"]) := by
  intro owner before op after
  have hcomputed : (do
      let tree ← TableTree.ofPaths ["parcel/name", owner ++ "/name"]
      let mid ← (Staging.start tree).apply before
      let next ← mid.applyOp op
      let s ← (Staging.start tree).apply (before ++ op :: after)
      return decide ((∀ other ∈ before, other.KeepsRoot tree) ∧
        op.cell? mid = some (⟨1, 0⟩, "name") ∧ next.Spares (⟨1, 0⟩, "name") after ∧
        (tree.tables[1]?.map fun t => (t.stored? "name", t.primaryKey)) =
          some (some ⟨"name", owner ++ "/name", .value⟩, "id")) : Except Error Bool).toOption =
      some true := by
    decide +kernel
  obtain ⟨tree, htree, hok⟩ := bind_eq_ok.1 (toOption_eq_some.1 hcomputed)
  obtain ⟨mid, hmid, hok⟩ := bind_eq_ok.1 hok
  obtain ⟨next, hnext, hok⟩ := bind_eq_ok.1 hok
  obtain ⟨s, hs, hok⟩ := bind_eq_ok.1 hok
  obtain ⟨hbefore, hcell, hspared, htable⟩ := of_decide_eq_true (pure_eq_ok.1 hok)
  obtain ⟨t, ht, hfound⟩ := Option.map_eq_some_iff.1 htable
  obtain ⟨hstored, hprimary⟩ := Prod.mk.inj hfound
  have hlater : ∀ last, mid.applyOp op = .ok last → last.Spares (⟨1, 0⟩, "name") after := by
    intro last hlast
    rw [← Except.ok.inj (hnext.symm.trans hlast)]
    exact hspared
  have hkey : "name" ≠ t.primaryKey := by
    rw [hprimary]
    decide
  obtain ⟨statements, hstatements, hwritten⟩ :=
    changeStatements_keeps (TableTree.isDerived_of_ofPaths htree) hs hbefore
      hmid hcell rfl hlater ht hstored hkey 4326
  exact ⟨tree, s, t, statements, htree, hs, ht, hstatements, hwritten⟩

/-- An insertion without columns writes nothing. -/
theorem not_writes_nil (t : Table) (ref : RowRef) (given : Option String) (column : String)
    (literal : Sql) :
    ¬ (Statement.insert t.name ref given [] t.primaryKey).Writes t column literal := by
  intro h
  obtain ⟨names, values, i, hsql, -⟩ := h CapturedIds.empty fun row hrow => by
    exact absurd hrow List.not_mem_nil
  have hpieces := congrArg List.length (Except.ok.inj hsql)
  simp [insertSql, Sql.ofText, Sql.parenthesized, Sql.around] at hpieces

/-- Values that are accepted and not written. The column `colour` is neither a constant nor the
primary key of the table, nor does it hold the key of a parent row; but the table does not have
it, and no insertion writes it. And `name` is set on a second parcel, for which there is no
insertion. -/
theorem not_keeps_colour :
    let colour : ValueOp := .value "parcel/colour" "colour" "red"
    let name : ValueOp := .value "parcel/name" "name" "north"
    ∃ tree t start, TableTree.ofPaths ["parcel/name"] = .ok tree ∧ tree.tables[0]? = some t ∧
      start = Staging.start tree ∧ t.relation? = none ∧ t.primaryKey = "id" ∧
      t.columns.map (fun c => (c.name, c.isStored)) = [("name", true)] ∧
      (∃ s statements, colour.cell? start = some (⟨0, 0⟩, "colour") ∧
        start.apply [colour] = .ok s ∧ tree.changeStatements 4326 .create s = .ok statements ∧
        ∀ insertion ∈ statements, ∀ literal, ¬ insertion.Writes t "colour" literal) ∧
      ∃ mid s statements, start.apply [.row "parcel"] = .ok mid ∧
        name.cell? mid = some (⟨0, 1⟩, "name") ∧ start.apply [.row "parcel", name] = .ok s ∧
        tree.changeStatements 4326 .create s = .ok statements ∧
        ∀ insertion ∈ statements, insertion.capture? ≠ some ⟨0, 1⟩ := by
  intro colour name
  have hcomputed : (do
      let tree ← TableTree.ofPaths ["parcel/name"]
      let s ← (Staging.start tree).apply [colour]
      let statements ← tree.changeStatements 4326 .create s
      let mid ← (Staging.start tree).apply [.row "parcel"]
      let next ← (Staging.start tree).apply [.row "parcel", name]
      let others ← tree.changeStatements 4326 .create next
      return decide ((tree.tables[0]?.map fun t => (t.name, t.relation?.isNone, t.primaryKey,
          t.columns.map fun c => (c.name, c.isStored))) =
            some ("parcel", true, "id", [("name", true)]) ∧
        colour.cell? (Staging.start tree) = some (⟨0, 0⟩, "colour") ∧
        statements = [.insert "parcel" ⟨0, 0⟩ none [] "id"] ∧
        name.cell? mid = some (⟨0, 1⟩, "name") ∧
        others = [.insert "parcel" ⟨0, 0⟩ none [] "id"]) : Except Error Bool).toOption =
      some true := by
    decide +kernel
  obtain ⟨tree, htree, hok⟩ := bind_eq_ok.1 (toOption_eq_some.1 hcomputed)
  obtain ⟨s, hs, hok⟩ := bind_eq_ok.1 hok
  obtain ⟨statements, hstatements, hok⟩ := bind_eq_ok.1 hok
  obtain ⟨mid, hmid, hok⟩ := bind_eq_ok.1 hok
  obtain ⟨next, hnext, hok⟩ := bind_eq_ok.1 hok
  obtain ⟨others, hothers, hok⟩ := bind_eq_ok.1 hok
  obtain ⟨htable, hcolour, hmade, hname, hrest⟩ := of_decide_eq_true (pure_eq_ok.1 hok)
  obtain ⟨t, ht, hfound⟩ := Option.map_eq_some_iff.1 htable
  obtain ⟨htname, hfound⟩ := Prod.mk.inj hfound
  obtain ⟨hrelation, hfound⟩ := Prod.mk.inj hfound
  obtain ⟨hprimary, hcolumns⟩ := Prod.mk.inj hfound
  refine ⟨tree, t, _, htree, ht, rfl, Option.isNone_iff_eq_none.1 hrelation, hprimary, hcolumns,
    ⟨s, statements, hcolour, hs, hstatements, ?_⟩, mid, next, others, hmid, hname, hnext, hothers, ?_⟩
  · intro insertion hinsertion literal
    rw [hmade] at hinsertion
    rw [List.mem_singleton.1 hinsertion, ← htname, ← hprimary]
    exact not_writes_nil t ⟨0, 0⟩ none "colour" literal
  · intro insertion hinsertion
    rw [hrest] at hinsertion
    rw [List.mem_singleton.1 hinsertion]
    decide

end FeatureStore
