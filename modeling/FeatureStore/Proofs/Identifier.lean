import FeatureStore.Proofs.Read.Layout
import FeatureStore.Proofs.Read.Opening
import FeatureStore.Proofs.Table.WellFormed
import FeatureStore.Proofs.Write.Returned
import FeatureStore.Sql.Membership

/-!
# The identifier of a feature

A feature is identified in four ways. A look-up compares a column of its root row with the
identifier (`LooksUpBy`), unless a mapped property has taken the name of the identifier. A removal
compares a column and gives it back (`RemovesBy`). A write gives back the column that the insertion
of the root row asks for (`ReturnsBy`), and a read begins the feature under the value of a column
(`StartsBy`). The column of a removal is always the one for the identifier; that of an insertion is
the primary key; and that of a read is the identifier column, or the sort key without one. So they
are the same exactly if the tree has one identifier (`TableTree.HasOneIdentifier`). Then what a
write gives back addresses the feature, and a feature that is replaced keeps its identifier; the
texts of statements and the events of a read show the identifier as this column
(`identifiesBy_iff`).
-/

set_option autoImplicit false

namespace FeatureStore

/-! ## Looking up -/

/-- A column of the root row is the identifier that is looked up. -/
def lookupCondition (column id : String) : FeatureCondition :=
  .atom (.test (.oneOf (.column outerRoot column) [.literal (.text id)] false))

theorem render_lookupCondition (s : Storage) (column id : String) :
    (s.featureConditionSql (lookupCondition column id)).render 0 =
      "A." ++ column ++ " IN ('" ++ doubleQuotes id ++ "')" := by
  have hpieces : s.featureConditionSql (lookupCondition column id) =
      [.alias outerRoot, .text ("." ++ column), .text " IN ", .text "(", .quoted id,
        .text ")"] := rfl
  have halias : outerRoot.text 0 = "A" := by decide +kernel
  -- the fixed texts are cut where the pieces are
  have hdot : "A." = "A" ++ "." := rfl
  have hopen : " IN ('" = " IN " ++ ("(" ++ "'") := rfl
  have hclose : "')" = "'" ++ ")" := rfl
  rw [hpieces, hdot, hopen, hclose]
  simp only [Sql.render, List.map_cons, List.map_nil, String.join_cons, String.join_nil, halias,
    Piece.render, String.append_assoc, String.append_empty]

/-- Look-ups compare a column of the root row. -/
def Storage.LooksUpBy (s : Storage) (column : String) : Prop :=
  ∀ featureType id : String, ∃ filter,
    (Query.byId featureType id).effectiveFilter = some filter ∧
      s.featureCondition filter = .ok (lookupCondition column id)

section Lookup

variable {s : Storage}

/-- The table and the column under the name of the identifier. -/
theorem resolve_idProperty (s : Storage) : s.resolve idProperty =
    .ok (match s.tree.property? idProperty with
      | some found => (found.1, found.2.name)
      | none => (s.root, s.root.idColumn)) := by
  rw [Storage.resolve]
  cases s.tree.property? idProperty with
  | some found => rfl
  | none => exact if_pos rfl

theorem joinedTable_idProperty {table : Table} {column : String}
    (hresolve : s.resolve idProperty = .ok (table, column)) :
    s.joinedTable [idProperty] = .ok (if table.isRoot then none else some table) := by
  rw [Storage.joinedTable, Storage.joinedTableFrom, hresolve]
  show (if table.isRoot = true then _ else _) = _
  split <;> rfl

/-- A column of the root table is compared directly. -/
theorem featureCondition_of_root {table : Table} {column : String}
    (hresolve : s.resolve idProperty = .ok (table, column)) (hroot : table.isRoot = true)
    (hpath : table.path = s.root.path) (id : String) :
    s.featureCondition (Filter.oneOf idProperty [.text id]) = .ok (lookupCondition column id) := by
  have hjoined := joinedTable_idProperty hresolve
  rw [if_pos hroot] at hjoined
  have hcolumn : s.column (.feature [(s.root.path, outerRoot)]) idProperty =
      .ok (.column outerRoot column) := by
    refine bind_eq_ok.2 ⟨(table, column), hresolve, ?_⟩
    dsimp only
    rw [hpath, List.lookup_cons_self]
    rfl
  refine bind_eq_ok.2 ⟨none, hjoined, bind_eq_ok.2 ⟨_, ?_, rfl⟩⟩
  exact bind_eq_ok.2 ⟨[.literal (.text id)], rfl, bind_eq_ok.2 ⟨_, hcolumn, rfl⟩⟩

/-- A column of another table is looked for in a sub-select. -/
theorem featureCondition_of_below {table : Table} {column : String}
    (hresolve : s.resolve idProperty = .ok (table, column)) (hbelow : table.isRoot = false)
    (name id : String) :
    s.featureCondition (Filter.oneOf idProperty [.text id]) ≠ .ok (lookupCondition name id) := by
  intro h
  have hjoined := joinedTable_idProperty hresolve
  rw [if_neg (by simp [hbelow])] at hjoined
  obtain ⟨found, hfound, h⟩ := bind_eq_ok.1 h
  obtain rfl := Except.ok.inj (hjoined.symm.trans hfound)
  obtain ⟨joins, -, h⟩ := bind_eq_ok.1 h
  obtain ⟨selection, -, h⟩ := bind_eq_ok.1 h
  simp [lookupCondition, pure_eq_ok] at h

end Lookup

namespace TableTree

/-- Only the root has no relations. -/
theorem IsDerived.eq_root_of_isRoot {tree : TableTree} (htree : tree.IsDerived) {t : Table}
    (ht : t ∈ tree.tables) (hroot : t.isRoot = true) : t = tree.root := by
  rw [tables_eq_cons] at ht
  rcases List.mem_cons.1 ht with rfl | ht
  · rfl
  · rw [← map_snd_edges] at ht
    obtain ⟨edge, hedge, rfl⟩ := List.mem_map.1 ht
    obtain ⟨r, hrelations, -⟩ := htree.links hedge
    rw [Table.isRoot, hrelations] at hroot
    simp at hroot

theorem mem_tables_of_property? {tree : TableTree} {property : String} {found : Table × Column}
    (h : tree.property? property = some found) : found.1 ∈ tree.tables := by
  obtain ⟨t, ht, hfound⟩ := List.exists_of_findSome?_eq_some h
  obtain ⟨c, -, rfl⟩ := Option.map_eq_some_iff.1 hfound
  exact ht

end TableTree

/-- Look-ups compare the column under the name of the identifier, if it is one of the root table. -/
theorem looksUpBy_of_resolve {s : Storage} {table : Table} {name column : String}
    (hresolve : s.resolve idProperty = .ok (table, name))
    (hpath : table.isRoot = true → table.path = s.root.path) :
    s.LooksUpBy column ↔ table.isRoot = true ∧ name = column := by
  constructor
  · intro h
    obtain ⟨filter, hfilter, hcondition⟩ := h "" ""
    obtain rfl := Option.some.inj hfilter
    cases hroot : table.isRoot with
    | false => exact absurd hcondition (featureCondition_of_below hresolve hroot column "")
    | true =>
      have heq := (featureCondition_of_root hresolve hroot (hpath hroot) "").symm.trans hcondition
      exact ⟨rfl, by simpa [lookupCondition] using heq⟩
  · rintro ⟨hroot, rfl⟩ featureType id
    exact ⟨_, rfl, featureCondition_of_root hresolve hroot (hpath hroot) id⟩

/-- The name of the identifier belongs to a column of the root table that a property has it for, or
else to the column for the identifier. -/
theorem looksUpBy_iff {s : Storage} (htree : s.tree.IsDerived) {column : String} :
    s.LooksUpBy column ↔
      (∀ found ∈ s.tree.property? idProperty, found.1.isRoot = true ∧ found.2.name = column) ∧
        (s.tree.property? idProperty = none → s.root.idColumn = column) := by
  have hresolve := resolve_idProperty s
  cases hfound : s.tree.property? idProperty with
  | some found =>
    rw [hfound] at hresolve
    have hpath : found.1.isRoot = true → found.1.path = s.root.path := fun hroot => by
      rw [htree.eq_root_of_isRoot (TableTree.mem_tables_of_property? hfound) hroot]
      rfl
    rw [looksUpBy_of_resolve hresolve hpath]
    simp
  | none =>
    rw [hfound] at hresolve
    have hroot : s.root.isRoot = true := by
      rw [Table.isRoot, show s.root.relations = [] from htree.root_relations]
      rfl
    rw [looksUpBy_of_resolve hresolve fun _ => rfl]
    simp [hroot]

/-! ## Removing and inserting -/

/-- Removals compare a column of the root row, and give it back. -/
def Storage.RemovesBy (s : Storage) (column : String) : Prop :=
  ∀ id, s.tree.deleteStatement id = .delete s.root.name column id

/-- Whatever is written, the one insertion into the root table gives back a column. -/
def Storage.ReturnsBy (s : Storage) (column : String) : Prop :=
  ∀ (kind : ChangeKind) (staging : Staging) (statements : List Statement),
    (∀ id, kind ≠ .delete id) → s.tree.changeStatements s.srid kind staging = .ok statements →
      ∀ statement ∈ statements, ∀ row, statement.capture? = some row → row.table = 0 →
        statement.returned? = some column

theorem removesBy_iff {s : Storage} {column : String} :
    s.RemovesBy column ↔ s.root.idColumn = column := by
  constructor
  · intro h
    exact (Statement.delete.inj (h "")).2.1
  · rintro rfl id
    rfl

theorem returnsBy_iff {s : Storage} (htree : s.tree.IsDerived) {column : String} :
    s.ReturnsBy column ↔ s.root.primaryKey = column := by
  constructor
  · intro h
    have hkind : ∀ id, ChangeKind.create ≠ .delete id := fun id => by simp
    have happly : (Staging.start s.tree).apply [] = .ok (Staging.start s.tree) := rfl
    obtain ⟨statements, hstatements, -⟩ :=
      capturedFirst_changeStatements htree happly s.srid .create
    obtain ⟨⟨statement, hmem, hcapture⟩, hreturned⟩ :=
      (writesRoot_of_changeStatements hkind hstatements).returned?_eq
    have hprimary := hreturned statement hmem ⟨0, 0⟩ hcapture rfl
    exact Option.some.inj (hprimary.symm.trans
      (h .create _ statements hkind hstatements statement hmem ⟨0, 0⟩ hcapture rfl))
  · rintro rfl kind staging statements hkind hstatements
    exact (writesRoot_of_changeStatements hkind hstatements).returned?_eq.2

/-! ## One identifier -/

/-- A column identifies features wherever they are identified. -/
structure Storage.IdentifiesBy (s : Storage) (column : String) : Prop where
  lookup : s.LooksUpBy column
  removal : s.RemovesBy column
  insertion : s.ReturnsBy column
  start : s.StartsBy column

/-- The tree has one identifier: no other column has taken its name, it is the primary key of the
root table, and unless a column is marked as the identifier, it tells the rows of the root table
apart as their sort key. -/
structure TableTree.HasOneIdentifier (tree : TableTree) : Prop where
  named : ∀ found ∈ tree.property? idProperty,
    found.1.isRoot = true ∧ found.2.name = tree.root.idColumn
  keyed : tree.root.idColumn = tree.root.primaryKey
  sorted : tree.root.identifier? = none →
    tree.root.sortKeyUnique = true ∧ tree.root.sortKey = tree.root.primaryKey

instance (tree : TableTree) : Decidable tree.HasOneIdentifier :=
  decidable_of_iff
    ((∀ found ∈ tree.property? idProperty,
        found.1.isRoot = true ∧ found.2.name = tree.root.idColumn) ∧
      tree.root.idColumn = tree.root.primaryKey ∧
      (tree.root.identifier? = none →
        tree.root.sortKeyUnique = true ∧ tree.root.sortKey = tree.root.primaryKey))
    ⟨fun h => ⟨h.1, h.2.1, h.2.2⟩, fun h => ⟨h.named, h.keyed, h.sorted⟩⟩

/-- Some column identifies features wherever they are identified exactly if the tree has one
identifier. -/
theorem exists_identifiesBy_iff {s : Storage} (htree : s.tree.IsDerived) :
    (∃ column, s.IdentifiesBy column) ↔ s.tree.HasOneIdentifier := by
  constructor
  · rintro ⟨column, h⟩
    have hremoval : s.root.idColumn = column := removesBy_iff.1 h.removal
    have hinsertion : s.root.primaryKey = column := (returnsBy_iff htree).1 h.insertion
    obtain ⟨hnamed, -⟩ := (looksUpBy_iff htree).1 h.lookup
    obtain ⟨-, hsorted⟩ := (startsBy_iff htree).1 h.start
    refine ⟨fun found hfound => ?_, hremoval.trans hinsertion.symm, fun hnone => ?_⟩
    · obtain ⟨hroot, hname⟩ := hnamed found hfound
      exact ⟨hroot, hname.trans hremoval.symm⟩
    · obtain ⟨hunique, hkey⟩ := hsorted hnone
      exact ⟨hunique, hkey.trans hinsertion.symm⟩
  · intro h
    refine ⟨s.root.idColumn, (looksUpBy_iff htree).2 ⟨h.named, fun _ => rfl⟩, removesBy_iff.2 rfl,
      (returnsBy_iff htree).2 h.keyed.symm, (startsBy_iff htree).2 ⟨fun c hc => ?_, fun hnone => ?_⟩⟩
    · rw [Table.idColumn, hc]
      rfl
    · obtain ⟨hunique, hkey⟩ := h.sorted hnone
      exact ⟨hunique, hkey.trans h.keyed.symm⟩

/-! ## What a write gives back -/

/-- A look-up of the identifier compares it with a value of the root row, a removal of it does, and
a read of the row begins the feature under it. -/
structure Storage.Addresses (s : Storage) (id : String) (values : String → String) : Prop where
  lookup : ∃ column, s.LooksUpBy column ∧ values column = id
  removal : ∃ column, s.RemovesBy column ∧ values column = id
  start : ∃ column, s.StartsBy column ∧ values column = id

/-- Writes give back identifiers that address what they wrote. -/
structure Storage.GivesIdentifiers (s : Storage) : Prop where
  /-- What a write gives back addresses the root row that it inserted, and it is the identifier that
  the feature had if it is replaced. -/
  addressed : ∀ (kind : ChangeKind) (staging : Staging) (statements : List Statement)
    (rows : RowRef → String → String) (answers : List WriteAnswer) (found : Option String)
    (texts : List String), (∀ id, kind ≠ .delete id) →
    s.tree.changeStatements s.srid kind staging = .ok statements →
    List.Forall₂ (Statement.IsAnswered rows) statements answers →
    runStatements statements answers = (.ok found, texts) →
      ∃ id, found = some id ∧ s.Addresses id (rows ⟨0, 0⟩) ∧
        ∀ given, kind = .update given → id = given
  /-- A feature that was staged without a second root row is written, if the database does what it
  is asked for. -/
  written : ∀ (kind : ChangeKind) (ops : List ValueOp) (staging : Staging),
    (∀ op ∈ ops, op.KeepsRoot s.tree) → (Staging.start s.tree).apply ops = .ok staging →
      ∃ statements, s.tree.changeStatements s.srid kind staging = .ok statements ∧
        ∀ (rows : RowRef → String → String) (answers : List WriteAnswer),
          List.Forall₂ (Statement.IsAnswered rows) statements answers →
            ∃ found texts, runStatements statements answers = (.ok found, texts)

theorem givesIdentifiers_of_identifiesBy {s : Storage} (htree : s.tree.IsDerived) {column : String}
    (h : s.IdentifiesBy column) : s.GivesIdentifiers := by
  have hremoval : s.root.idColumn = column := removesBy_iff.1 h.removal
  have hinsertion : s.root.primaryKey = column := (returnsBy_iff htree).1 h.insertion
  constructor
  · intro kind staging statements rows answers found texts hkind hstatements hanswers hrun
    have hwrites := writesRoot_of_changeStatements hkind hstatements
    refine ⟨rows ⟨0, 0⟩ column, ?_, ⟨⟨column, h.lookup, rfl⟩, ⟨column, h.removal, rfl⟩,
      ⟨column, h.start, rfl⟩⟩, fun given hgiven => ?_⟩
    · rw [← hinsertion]
      exact hwrites.found_eq hanswers hrun
    · subst hgiven
      rw [← hremoval]
      exact hwrites.given_eq hanswers
  · intro kind ops staging _ happly
    obtain ⟨statements, hstatements, hfirst⟩ :=
      capturedFirst_changeStatements htree happly s.srid kind
    refine ⟨statements, hstatements, fun rows answers hanswers => ?_⟩
    have hknown : WriteState.start.ids.Knows [] := fun row hrow => absurd hrow List.not_mem_nil
    exact WriteState.exists_run hfirst hknown hanswers

/-! ## What is shown of an identifier -/

/-- Texts and events show the identifier as a column: the text of a look-up compares it, those of a
removal and of the insertion of a root row end with it, and every feature is read under its
value. -/
structure Storage.ShowsIdentifier (s : Storage) (column : String) : Prop where
  lookup : ∀ featureType id : String, ∃ filter,
    (Query.byId featureType id).effectiveFilter = some filter ∧
      s.filterText filter 0 = .ok ("A." ++ column ++ " IN ('" ++ doubleQuotes id ++ "')")
  removal : ∀ (id : String) (ids : CapturedIds) (text : String),
    (s.tree.deleteStatement id).text ids = .ok text →
      ∃ front, text = front ++ " RETURNING " ++ column
  insertion : ∀ (kind : ChangeKind) (staging : Staging) (statements : List Statement),
    (∀ id, kind ≠ .delete id) → s.tree.changeStatements s.srid kind staging = .ok statements →
      ∀ statement ∈ statements, ∀ row, statement.capture? = some row → row.table = 0 →
        ∀ (ids : CapturedIds) (text : String), statement.text ids = .ok text →
          ∃ front, text = front ++ " RETURNING " ++ column
  /-- Whatever rows came before, the root row of another feature opens it under the column. -/
  start : ∀ (name : String) (counted : Bool) (plan : ReadPlan) (flags : List Bool)
    (r : Reconstruction), ReadPlan.ofStorage name s counted = .ok plan →
    Reconstruction.start plan flags = .ok r →
    ∀ (before : List MergedRow) (front : Row) (values : String → Option Cell) (key id : Cell)
      (cells : Row), front.length = flags.length → s.root.Selects values key cells →
      values column = some id → (r.behind before).current ≠ some key.text →
        ∃ events next, (r.behind before).push ⟨0, front ++ some key :: cells⟩ =
          (.ok ((r.behind before).closing ++
            .featureStart (r.behind before).featureType id.text :: events), next)

theorem showsIdentifier_of_identifiesBy {s : Storage} (htree : s.tree.IsDerived) {column : String}
    (h : s.IdentifiesBy column) : s.ShowsIdentifier column := by
  constructor
  · intro featureType id
    obtain ⟨filter, hfilter, hcondition⟩ := h.lookup featureType id
    refine ⟨filter, hfilter, ?_⟩
    rw [Storage.filterText, hcondition, ← render_lookupCondition s column id]
    rfl
  · intro id ids text htext
    refine Statement.text_of_returned? ?_ htext
    rw [h.removal id]
    rfl
  · intro kind staging statements hkind hstatements statement hmem row hrow hzero ids text htext
    have hreturned := h.insertion kind staging statements hkind hstatements statement hmem row hrow
      hzero
    exact Statement.text_of_returned? hreturned htext
  · intro name counted plan flags r hplan hstart before
    -- rows leave the layouts, so the root table is still known behind them
    obtain ⟨hgroups, hreader⟩ := r.layout_behind before
    obtain ⟨hgroup, hkeys⟩ := readsRoot_of_start htree hplan hstart
    exact h.start (r.behind before) flags ⟨hgroups ▸ hgroup, hreader.trans hkeys⟩

/-- The tree of a feature type has one identifier exactly if some column identifies its features
wherever they are identified; and then what a write gives back addresses the feature, and a feature
that is replaced keeps its identifier. Texts and events show the identifier as this column. -/
theorem identifiesBy_iff {m : FeatureMapping} {s : Storage}
    (h : TableTree.ofMapping m = .ok s.tree) :
    ((∃ column, s.IdentifiesBy column) ↔ s.tree.HasOneIdentifier) ∧
      (s.tree.HasOneIdentifier → s.GivesIdentifiers) ∧
      ∀ column, s.IdentifiesBy column → s.ShowsIdentifier column := by
  have htree := TableTree.isDerived_of_ofMapping h
  have hiff := exists_identifiesBy_iff htree
  refine ⟨hiff, fun hone => ?_, fun column => showsIdentifier_of_identifiesBy htree⟩
  obtain ⟨column, hcolumn⟩ := hiff.2 hone
  exact givesIdentifiers_of_identifiesBy htree hcolumn

/-- Parcels are kept and sorted by their code, which is also their identifier. -/
theorem identifiesBy_iff_codes :
    let m : FeatureMapping := ⟨"parcel", "parcel{primaryKey=code}{sortKey=code}",
      [⟨"code", "code", .id, none⟩, ⟨"owner", "[code=parcel_code]owner/name", .value, none⟩]⟩
    ∃ s : Storage, TableTree.ofMapping m = .ok s.tree ∧ s.tree.HasOneIdentifier ∧
      s.GivesIdentifiers ∧ ∃ column, s.IdentifiesBy column ∧ s.ShowsIdentifier column := by
  intro m
  have hone : (do
      let tree ← TableTree.ofMapping m
      return decide tree.HasOneIdentifier : Except Error Bool).toOption = some true := by
    decide +kernel
  obtain ⟨tree, htree, hok⟩ := bind_eq_ok.1 (toOption_eq_some.1 hone)
  have hone := of_decide_eq_true (pure_eq_ok.1 hok)
  obtain ⟨hiff, hgives, hshows⟩ := @identifiesBy_iff m (Storage.plain tree .postgis) htree
  obtain ⟨column, hcolumn⟩ := hiff.2 hone
  exact ⟨Storage.plain tree .postgis, htree, hone, hgives hone, column, hcolumn,
    hshows column hcolumn⟩

/-- Parcels are identified by their code, but kept under a number that the database gives them: a
parcel that is replaced under its code gets another identifier back. -/
theorem not_identifiesBy_code :
    let m : FeatureMapping := ⟨"parcel", "parcel", [⟨"code", "code", .id, none⟩]⟩
    ∃ s : Storage, TableTree.ofMapping m = .ok s.tree ∧ (¬ ∃ column, s.IdentifiesBy column) ∧
      ∃ statements rows answers texts,
        s.tree.changeStatements s.srid (.update "A7") (Staging.start s.tree) = .ok statements ∧
        List.Forall₂ (Statement.IsAnswered rows) statements answers ∧
        runStatements statements answers = (.ok (some "1"), texts) := by
  intro m
  have hshape : (do
      let tree ← TableTree.ofMapping m
      let statements ← tree.changeStatements defaultSrid (.update "A7") (Staging.start tree)
      return (decide tree.HasOneIdentifier, statements) :
        Except Error (Bool × List Statement)).toOption = some (false,
          [ .delete "parcel" "code" "A7",
            .insert "parcel" ⟨0, 0⟩ (some "A7") [("code", .id "A7")] "id" ]) := by
    decide +kernel
  obtain ⟨tree, htree, hok⟩ := bind_eq_ok.1 (toOption_eq_some.1 hshape)
  obtain ⟨statements, hstatements, hok⟩ := bind_eq_ok.1 hok
  obtain ⟨hnot, rfl⟩ := Prod.mk.inj (pure_eq_ok.1 hok)
  have hiff := @exists_identifiesBy_iff (Storage.plain tree .postgis)
    (TableTree.isDerived_of_ofMapping htree)
  refine ⟨Storage.plain tree .postgis, htree, fun h => of_decide_eq_false hnot (hiff.1 h), _,
    fun _ column => if column = "code" then "A7" else "1",
    [.ok (some "A7"), .ok (some "1")], _, hstatements, ?_, rfl⟩
  refine .cons ⟨"A7", rfl⟩ (.cons ⟨rfl, fun column id hmem => ?_⟩ .nil)
  obtain ⟨rfl, hid⟩ := Prod.mk.inj (List.mem_singleton.1 hmem)
  rw [StoredValue.id.inj hid]
  rfl

end FeatureStore
