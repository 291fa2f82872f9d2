import FeatureStore.Proofs.Sql.AlikeConditions
import FeatureStore.Proofs.Write.Create

/-!
# Values in the statements of a write

What the statements of a change are read as, once the names in them are identifiers
(`Statement.together_items`). Names and keywords are words, and every value is one item, whatever
characters it has: a staged text is a quoted text, that of a geometry is the first argument of a
function, and an identifier is a number if it consists of digits and a quoted text otherwise
(`idItem`). Together with what is known of filters this says that texts of users never change how a
statement is read (`userTexts_stayLiterals`).
-/

set_option autoImplicit false

namespace FeatureStore

/-! ## Items of statements -/

/-- Words one after the other. -/
def wordItems (words : List String) : List Item := words.map fun word => .word word.toList

/-- Lists of items with commas between them. -/
def listedItems (items : List (List Item)) : List Item := [Item.sign ','].intercalate items

/-- The item for an identifier: a number, or a quoted text. -/
def idItem (id : String) : Item :=
  if !id.toList.isEmpty && id.toList.all Char.isDigit then .word id.toList
  else .quoted .single id.toList

/-- The items of a value that is written. -/
def StoredValue.items (ids : CapturedIds) : StoredValue → Except Error (List Item)
  | .missing => .ok (wordItems ["NULL"])
  | .text value => .ok [.quoted .single value.toList]
  | .geometry value srid =>
    .ok (wordItems ["ST_GeomFromText"] ++ [.group (listedItems
      [[.quoted .single value.toList], wordItems [toString srid]])])
  | .id value => .ok [idItem value]
  | .idOf row => (ids.get row).map fun id => [idItem id]

/-- The items of a statement, with the identifiers captured so far. -/
def Statement.items (ids : CapturedIds) : Statement → Except Error (List Item)
  | .delete table column id =>
    .ok (wordItems ["DELETE", "FROM", table, "WHERE", column] ++ [.sign '=', idItem id] ++
      wordItems ["RETURNING", column])
  | .insert table _ _ columns key =>
    if columns.isEmpty then
      .ok (wordItems ["INSERT", "INTO", table, "DEFAULT", "VALUES", "RETURNING", key])
    else do
      let values ← columns.mapM fun (_, value) => value.items ids
      let names := columns.map fun (name, _) => wordItems [name]
      return wordItems ["INSERT", "INTO", table] ++ [.group (listedItems names)] ++
        wordItems ["VALUES"] ++ [.group (listedItems values)] ++ wordItems ["RETURNING", key]
  | .link table parentField childField parent child => do
    let first ← ids.get parent
    let second ← ids.get child
    return wordItems ["INSERT", "INTO", table] ++
      [.group (listedItems [wordItems [parentField], wordItems [childField]])] ++
        wordItems ["VALUES"] ++ [.group (listedItems [[idItem first], [idItem second]])]
  | .pointAt table field key parent child => do
    let target ← ids.get child
    let source ← ids.get parent
    return wordItems ["UPDATE", table, "SET", field] ++ [.sign '=', idItem target] ++
      wordItems ["WHERE", key] ++ [.sign '=', idItem source]

/-! ## Texts of statements -/

/-- All names in a statement are identifiers. -/
def Statement.HasNames : Statement → Prop
  | .delete table column _ => IsName table ∧ IsName column
  | .insert table _ _ columns key => IsName table ∧ (∀ c ∈ columns, IsName c.1) ∧ IsName key
  | .link table parentField childField _ _ =>
    IsName table ∧ IsName parentField ∧ IsName childField
  | .pointAt table field key _ _ => IsName table ∧ IsName field ∧ IsName key

section Spelling

/-- Names with blanks between them are words. -/
theorem spells_words : ∀ words : List String, (∀ word ∈ words, IsName word) →
    Spells (" ".intercalate words).toList (wordItems words)
  | [], _ => spellsEnded_nil.spells
  | [word], h => by
    rw [String.intercalate_singleton]
    exact spells_word (h word List.mem_cons_self)
  | word :: other :: words, h => by
    obtain ⟨hword, hrest⟩ := List.forall_mem_cons.1 h
    rw [String.intercalate_cons_cons, String.toList_append, String.toList_append]
    exact (spellsEnded_word hword).append (spells_words _ hrest)

theorem isName_natText (n : Nat) : IsName (toString n) := by
  rw [IsName, Nat.toString_eq_repr, Nat.toList_repr]
  exact (isIdentifier_of_digits Nat.toDigits_ne_nil fun c hc =>
    .inl (Nat.isDigit_of_mem_toDigits (b := 10) (by omega) (by omega) hc)).1

theorem separates_cons {c : Char} (hc : isSeparator c = true) {text : List Char} :
    Separates (c :: text) := by
  intro other hother
  obtain rfl := Option.some.inj hother
  exact hc

theorem listedItems_cons_cons (a b : List Item) (items : List (List Item)) :
    listedItems (a :: b :: items) = a ++ [.sign ','] ++ listedItems (b :: items) := by
  simp [listedItems, List.intercalate]

theorem divides_mark (c : Char) (hc : isSign c = true) (hblank : c ≠ ' ') :
    Divides [c] [.sign c] := by
  have hall : [c].all isSign = true := by simpa using hc
  simpa [hblank] using divides_signs hall (by simp)

theorem divides_equals : Divides ['='] [.sign '='] := divides_mark '=' (by decide) (by decide)

/-- Texts with commas between them. -/
theorem spells_listed {parts : List String} {items : List (List Item)}
    (h : List.Forall₂ (fun part item => Spells part.toList item) parts items) :
    Spells (",".intercalate parts).toList (listedItems items) := by
  induction h with
  | nil => exact spellsEnded_nil.spells
  | @cons part item parts items hpart hrest ih =>
    cases hrest with
    | nil =>
      rw [String.intercalate_singleton]
      simpa [listedItems] using hpart
    | cons hother hothers =>
      rw [String.intercalate_cons_cons, String.toList_append, String.toList_append,
        listedItems_cons_cons]
      exact (hpart.divided (divides_mark ',' (by decide) (by decide))).append ih

theorem spells_literal (text : String) :
    Spells ((Piece.quoted text).render 0).toList [.quoted .single text.toList] := by
  rw [Piece.toList_render_quoted]
  exact spells_quoted text.toList

/-- An identifier is one item. -/
theorem spells_idLiteral (id : String) : Spells ((idLiteral id).render 0).toList [idItem id] := by
  rw [idLiteral, idItem]
  split
  · rename_i hdigits
    rw [Bool.and_eq_true, List.all_eq_true] at hdigits
    obtain ⟨hne, hall⟩ := hdigits
    have hsome : id.toList ≠ [] := by simpa using hne
    exact spells_word (isIdentifier_of_digits hsome fun c hc => .inl (hall c hc)).1
  · exact spells_literal id

/-- The text of a value is one item, or a function of one. -/
theorem StoredValue.together_items (ids : CapturedIds) (value : StoredValue) :
    Together (fun sql items => Spells (Sql.chars 0 sql) items) (value.sql ids)
      (value.items ids) := by
  have hpiece : ∀ {piece : Piece} {items : List Item}, Spells (piece.render 0).toList items →
      Spells (Sql.chars 0 [piece]) items := by
    intro piece items h
    rwa [Sql.chars_cons, Sql.chars_nil, List.append_nil]
  cases value with
  | missing => exact .ok (hpiece (spells_words ["NULL"] (by decide)))
  | text value => exact .ok (hpiece (spells_literal value))
  | geometry value srid =>
    have htext : (Dialect.geometryLiteral (.quoted value) srid).chars 0 =
        "ST_GeomFromText".toList ++ ('(' ::
          (",".intercalate [(Piece.quoted value).render 0, toString srid]).toList ++ [')']) := by
      rw [Dialect.geometryLiteral, Sql.chars_text, Sql.chars_cons, Sql.chars_text, Sql.chars_nil]
      simp [String.intercalate_cons_cons]
    have hsrid : ∀ word ∈ [toString srid], IsName word :=
      List.forall_mem_singleton.2 (isName_natText srid)
    have hargs := spells_listed (.cons (spells_literal value) (.cons (spells_words _ hsrid) .nil))
    have hfunction := spells_words ["ST_GeomFromText"] (by decide)
    refine .ok ?_
    rw [htext]
    exact hfunction.append (spellsEnded_group hargs).spells (separates_cons (by decide))
  | id value => exact .ok (hpiece (spells_idLiteral value))
  | idOf row =>
    rw [sql, items]
    cases ids.get row with
    | error e => exact .error e e
    | ok id => exact .ok (hpiece (spells_idLiteral id))

end Spelling

/-! ## Statements -/

/-- Some values are inserted under some names. -/
theorem spells_insertion {table : String} (htable : IsName table) {names values : List Char}
    {ns vs : List Item} (hnames : Spells names ns) (hvalues : Spells values vs) :
    SpellsEnded ((" ".intercalate ["INSERT", "INTO", table]).toList ++ [' '] ++
        ('(' :: names ++ [')']) ++ " VALUES ".toList ++ ('(' :: values ++ [')']))
      (wordItems ["INSERT", "INTO", table] ++ [.group ns] ++ wordItems ["VALUES"] ++
        [.group vs]) := by
  have hfront := (spells_words ["INSERT", "INTO", table]
    (by simp [htable]; decide)).divided divides_blank
  have hwords : Divides " VALUES ".toList (wordItems ["VALUES"]) :=
    divides_word (a := "VALUES".toList) (by decide)
  have hall := ((hfront.append_ended (spellsEnded_group hnames)).spells.divided hwords).append_ended
    (spellsEnded_group hvalues)
  simpa using hall

/-- The text of a statement whose names are identifiers is read as its items. -/
theorem Statement.together_items (ids : CapturedIds) {statement : Statement}
    (h : statement.HasNames) :
    Together (fun sql items => Spells (Sql.chars 0 sql) items) (statement.sql ids)
      (statement.items ids) := by
  cases statement with
  | delete table column id =>
    obtain ⟨htable, hcolumn⟩ := h
    have hfront := spells_words ["DELETE", "FROM", table, "WHERE", column]
      (by simp [htable, hcolumn]; decide)
    have hbehind := spells_words ["RETURNING", column] (by simp [hcolumn]; decide)
    have hall := (((hfront.divided divides_equals).append (spells_idLiteral id)).divided
      divides_blank).append hbehind
    refine .ok ?_
    simpa [Sql.chars_cons, Sql.chars_nil, Piece.render, String.intercalate_cons_cons] using hall
  | insert table row id columns key =>
    obtain ⟨htable, hcolumns, hkey⟩ := h
    rw [sql, items]
    split
    · have hall := spells_words ["INSERT", "INTO", table, "DEFAULT", "VALUES", "RETURNING", key]
        (by simp [htable, hkey]; decide)
      refine .ok ?_
      simpa [Sql.chars_ofText, String.intercalate_cons_cons] using hall
    · have hvalues : Together (List.Forall₂ fun sql items => Spells (Sql.chars 0 sql) items)
          (columns.mapM fun c => c.2.sql ids) (columns.mapM fun c => c.2.items ids) := by
        refine Together.mapM (P := Eq) ?_ (List.forall₂_eq_eq_eq ▸ rfl)
        rintro c _ rfl
        exact c.2.together_items ids
      refine hvalues.bind fun values items hitems => .ok ?_
      have hnames : List.Forall₂ (fun part item => Spells part.toList item)
          (columns.map Prod.fst) (columns.map fun (name, _) => wordItems [name]) := by
        rw [List.forall₂_map_left_iff, List.forall₂_map_right_iff, List.forall₂_same]
        exact fun c hc => spells_word (hcolumns c hc)
      have htexts : List.Forall₂ (fun part item => Spells part.toList item)
          (values.map (Sql.render 0)) items := List.forall₂_map_left_iff.2 hitems
      have hbehind := spells_words ["RETURNING", key] (by simp [hkey]; decide)
      have hall := ((spells_insertion htable (spells_listed hnames)
        (spells_listed htexts)).spells.divided divides_blank).append hbehind
      have hlisted : (Sql.separated "," values).chars 0 =
          (",".intercalate (values.map (Sql.render 0))).toList :=
        congrArg String.toList (Sql.render_separated 0 "," values)
      simpa [Sql.chars_cons, Sql.chars_append, Sql.chars_parenthesized, Sql.chars_ofText, hlisted,
        Piece.render, String.intercalate_cons_cons] using hall
  | link table parentField childField parent child =>
    obtain ⟨htable, hparent, hchild⟩ := h
    refine Together.bind_same fun first _ => Together.bind_same fun second _ => .ok ?_
    have hfields := spells_listed (.cons (spells_words [parentField] (by simpa))
      (.cons (spells_words [childField] (by simpa)) .nil))
    have hids := spells_listed (.cons (spells_idLiteral first)
      (.cons (spells_idLiteral second) .nil))
    have hall := (spells_insertion htable hfields hids).spells
    simpa [Sql.chars_cons, Sql.chars_nil, Piece.render, String.intercalate_cons_cons] using hall
  | pointAt table field key parent child =>
    obtain ⟨htable, hfield, hkey⟩ := h
    refine Together.bind_same fun target _ => Together.bind_same fun source _ => .ok ?_
    have hfront := spells_words ["UPDATE", table, "SET", field]
      (by simp [htable, hfield]; decide)
    have hbehind := spells_words ["WHERE", key] (by simp [hkey]; decide)
    have hall := (((((hfront.divided divides_equals).append (spells_idLiteral target)).divided
      divides_blank).append hbehind).divided divides_equals).append (spells_idLiteral source)
    simpa [Sql.chars_cons, Sql.chars_nil, Piece.render, String.intercalate_cons_cons] using hall

/-! ## Names in the statements of a change -/

/-- The keys of all tables are identifiers, as their other names are in a derived tree. -/
def TableTree.HasKeyNames (tree : TableTree) : Prop :=
  ∀ t ∈ tree.tables, IsName t.sortKey ∧ IsName t.primaryKey

/-- The names that a row of the table is written with are identifiers. -/
structure Table.IsWritable (t : Table) : Prop where
  names : t.HasNames
  primaryKey : IsName t.primaryKey
  source : ∀ r ∈ t.relation?, IsName r.sourceTable ∧ IsName r.sourcePrimaryKey

section Names

variable {t : Table} {tree : TableTree}

theorem Table.isName_idColumn (hcolumns : ∀ c ∈ t.columns, IsName c.name)
    (hkey : IsName t.primaryKey) : IsName t.idColumn := by
  rw [idColumn, identifier?]
  cases hfound : t.columns.find? (·.kind == .identifier) with
  | none => exact hkey
  | some c => exact hcolumns c (List.mem_of_find?_eq_some hfound)

/-- A row is tied to the table that its relation leads away from, its parent. -/
theorem TableTree.isWritable_of_mem (htree : tree.IsDerived) (hkeys : tree.HasKeyNames) :
    ∀ t ∈ tree.tables, t.IsWritable := by
  have hown : ∀ t ∈ tree.tables, t.HasNames ∧ IsName t.primaryKey :=
    fun t ht => ⟨htree.hasNames t ht, (hkeys t ht).2⟩
  -- along the edges, what a relation names are the table and the key of the parent
  have hsource : ∀ t ∈ tree.tables, IsName t.name ∧ IsName t.primaryKey ∧
      ∀ r ∈ t.relation?, IsName r.sourceTable ∧ IsName r.sourcePrimaryKey := by
    have hroot : tree.root ∈ tree.tables := by
      rw [tables_eq_cons]
      exact List.mem_cons_self
    refine forall_tables_of_edges ⟨(hown _ hroot).1.name, (hown _ hroot).2, ?_⟩ ?_
    · simp [Table.relation?, htree.root_relations]
    · intro edge hedge hparent
      obtain ⟨r, hrelations, hlinks⟩ := htree.links hedge
      have hchild : edge.2 ∈ tree.tables := by
        rw [tables_eq_cons, ← map_snd_edges]
        exact List.mem_cons_of_mem _ (List.mem_map_of_mem hedge)
      refine ⟨(hown _ hchild).1.name, (hown _ hchild).2, fun other hother => ?_⟩
      rw [Table.relation?, hrelations, List.getLast?_concat] at hother
      obtain rfl := Option.some.inj hother
      rw [hlinks.sourceTable, hlinks.sourcePrimaryKey]
      exact ⟨hparent.1, hparent.2.1⟩
  exact fun t ht => ⟨(hown t ht).1, (hown t ht).2, (hsource t ht).2.2⟩

theorem Table.IsWritable.of_relation? (h : t.IsWritable) {r : Relation}
    (hr : t.relation? = some r) : r.HasNames :=
  h.names.relations r (List.mem_of_getLast? hr)

theorem isName_addStagedColumn {srid : Nat} {staged : StagedRow}
    {columns : List (String × StoredValue)} {column : Column} (hcolumn : IsName column.name)
    (h : ∀ c ∈ columns, IsName c.1) :
    ∀ c ∈ addStagedColumn srid t staged columns column, IsName c.1 := by
  rcases addStagedColumn_cases columns column with hsame | ⟨-, value, hadd⟩
  · rwa [hsame]
  · rw [hadd]
    exact List.forall_mem_append.2 ⟨h, List.forall_mem_singleton.2 hcolumn⟩

theorem hasNames_insertStatement (h : t.IsWritable) (srid : Nat) (row : RowRef)
    (staged : StagedRow) (parent : Option RowRef) (given : Option String) :
    (insertStatement srid t row staged parent given).HasNames := by
  have hgiven : ∀ c ∈ givenColumns t given, IsName c.1 := by
    cases given with
    | none => simp [givenColumns]
    | some id =>
      exact List.forall_mem_singleton.2 (Table.isName_idColumn h.names.columns h.primaryKey)
  have hparent : ∀ c ∈ parentColumns t parent, IsName c.1 := by
    unfold parentColumns
    split
    · rename_i r ref hr
      split
      · exact List.forall_mem_singleton.2 (h.of_relation? hr).targetField
      · exact List.forall_mem_singleton.2 (h.of_relation? hr).targetField
      · simp
    · simp
  refine ⟨h.names.name, ?_, h.primaryKey⟩
  -- the columns before the staged ones have names, and each staged column adds its own
  refine List.foldlRecOn 
    (motive := fun columns : List (String × StoredValue) => ∀ c ∈ columns, IsName c.1) _ _
    (List.forall_mem_append.2 ⟨hgiven, hparent⟩) ?_
  intro columns hcolumns column hcolumn
  exact isName_addStagedColumn (h.names.columns column (List.mem_of_mem_filter hcolumn)) hcolumns

theorem hasNames_linkStatements (h : t.IsWritable) (row : RowRef) (parent : Option RowRef) :
    ∀ statement ∈ linkStatements t row parent, statement.HasNames := by
  unfold linkStatements
  split
  · rename_i r ref hr
    split
    · rename_i junction _ hjunction
      exact List.forall_mem_singleton.2 ((h.of_relation? hr).junction junction hjunction)
    · obtain ⟨htable, hkey⟩ := h.source r hr
      exact List.forall_mem_singleton.2 ⟨htable, (h.of_relation? hr).sourceField, hkey⟩
    · simp
  · simp

end Names

namespace TableTree

variable {s : Staging} {srid : Nat}

mutual
/-- The statements of a row and all rows below it are called by identifiers if their tables are. -/
theorem hasNames_emit : ∀ {t : TableTree} {id row : Nat} {given : Option String}
    {statements : List Statement}, (∀ u ∈ t.tables, u.IsWritable) →
      t.emit srid s id given row = .ok statements → ∀ statement ∈ statements, statement.HasNames
  | .node table children, id, row, given, statements, htables, h => by
    rw [emit] at h
    obtain ⟨staged, -, h⟩ := bind_eq_ok.1 h
    obtain ⟨parent, -, h⟩ := bind_eq_ok.1 h
    obtain ⟨below, hbelow, h⟩ := bind_eq_ok.1 h
    obtain rfl := pure_eq_ok.1 h
    obtain ⟨htable, hchildren⟩ := List.forall_mem_cons.1 htables
    exact List.forall_mem_cons.2 ⟨hasNames_insertStatement htable srid _ staged parent given,
      List.forall_mem_append.2 ⟨hasNames_linkStatements htable _ parent,
        hasNames_emitList hchildren hbelow⟩⟩

theorem hasNames_emitList : ∀ {l : List TableTree} {id parentRow : Nat}
    {statements : List Statement}, (∀ u ∈ tablesOfList l, u.IsWritable) →
      emitList srid s id parentRow l = .ok statements →
        ∀ statement ∈ statements, statement.HasNames
  | [], _, _, statements, _, h => by
    obtain rfl : [] = statements := Except.ok.inj h
    simp
  | t :: rest, id, parentRow, statements, htables, h => by
    obtain ⟨others, hothers, hcases⟩ := cases_of_mem_emitList h
    rw [tablesOfList] at htables
    obtain ⟨hfirst, hrest⟩ := List.forall_mem_append.1 htables
    intro statement hmem
    rcases hcases statement hmem with ⟨row, written, hemit, hmem⟩ | hmem
    · exact hasNames_emit hfirst hemit statement hmem
    · exact hasNames_emitList hrest hothers statement hmem
end

/-- The statements of a change are called by identifiers. -/
theorem hasNames_changeStatements {tree : TableTree} (htree : tree.IsDerived)
    (hkeys : tree.HasKeyNames) {kind : ChangeKind} {statements : List Statement}
    (h : tree.changeStatements srid kind s = .ok statements) :
    ∀ statement ∈ statements, statement.HasNames := by
  have htables := isWritable_of_mem htree hkeys
  have hroot : tree.root.IsWritable := by
    refine htables _ ?_
    rw [tables_eq_cons]
    exact List.mem_cons_self
  have hdelete : ∀ id, (tree.deleteStatement id).HasNames := fun _ =>
    ⟨hroot.names.name, Table.isName_idColumn hroot.names.columns hroot.primaryKey⟩
  cases kind with
  | create => exact hasNames_emit htables h
  | update id =>
    obtain ⟨written, hwritten, rfl⟩ := map_eq_ok.1 h
    exact List.forall_mem_cons.2 ⟨hdelete id, hasNames_emit htables hwritten⟩
  | delete id =>
    obtain rfl := Except.ok.inj h
    exact List.forall_mem_singleton.2 (hdelete id)

end TableTree

/-! ## Texts of users -/

/-- The names of a storage that are not checked while source paths are read are identifiers, and no
collation has a quote. -/
structure Storage.HasPlainNames (s : Storage) : Prop where
  keys : s.tree.HasKeyNames
  collation : ∀ collation ∈ s.collation, '\'' ∉ collation.toList ∧ '"' ∉ collation.toList

/-- Texts of users never change how a statement is read. Two filters that differ only in their texts
both fail to compile, or their texts are read as the same items except for the contents of quoted
texts, which are the texts of the filters. In the statements of a change every identifier and every
staged text is one item. -/
theorem userTexts_stayLiterals {s : Storage} (htree : s.tree.IsDerived) (hs : s.HasPlainNames) :
    (∀ (R : String → String → Prop) (f g : Filter), f.Alike R g → f.ReadsArrays → ∀ level,
      Together (fun a b => ∃ as bs, itemsOf a.toList = some as ∧ itemsOf b.toList = some bs ∧
        List.Forall₂ (Item.Alike (Content R)) as bs) (s.filterText f level)
          (s.filterText g level)) ∧
    ∀ (kind : ChangeKind) (staging : Staging) (statements : List Statement),
      s.tree.changeStatements s.srid kind staging = .ok statements →
        ∀ statement ∈ statements, ∀ ids : CapturedIds,
          Together (fun text items => itemsOf text.toList = some items) (statement.text ids)
            (statement.items ids) := by
  have hroot := hs.keys _ s.mem_tables_root
  have hkeys : s.HasKeyNames := ⟨hroot.1,
    Table.isName_idColumn (htree.hasNames _ s.mem_tables_root).columns hroot.2,
    fun collation hcollation => (hs.collation collation hcollation).2⟩
  refine ⟨fun R f g h hreads level => together_filterText htree hkeys h hreads level, ?_⟩
  intro kind staging statements hstatements statement hmem ids
  have hnames := TableTree.hasNames_changeStatements htree hs.keys hstatements statement hmem
  exact (Statement.together_items ids hnames).map_left fun _ _ hspells => hspells.itemsOf_eq

/-- Texts with quotes in a comparison, a comparison blind to case and a relation between arrays, and
a feature that is replaced under an identifier with a quote. -/
theorem userTexts_stayLiterals_parcels :
    let mapping : FeatureMapping := ⟨"parcels", "parcel", [⟨"name", "name", .value, none⟩,
      ⟨"city", "[id=parcel_id]address/city", .value, none⟩]⟩
    let filter (name city member : String) : Filter := .all [
      .test (.compare .eq (.apply .caseInsensitive [.property "name"])
        (.apply .caseInsensitive [.literal (.text name)])),
      Filter.compare .eq "city" (.text city),
      .array .overlaps (.property "city") (.array [.text member])]
    let pairs := [("A", "B'"), ("Bonn", "' OR '1'='1"), ("x", "')) --")]
    let text (name city member : String) := "(LOWER(A.name) = " ++ name ++ " AND " ++
      "A.id IN (SELECT AA.id FROM parcel AA JOIN address AB ON (AA.id=AB.parcel_id) " ++
        "WHERE AB.city = " ++ city ++ ") AND " ++
      "A.id IN (SELECT AA.id FROM parcel AA JOIN address AB ON (AA.id=AB.parcel_id) " ++
        "WHERE AB.city IN (" ++ member ++ ") GROUP BY AA.id))"
    let first := text "'a'" "'Bonn'" "'x'"
    let second := text "'b'''" "''' OR ''1''=''1'" "''')) --'"
    let insertion := "INSERT INTO parcel (id,name) VALUES ('O''Hara','x''); --') RETURNING id"
    ∃ (s : Storage) (staging : Staging) (removal inserted : Statement),
      TableTree.ofMapping mapping = .ok s.tree ∧ s.HasPlainNames ∧
      s.filterText (filter "A" "Bonn" "x") 0 = .ok first ∧
      s.filterText (filter "B'" "' OR '1'='1" "')) --") 0 = .ok second ∧
      (∃ as bs, itemsOf first.toList = some as ∧ itemsOf second.toList = some bs ∧
        List.Forall₂ (Item.Alike (Content fun x y => (x, y) ∈ pairs)) as bs) ∧
      s.tree.changeStatements s.srid (.update "O'Hara") staging = .ok [removal, inserted] ∧
      inserted.text .empty = .ok insertion ∧
      itemsOf insertion.toList = some (wordItems ["INSERT", "INTO", "parcel"] ++
        [.group (listedItems [wordItems ["id"], wordItems ["name"]])] ++ wordItems ["VALUES"] ++
          [.group (listedItems [[.quoted .single "O'Hara".toList],
            [.quoted .single "x'); --".toList]])] ++ wordItems ["RETURNING", "id"]) := by
  intro mapping filter pairs text first second insertion
  have hrun : (do
      let tree ← TableTree.ofMapping mapping
      let s := Storage.plain tree .postgis
      let a ← s.filterText (filter "A" "Bonn" "x") 0
      let b ← s.filterText (filter "B'" "' OR '1'='1" "')) --") 0
      let staging ← (Staging.start tree).apply [.value "parcel" "name" "x'); --"]
      let statements ← tree.changeStatements s.srid (.update "O'Hara") staging
      return (decide (∀ t ∈ tree.tables, IsName t.sortKey ∧ IsName t.primaryKey), a, b,
        statements) : Except Error (Bool × String × String × List Statement)).toOption =
        some (true, first, second, [.delete "parcel" "id" "O'Hara",
          .insert "parcel" ⟨0, 0⟩ (some "O'Hara") [("id", .id "O'Hara"), ("name", .text "x'); --")]
            "id"]) := by
    decide +kernel
  obtain ⟨tree, htree, hrun⟩ := bind_eq_ok.1 (toOption_eq_some.1 hrun)
  obtain ⟨a, ha, hrun⟩ := bind_eq_ok.1 hrun
  obtain ⟨b, hb, hrun⟩ := bind_eq_ok.1 hrun
  obtain ⟨staging, hstaging, hrun⟩ := bind_eq_ok.1 hrun
  obtain ⟨statements, hstatements, hrun⟩ := bind_eq_ok.1 hrun
  obtain ⟨hkeys, hrun⟩ := Prod.mk.inj (pure_eq_ok.1 hrun)
  obtain ⟨htexta, hrun⟩ := Prod.mk.inj hrun
  obtain ⟨htextb, hstatement⟩ := Prod.mk.inj hrun
  rw [htexta] at ha
  rw [htextb] at hb
  rw [hstatement] at hstatements
  have hs : (Storage.plain tree .postgis).HasPlainNames :=
    ⟨fun t ht => of_decide_eq_true hkeys t ht, by simp [Storage.plain]⟩
  obtain ⟨hfilters, hwrites⟩ := @userTexts_stayLiterals (Storage.plain tree .postgis)
    (TableTree.isDerived_of_ofMapping htree) hs
  have halike : Filter.Alike (fun x y => (x, y) ∈ pairs) (filter "A" "Bonn" "x")
      (filter "B'" "' OR '1'='1" "')) --") := by
    refine .all (.cons (.test (.compare .eq (.apply _ (.cons (.property _) .nil))
      (.apply _ (.cons (.literal (.text ?_)) .nil)))) (.cons
        (.test (.compare .eq (.property _) (.literal (.text ?_))))
        (.cons (.array .overlaps (.property _) (.array (.cons (.text ?_) .nil))) .nil)))
    all_goals simp [pairs]
  have hreads : (filter "A" "Bonn" "x").ReadsArrays := by
    intro relation left right hmem
    have hleaf : Filter.array relation left right =
        .array .overlaps (.property "city") (.array [.text "x"]) := by
      simpa [filter, Filter.leaves, Filter.leavesOfList, Filter.compare] using hmem
    obtain ⟨-, rfl, rfl⟩ := Filter.array.inj hleaf
    exact .inl ⟨rfl, rfl⟩
  have htexts := hfilters _ _ _ halike hreads 0
  rw [ha, hb] at htexts
  have hitems := hwrites _ staging _ hstatements _ (List.mem_cons_of_mem _ List.mem_cons_self)
    .empty
  have htext : (Statement.insert "parcel" ⟨0, 0⟩ (some "O'Hara")
      [("id", .id "O'Hara"), ("name", .text "x'); --")] "id").text .empty = .ok insertion := by
    decide +kernel
  rw [htext] at hitems
  refine ⟨_, staging, _, _, htree, hs, ha, hb, ?_, hstatements, htext, ?_⟩
  · cases htexts with
    | ok h => exact h
  · cases hitems with
    | ok h => exact h

end FeatureStore
