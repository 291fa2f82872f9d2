import FeatureStore.Proofs.Sql.Scopes
import FeatureStore.Proofs.Sql.SharedJoins
import FeatureStore.Proofs.Sql.Spelling

/-!
# Names in conditions

A condition is spelled with the names of its storage. Those of a derived tree are identifiers but
for the keys of its tables, and a condition on the rows of one table has the names that the filter
gives. If the keys of the root are identifiers as well (`Storage.HasKeyNames`), so are all names in a
condition on features (`Storage.named_leaf`), and then every atom of the condition is a conjunction
(`FeatureAtom.isConjunction_sql`). `Storage.HasNames` asks the same of a condition on root rows.
-/

set_option autoImplicit false

namespace FeatureStore

/-- The names in conditions that are not checked while source paths are read: the keys of the root
table and the names in the condition on its rows are identifiers, and the name of a collation has no
double quote. -/
def Storage.HasNames (s : Storage) : Prop :=
  IsName s.root.sortKey ∧ IsName s.root.idColumn ∧
    (∀ f ∈ s.root.filter, ∀ p ∈ f.properties, IsName p) ∧
      ∀ collation ∈ s.collation, '"' ∉ collation.toList

instance : DecidablePred Storage.HasNames := fun _ => inferInstanceAs (Decidable (_ ∧ _ ∧ _ ∧ _))

/-- The names that a condition on features takes from a storage and that are not checked while source
paths are read. -/
structure Storage.HasKeyNames (s : Storage) : Prop where
  sortKey : IsName s.root.sortKey
  idColumn : IsName s.root.idColumn
  collation : ∀ collation ∈ s.collation, '"' ∉ collation.toList

theorem Storage.HasNames.keyNames {s : Storage} (hs : s.HasNames) : s.HasKeyNames :=
  ⟨hs.1, hs.2.1, hs.2.2.2⟩

/-! ## Names of expressions -/

section Scoped

variable {s : Storage} {scope : Scope}

/-- What a name stands for in a scope is called by identifiers. -/
def Storage.NamesColumn (s : Storage) (scope : Scope) (property : String) : Prop :=
  ∀ e, s.column scope property = .ok e → e.HasNames

/-- The position of a row is asked for under an identifier, and collations are called by texts
without double quotes. -/
structure Storage.NamesRows (s : Storage) (scope : Scope) : Prop where
  position : ∀ e, Storage.rowPosition scope = .ok e → e.HasNames
  collation : ∀ collation ∈ s.collation, '"' ∉ collation.toList

/-- Both ends of a range are called by identifiers. -/
def TimeRange.HasNames (r : TimeRange) : Prop := r.start.HasNames ∧ r.stop.HasNames

theorem TimeRange.hasNames_ofLiteral (literal : TemporalLiteral) :
    (ofLiteral literal).HasNames := by
  constructor
  · cases h : literal.range.start <;> simp [ofLiteral, h, startOf, Scalar.HasNames]
  · cases h : literal.range.stop <;> simp [ofLiteral, h, stopOf, Scalar.HasNames]

theorem hasNames_applyFunction (hscope : s.NamesRows scope) (function : ScalarFunction)
    {args : List Operand} (hargs : ∀ arg ∈ args, ∀ e, s.scalar scope arg = .ok e → e.HasNames)
    {e : Scalar}
    (h : s.applyFunction scope function (s.firstScalar scope args) = .ok e) : e.HasNames := by
  rcases Storage.applyFunction_eq_ok h with ⟨-, hposition⟩ |
    ⟨-, arg, rest, rfl, ⟨text, -, rfl⟩ | ⟨inner, hinner, hmade⟩⟩
  · exact hscope.position e hposition
  · trivial
  · have hnames := hargs arg List.mem_cons_self inner hinner
    rcases hmade with rfl | rfl | ⟨collation, hcollation, rfl⟩
    · exact hnames
    · exact hnames
    · exact ⟨hnames, hscope.collation collation hcollation⟩

mutual
/-- The expression of an operand is called by identifiers if all that it names is. -/
theorem hasNames_scalar (hscope : s.NamesRows scope) : ∀ {operand : Operand} {e : Scalar},
    (∀ property ∈ operand.properties, s.NamesColumn scope property) →
      s.scalar scope operand = .ok e → e.HasNames
  | .property name, e, h, he => h name List.mem_cons_self e he
  | .literal value, e, _, he => by
    obtain rfl := Except.ok.inj he
    trivial
  | .geometry value, e, _, he => by
    obtain rfl := Except.ok.inj he
    trivial
  | .temporal (.instant value), e, _, he => by
    obtain rfl := Except.ok.inj he
    trivial
  | .temporal (.date value), e, _, he => by
    obtain rfl := Except.ok.inj he
    trivial
  | .temporal (.interval start stop), e, _, he => by
    obtain rfl := Except.ok.inj he
    exact TimeRange.hasNames_ofLiteral (.interval start stop)
  | .interval start stop, e, h, he => by
    rw [Operand.properties] at h
    obtain ⟨hstart, hstop⟩ := List.forall_mem_append.1 h
    obtain ⟨first, hfirst, he⟩ := bind_eq_ok.1 he
    obtain ⟨last, hlast, he⟩ := bind_eq_ok.1 he
    obtain rfl := pure_eq_ok.1 he
    exact ⟨(hasNames_timeRange hscope hstart hfirst).1, (hasNames_timeRange hscope hstop hlast).2⟩
  | .array values, e, _, he => by
    obtain rfl := Except.ok.inj he
    trivial
  | .apply function args, e, h, he =>
    hasNames_applyFunction hscope function (hasNames_scalars hscope h) he

/-- The range of time of an operand is called by identifiers if all that it names is. -/
theorem hasNames_timeRange (hscope : s.NamesRows scope) : ∀ {operand : Operand} {r : TimeRange},
    (∀ property ∈ operand.properties, s.NamesColumn scope property) →
      s.timeRange scope operand = .ok r → r.HasNames
  | .property name, r, h, hr => by
    obtain ⟨moment, hmoment, rfl⟩ := map_eq_ok.1 hr
    exact ⟨h name List.mem_cons_self moment hmoment, h name List.mem_cons_self moment hmoment⟩
  | .literal value, r, _, hr => by simp [Storage.timeRange] at hr
  | .geometry value, r, _, hr => by simp [Storage.timeRange] at hr
  | .temporal literal, r, _, hr => by
    obtain rfl := Except.ok.inj hr
    exact TimeRange.hasNames_ofLiteral literal
  | .interval start stop, r, h, hr => by
    rw [Operand.properties] at h
    obtain ⟨hstart, hstop⟩ := List.forall_mem_append.1 h
    obtain ⟨first, hfirst, hr⟩ := bind_eq_ok.1 hr
    obtain ⟨last, hlast, hr⟩ := bind_eq_ok.1 hr
    obtain rfl := pure_eq_ok.1 hr
    exact ⟨(hasNames_timeRange hscope hstart hfirst).1, (hasNames_timeRange hscope hstop hlast).2⟩
  | .array values, r, _, hr => by simp [Storage.timeRange] at hr
  | .apply function args, r, h, hr => by
    obtain ⟨moment, hmoment, rfl⟩ := map_eq_ok.1 hr
    have hnames := hasNames_applyFunction hscope function (hasNames_scalars hscope h) hmoment
    exact ⟨hnames, hnames⟩

theorem hasNames_scalars (hscope : s.NamesRows scope) : ∀ {args : List Operand},
    (∀ property ∈ Operand.propertiesOfList args, s.NamesColumn scope property) →
      ∀ arg ∈ args, ∀ e, s.scalar scope arg = .ok e → e.HasNames
  | [], _ => by simp
  | arg :: rest, h => by
    rw [Operand.propertiesOfList] at h
    obtain ⟨harg, hrest⟩ := List.forall_mem_append.1 h
    exact List.forall_mem_cons.2
      ⟨fun e he => hasNames_scalar hscope harg he, hasNames_scalars hscope hrest⟩
end

/-- The test of a predicate is called by identifiers if all that it names is. -/
theorem hasNames_test (hscope : s.NamesRows scope) {negated : Bool} {p : Predicate} {t : Test}
    (h : ∀ property ∈ p.properties, s.NamesColumn scope property)
    (ht : s.test scope negated p = .ok t) : t.HasNames := by
  rcases Storage.test_cases ht with ⟨-, hscalars⟩ | ⟨relation, left, right, l, r, rfl, hl, hr, rfl⟩
  · intro e he
    obtain ⟨operand, hoperand, hscalar⟩ := exists_left_of_forall₂ hscalars he
    exact hasNames_scalars hscope h operand hoperand e hscalar
  · rw [Predicate.properties, Predicate.operands, Operand.propertiesOfList,
      Operand.propertiesOfList, Operand.propertiesOfList, List.append_nil] at h
    obtain ⟨hleft, hright⟩ := List.forall_mem_append.1 h
    exact TimeTest.forall_mem_scalars_relate Scalar.HasNames (hasNames_timeRange hscope hleft hl)
      (hasNames_timeRange hscope hright hr) _ _

end Scoped

/-! ## Names of joins -/

/-- The clause of a join has no condition, and its names are identifiers. -/
structure Join.HasNames (j : Join) : Prop where
  isPlain : j.IsPlain
  sourceName : j.source.name.IsNamed
  sourceField : IsName j.source.field
  targetTable : IsName j.target.table
  targetName : j.target.name.IsNamed
  targetField : IsName j.target.field

namespace Storage

variable {s : Storage}

/-- The joins on keys alone along relations are called by identifiers. -/
theorem hasNames_joins : ∀ {relations : List Relation} {options : JoinOptions} {source : Alias}
    {rest : List Alias} {joins : List Join}, options.withFilters = false →
      rest.length = joinedCount relations → (∀ r ∈ relations, r.HasNames) → source.IsNamed →
      (∀ name ∈ rest, name.IsNamed) → s.joins options relations (source :: rest) = .ok joins →
        ∀ j ∈ joins, j.HasNames
  | [], _, _, rest, joins, _, _, _, _, _, h => by
    obtain rfl : [] = joins := Except.ok.inj h
    simp
  | r :: relations, options, source, rest, joins, hoptions, hlength, hnames, hsource, hrest, h => by
    obtain ⟨target, more, filter, others, hmore, hfilter, hothers, hcases⟩ :=
      joins_cons_cases hlength h
    obtain rfl := Except.ok.inj ((joinFilter_of_withFilters hoptions r target).symm.trans hfilter)
    obtain ⟨⟨hsourceField, htable, htargetField, hjunction⟩, hrelations⟩ :=
      List.forall_mem_cons.1 hnames
    have hnumbered : (options.withFilters && r.usesPosition) = false := by rw [hoptions]; rfl
    have hplain : { options with restriction := none }.withFilters = false := hoptions
    -- a junction takes two joins, the first of which has no filter
    rcases hcases with ⟨-, rfl, rfl⟩ | ⟨junction, middle, hj, rfl, rfl⟩
    · obtain ⟨htarget, hmoreNames⟩ := List.forall_mem_cons.1 hrest
      refine List.forall_mem_cons.2 ⟨?_, ?_⟩
      · exact ⟨⟨rfl, hnumbered⟩, hsource, hsourceField, htable, htarget, htargetField⟩
      · exact hasNames_joins hplain hmore hrelations htarget hmoreNames hothers
    · obtain ⟨hmiddle, hrest⟩ := List.forall_mem_cons.1 hrest
      obtain ⟨htarget, hmoreNames⟩ := List.forall_mem_cons.1 hrest
      obtain ⟨hjTable, hjSource, hjTarget⟩ := hjunction junction hj
      refine List.forall_mem_cons.2 ⟨?_, List.forall_mem_cons.2 ⟨?_, ?_⟩⟩
      · exact ⟨⟨rfl, rfl⟩, hsource, hsourceField, hjTable, hmiddle, hjSource⟩
      · exact ⟨⟨rfl, hnumbered⟩, hmiddle, hjTarget, htable, htarget, htargetField⟩
      · exact hasNames_joins hplain hmore hrelations htarget hmoreNames hothers

end Storage

theorem isNamed_of_mem_aliasChain {depth : Nat} {relations : List Relation} {name : Alias}
    (h : name ∈ aliasChain depth relations) : name.IsNamed := by
  obtain ⟨index, -, rfl⟩ := List.mem_map.1 h
  exact Alias.isNamed_slot depth index

namespace Membership.Joins

variable {s : Storage} {m : Membership} {table : Table} {name : Alias}

/-- The alias of the table that is joined is an identifier. -/
theorem isNamed (h : m.Joins s table name) : name.IsNamed := by
  obtain ⟨index, rfl⟩ := h.forall_leads.1
  exact Alias.isNamed_slot 1 index

theorem hasNames (h : m.Joins s table name) (hnames : ∀ r ∈ table.relations, r.HasNames) :
    ∀ j ∈ m.joins, j.HasNames := by
  obtain ⟨rest, hrest, hlength⟩ := aliasChain_eq_cons 1 table.relations
  have hgenerated := h.generated
  rw [hrest] at hgenerated
  have hall : ∀ name ∈ Alias.slot 1 0 :: rest, name.IsNamed := by
    rw [← hrest]
    exact fun name => isNamed_of_mem_aliasChain
  obtain ⟨hroot, hothers⟩ := List.forall_mem_cons.1 hall
  exact Storage.hasNames_joins rfl hlength hnames hroot hothers hgenerated

end Membership.Joins

/-! ## Names of atoms -/

/-- What the select of a membership keeps is called by identifiers. -/
def Selection.HasNames : Selection → Prop
  | .rows test => test.HasNames
  | .elements column _ _ => column.HasNames

/-- All names in a membership are identifiers. -/
structure Membership.HasNames (m : Membership) : Prop where
  table : IsName m.table
  sortKey : IsName m.sortKey
  joins : ∀ j ∈ m.joins, j.HasNames
  selection : m.selection.HasNames

/-- All names in an atom are identifiers. -/
def FeatureAtom.HasNames : FeatureAtom → Prop
  | .test t => t.HasNames
  | .member m => m.HasNames

namespace Storage

variable {s : Storage}

/-- A property is read from a column that is called by an identifier. -/
theorem isName_of_resolve (htree : s.tree.IsDerived) (hs : s.HasKeyNames) {property column : String}
    {table : Table} (h : s.resolve property = .ok (table, column)) : IsName column := by
  rw [resolve] at h
  split at h
  · rename_i hfound
    obtain ⟨-, rfl⟩ := Prod.mk.inj (Except.ok.inj h)
    obtain ⟨t, ht, hfound⟩ := List.exists_of_findSome?_eq_some hfound
    obtain ⟨c, hc, heq⟩ := Option.map_eq_some_iff.1 hfound
    obtain ⟨rfl, rfl⟩ := Prod.mk.inj heq
    exact (htree.hasNames t ht).columns c (List.mem_of_find?_eq_some hc)
  · split at h
    · obtain ⟨-, rfl⟩ := Prod.mk.inj (Except.ok.inj h)
      exact hs.idColumn
    · split at h
      · rename_i c hc
        obtain ⟨-, rfl⟩ := Prod.mk.inj (Except.ok.inj h)
        exact (htree.hasNames _ s.mem_tables_root).columns c (List.mem_of_find?_eq_some hc)
      · simp at h

/-- The names in a select that reads tables under identifiers. -/
theorem namesColumn_feature (htree : s.tree.IsDerived) (hs : s.HasKeyNames)
    {tables : List (String × Alias)} (htables : ∀ entry ∈ tables, entry.2.IsNamed) (property : String) :
    s.NamesColumn (.feature tables) property := by
  intro e he
  obtain ⟨⟨table, column⟩, hresolve, he⟩ := bind_eq_ok.1 he
  dsimp only at he
  split at he
  · rename_i name hname
    obtain rfl := pure_eq_ok.1 he
    obtain ⟨front, behind, heq, -⟩ := List.lookup_eq_some_iff.1 hname
    refine ⟨htables (table.path, name) ?_, isName_of_resolve htree hs hresolve⟩
    rw [heq]
    exact List.mem_append_right _ List.mem_cons_self
  · exact absurd he throw_ne_ok

theorem namesRows_feature (hs : s.HasKeyNames) (tables : List (String × Alias)) :
    s.NamesRows (.feature tables) :=
  ⟨fun _ h => by simp [rowPosition] at h, hs.collation⟩

/-- The names on the rows of one table are those that are given. -/
theorem namesColumn_row {table : Alias} (htable : table.IsNamed) {property : String}
    (h : IsName property) : s.NamesColumn (.row table) property := by
  intro e he
  obtain rfl := Except.ok.inj he
  exact ⟨htable, h⟩

theorem namesRows_row (hs : s.HasKeyNames) {table : Alias} (htable : table.IsNamed) :
    s.NamesRows (.row table) := by
  refine ⟨fun e he => ?_, hs.collation⟩
  obtain rfl := Except.ok.inj he
  exact htable

/-- A condition that is a truth value, or one atom whose names are identifiers. -/
def Named (c : FeatureCondition) : Prop :=
  (∃ value, c = .constant value) ∨ ∃ atom : FeatureAtom, c = .atom atom ∧ atom.HasNames

/-- The membership in a table is called by identifiers if what its select keeps is. -/
theorem named_membership (htree : s.tree.IsDerived) (hs : s.HasKeyNames) {table : Table}
    (htable : table ∈ s.tree.tables) {select : Scope → Except Error Selection}
    (hselect : ∀ name : Alias, name.IsNamed → ∀ selection,
      select (Scope.reading (s.boundInside table name)) = .ok selection → selection.HasNames)
    {c : FeatureCondition} (h : s.membership table select = .ok c) : Named c := by
  obtain ⟨m, name, -, hjoins, hmembership⟩ := exists_membership htree htable
  rw [hmembership] at h
  obtain ⟨selection, hselection, rfl⟩ := map_eq_ok.1 h
  have hroot := htree.hasNames _ s.mem_tables_root
  refine .inr ⟨_, rfl, ?_, ?_, ?_, ?_⟩
  · exact (hjoins selection).table_eq ▸ hroot.name
  · exact (hjoins selection).sortKey_eq ▸ hs.sortKey
  · exact (hjoins selection).hasNames (htree.hasNames table htable).relations
  · exact hselect name (hjoins selection).isNamed selection hselection

/-- The aliases inside a membership are identifiers. -/
theorem isNamed_of_mem_boundInside {table : Table} {name : Alias} (hname : name.IsNamed) :
    ∀ entry ∈ (s.boundInside table name).map fun b => (b.1.path, b.2), entry.2.IsNamed :=
  List.forall_mem_cons.2 ⟨Alias.isNamed_slot 1 0, List.forall_mem_singleton.2 hname⟩

/-- The alias outside a membership is an identifier. -/
theorem isNamed_of_mem_boundOutside :
    ∀ entry ∈ [(s.root.path, outerRoot)], entry.2.IsNamed :=
  List.forall_mem_singleton.2 (Alias.isNamed_slot 0 0)

theorem named_featurePredicate (htree : s.tree.IsDerived) (hs : s.HasKeyNames) (negated : Bool)
    (p : Predicate) {c : FeatureCondition} (h : s.featurePredicate negated p = .ok c) :
    Named c := by
  obtain ⟨found, hjoined, h⟩ := bind_eq_ok.1 h
  cases found with
  | none =>
    obtain ⟨t, ht, h⟩ := bind_eq_ok.1 h
    obtain rfl := pure_eq_ok.1 h
    exact .inr ⟨_, rfl, hasNames_test (namesRows_feature hs _) (fun property _ =>
      namesColumn_feature htree hs isNamed_of_mem_boundOutside property) ht⟩
  | some table =>
    refine named_membership htree hs (mem_tables_of_joinedTable htree hjoined) ?_ h
    intro name hname selection hselection
    obtain ⟨t, ht, rfl⟩ := map_eq_ok.1 hselection
    refine hasNames_test (namesRows_feature hs _) (fun property _ => ?_) ht
    exact namesColumn_feature htree hs (isNamed_of_mem_boundInside hname) property

theorem named_featureArray (htree : s.tree.IsDerived) (hs : s.HasKeyNames)
    (relation : ArrayRelation) (left right : Operand) {c : FeatureCondition}
    (h : s.featureArray relation left right = .ok c) : Named c := by
  rcases featureArray_cases htree relation left right with ⟨value, heq, -⟩ | ⟨e, heq, -⟩ |
    ⟨operand, values, complete, table, column, -, hresolve, heq⟩
  · exact .inl ⟨value, Except.ok.inj (h.symm.trans heq)⟩
  · rw [heq] at h
    simp at h
  · rw [heq] at h
    refine named_membership htree hs (mem_tables_of_resolve hresolve) ?_ h
    intro name hname selection hselection
    obtain ⟨e, he, rfl⟩ := map_eq_ok.1 hselection
    show e.HasNames
    refine hasNames_scalar (namesRows_feature hs _) (fun property _ => ?_) he
    exact namesColumn_feature htree hs (isNamed_of_mem_boundInside hname) property

/-- The condition of a leaf is a truth value or one atom, called by identifiers. -/
theorem named_leaf (htree : s.tree.IsDerived) (hs : s.HasKeyNames) {leaf : Filter}
    (hleaf : leaf.IsLeaf) {c : FeatureCondition} (h : s.featureCondition leaf = .ok c) :
    Named c := by
  cases hleaf with
  | outsideList value list =>
    exact named_featurePredicate htree hs true (.oneOf value list) h
  | test p => exact named_featurePredicate htree hs false p h
  | array relation left right => exact named_featureArray htree hs relation left right h
  | constant value => exact .inl ⟨value, (Except.ok.inj h).symm⟩

end Storage

/-! ## Texts of atoms -/

section Texts

variable {s : Storage} {level : Nat}

theorem isLead_join (kind : JoinKind) : IsLead (kind.keyword ++ "JOIN ").toList := by
  have hjoin := isLead_word (a := "JOIN".toList) (by decide)
  cases kind with
  | inner => exact hjoin
  | left => exact (isLead_word (a := "LEFT".toList) (by decide)).append_lead hjoin

/-- The clause of a join is closed. -/
theorem Join.isClosed_sql {j : Join} (h : j.HasNames) : IsClosed ((j.sql s).chars level) := by
  have htext : (j.sql s).chars level = (j.kind.keyword ++ "JOIN ").toList ++
      (j.target.table.toList ++ [' '] ++ (j.target.name.text level).toList ++
        (' ' :: ("ON".toList ++ [' '])) ++
          ('(' :: ((Sql.column j.source.name j.source.field).chars level ++ ['='] ++
            (Sql.column j.target.name j.target.field).chars level) ++ [')'])) := by
    obtain ⟨hfilter, hnumbered⟩ := h.isPlain
    rw [sql, targetSql, hfilter, hnumbered]
    simp [Sql.ofText, Sql.chars_cons, Sql.chars_append, Sql.chars_nil, Piece.render]
  rw [htext]
  have hsource : IsTerm ((Sql.column j.source.name j.source.field).chars level) :=
    isTerm_column h.sourceName h.sourceField
  have htarget : IsTerm ((Sql.column j.target.name j.target.field).chars level) :=
    isTerm_column h.targetName h.targetField
  have hequals : Divides ['='] [.sign '='] := divides_signs (by decide) (by decide)
  have hcondition := hsource.isClosed.divided hequals htarget.isClosed
  have htable := (isClosed_name h.targetTable).divided divides_blank
    (isClosed_name (h.targetName level))
  exact (isLead_join j.kind).append
    (htable.divided (divides_word (by decide)) (isClosed_group hcondition))

/-- A selection is closed. -/
theorem Selection.isClosed_sql {sortKey : String} (hkey : IsName sortKey) {selection : Selection}
    (h : selection.HasNames) : IsClosed ((selection.sql s sortKey).chars level) := by
  cases selection with
  | rows test => exact (test.isConjunction_sql s.dialect s.srid h).isClosed
  | elements column values complete =>
    have hcolumn : IsTerm ((column.sql s.dialect s.srid).chars level) :=
      column.isTerm_sql s.dialect s.srid h
    have hkeyTerm : IsTerm ((Sql.column innerRoot sortKey).chars level) :=
      isTerm_column (Alias.isNamed_slot 1 0) hkey
    have hvalues : IsTerm ((Value.listSql values).chars level) := isTerm_values values
    have hgrouped := ((hcolumn.isClosed.divided divides_in hvalues.isClosed).divided
      ((divides_word (a := "GROUP".toList) (by decide)).append
        (spellsEnded_word (a := "BY".toList) (by decide))) hkeyTerm.isClosed)
    rw [sql]
    -- the elements are counted only where all of them are asked for
    cases complete with
    | false =>
      simpa [Sql.chars_append, Sql.chars_text, Sql.chars_nil] using hgrouped
    | true =>
      have hcount := isTerm_call (isTerm_word (a := "count".toList) (by decide) (by decide))
        ((isLead_word (a := "distinct".toList) (by decide)).append hcolumn.isClosed)
      have hequals : Divides [' ', '=', ' '] [.sign '='] := divides_signs (by decide) (by decide)
      have hequal := hcount.isClosed.divided hequals (isTerm_natText values.length).isClosed
      have hall := hgrouped.divided (divides_word (a := "HAVING".toList) (by decide)) hequal
      simpa [Sql.chars_append, Sql.chars_text, Sql.chars_nil, Sql.chars_around] using hall

theorem Membership.isClosed_selectSql {m : Membership} (h : m.HasNames) :
    IsClosed ((m.selectSql s).chars level) := by
  -- the joins, with a blank behind them if there are any
  have hjoins : IsLead (Sql.chars level
      (if m.joins.isEmpty then [] else Join.listSql s m.joins ++ Sql.ofText " ")) := by
    cases m.joins.isEmpty with
    | true => exact ⟨[], spellsEnded_nil⟩
    | false =>
      have hclosed : IsClosed ((Join.listSql s m.joins).chars level) := by
        have hblank : Divides " ".toList [] := divides_blank
        refine isClosed_separated hblank fun part hpart => ?_
        obtain ⟨j, hj, rfl⟩ := List.mem_map.1 hpart
        exact j.isClosed_sql (h.joins j hj)
      rw [if_neg Bool.false_ne_true, Sql.chars_append, Sql.chars_ofText]
      exact hclosed.lead divides_blank
  have hkey : IsTerm ((Sql.column innerRoot m.sortKey).chars level) :=
    isTerm_column (Alias.isNamed_slot 1 0) h.sortKey
  have hfrom := (hkey.isClosed.divided (divides_word (a := "FROM".toList) (by decide))
    (isClosed_name h.table)).divided divides_blank
    (isClosed_name (Alias.isNamed_slot 1 0 level))
  have hselection : IsClosed ((m.selection.sql s m.sortKey).chars level) :=
    m.selection.isClosed_sql h.sortKey h.selection
  have hwhere := (isLead_word (a := "WHERE".toList) (by decide)).append hselection
  have hall := (isLead_word (a := "SELECT".toList) (by decide)).append
    ((hfrom.lead divides_blank).append (hjoins.append hwhere))
  rw [selectSql]
  simpa [Sql.chars_append, Sql.chars_text, Sql.chars_cons, Sql.chars_nil, Piece.render, innerRoot]
    using hall

variable (s level) in
/-- A membership is an atom, and the one with the opposite operator is its negation. -/
theorem Membership.exists_readsAll_in {m : Membership} (h : m.HasNames) :
    ∃ items others atom,
      Spells ((Membership.sql s { m with isNegated := false }).chars level) items ∧
      Spells ((Membership.sql s { m with isNegated := true }).chars level) others ∧
      ReadsAll items [.atom atom] ∧ ReadsAll others [.negation (.atom atom)] := by
  have hkey : IsTerm ((Sql.column outerRoot m.sortKey).chars level) :=
    isTerm_column (Alias.isNamed_slot 0 0) h.sortKey
  have hselect : IsClosed ((m.selectSql s).chars level) := m.isClosed_selectSql h
  have htext : ∀ negated, (Membership.sql s { m with isNegated := negated }).chars level =
      (Sql.column outerRoot m.sortKey).chars level ++
        (if negated then " NOT IN " else " IN ").toList ++
          ('(' :: (m.selectSql s).chars level ++ [')']) := by
    intro negated
    rw [sql, Sql.chars_append, Sql.chars_text, Sql.chars_parenthesized, ← List.append_assoc]
    rfl
  obtain ⟨items, others, atom, hitems, hothers, hin, hnotIn⟩ := hkey.exists_readsAll_in hselect
  refine ⟨items, others, atom, ?_, ?_, hin, hnotIn⟩
  · rw [htext]
    exact hitems
  · rw [htext]
    exact hothers

/-- An atom called by identifiers is a conjunction. -/
theorem FeatureAtom.isConjunction_sql {atom : FeatureAtom} (h : atom.HasNames) :
    IsConjunction ((atom.sql s).chars level) := by
  cases atom with
  | test t => exact t.isConjunction_sql s.dialect s.srid h
  | member m =>
    obtain ⟨items, others, inner, hitems, hothers, hin, hnotIn⟩ :=
      Membership.exists_readsAll_in s level h
    cases hnegated : m.isNegated with
    | false =>
      have hm : m = { m with isNegated := false } := by rw [← hnegated]
      rw [hm]
      exact ⟨_, _, hitems, hin⟩
    | true =>
      have hm : m = { m with isNegated := true } := by rw [← hnegated]
      rw [hm]
      exact ⟨_, _, hothers, hnotIn⟩

end Texts

end FeatureStore
