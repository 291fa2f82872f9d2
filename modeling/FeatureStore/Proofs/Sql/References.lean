import FeatureStore.Proofs.Identifier
import FeatureStore.Proofs.Sql.Aliases
import FeatureStore.Proofs.Sql.Columns

/-!
# References of conditions

A condition on features names properties, and its text names columns of tables under aliases. Leaf
by leaf, the columns in the text are those of the properties that the leaf reads, in order: the
column and the table are those that resolution gives, and the alias is the one under which the
innermost select reads that table (`Storage.Refers`, `Storage.Renders`). Around a membership this is
the root table; inside it is the root table again, or the table that the joins lead to. Nothing else
stands in the text behind an alias but the keys that memberships and their joins compare
(`FeatureAtom.columns`). The predicate of a leaf never asks for a table that is not read; only the
operand of an array relation can, if it is an interval that is called like a property
(`renders_of_filterText`).
-/

set_option autoImplicit false

namespace FeatureStore

/-! ## Tables that a select reads -/

/-- The scope of a select that reads some tables under their aliases. -/
def Scope.reading (bound : List (Table × Alias)) : Scope :=
  .feature (bound.map fun (table, name) => (table.path, name))

/-- A property refers to a column of a table that a select reads under an alias. -/
def Storage.Refers (s : Storage) (bound : List (Table × Alias)) (property : String)
    (cited : Alias × String) : Prop :=
  ∃ table, s.resolve property = .ok (table, cited.2) ∧ (table, cited.1) ∈ bound

/-- A fault other than that a table is not read where its column is asked for. -/
def Error.IsReachable (e : Error) : Prop := ∀ property, e ≠ .mapping property .unreachableProperty

namespace Storage

variable {s : Storage}

theorem mem_tables_root (s : Storage) : s.root ∈ s.tree.tables := by
  rw [root, TableTree.tables_eq_cons]
  exact List.mem_cons_self

theorem mem_tables_of_resolve {property column : String} {table : Table}
    (h : s.resolve property = .ok (table, column)) : table ∈ s.tree.tables := by
  rw [resolve] at h
  split at h
  · rename_i hfound
    obtain ⟨rfl, -⟩ := Prod.mk.inj (Except.ok.inj h)
    exact TableTree.mem_tables_of_property? hfound
  · split at h
    · obtain ⟨rfl, -⟩ := Prod.mk.inj (Except.ok.inj h)
      exact mem_tables_root s
    · split at h
      · obtain ⟨rfl, -⟩ := Prod.mk.inj (Except.ok.inj h)
        exact mem_tables_root s
      · simp at h

theorem isReachable_of_fault : HoldsOfFaults Error.IsReachable := by
  rintro path fault hfault property heq
  obtain ⟨-, rfl⟩ := Error.mapping.inj heq
  exact hfault rfl

section Reading

variable {bound : List (Table × Alias)}

/-- Tables of a derived tree are told apart by their paths, so the column that a property is read
from is in the table that the property resolves to. -/
theorem readsBy_refers (htree : s.tree.IsDerived) (hbound : ∀ b ∈ bound, b.1 ∈ s.tree.tables) :
    s.ReadsBy (bound.map fun (table, name) => (table.path, name)) (s.Refers bound) := by
  intro property e h
  obtain ⟨⟨table, column⟩, hresolve, h⟩ := bind_eq_ok.1 h
  dsimp only at h
  split at h
  · rename_i name hlookup
    obtain rfl := pure_eq_ok.1 h
    -- the alias that is found stands at the path of some table that is read
    obtain ⟨front, behind, heq, -⟩ := List.lookup_eq_some_iff.1 hlookup
    have hmem : (table.path, name) ∈ bound.map fun (table, name) => (table.path, name) := by
      rw [heq]
      exact List.mem_append_right _ List.mem_cons_self
    obtain ⟨⟨other, _⟩, hother, hpair⟩ := List.mem_map.1 hmem
    obtain ⟨hpath, rfl⟩ := Prod.mk.inj hpair
    -- and no other table has that path
    have heq := List.inj_on_of_nodup_map htree.nodup_paths (hbound _ hother)
      (mem_tables_of_resolve hresolve) hpath
    exact .cons ⟨table, hresolve, heq ▸ hother⟩ .nil
  · exact absurd h throw_ne_ok

/-- The column of a property is found if the table that the property resolves to is read. -/
theorem failsOnly_column {P : Error → Prop} {property column : String} {table : Table}
    {name : Alias} (hresolve : s.resolve property = .ok (table, column))
    (hmem : (table, name) ∈ bound) : FailsOnly P (s.column (Scope.reading bound) property) := by
  intro e he
  rcases bind_eq_error.1 he with herror | ⟨found, hfound, he⟩
  · rw [hresolve] at herror
    contradiction
  · obtain rfl := Except.ok.inj (hresolve.symm.trans hfound)
    dsimp only at he
    split at he
    · contradiction
    · -- the path of a table that is read is found
      rename_i hlookup
      have hne := List.lookup_eq_none_iff.1 hlookup (table.path, name) (List.mem_map_of_mem hmem)
      simp at hne

end Reading

/-! ## The one table of a predicate -/

/-- What is known once the tables of some properties are combined: each property is one of the root
or of the table found, and that table belongs to one of them unless it was found before. -/
theorem joinedTableFrom_eq_ok (htree : s.tree.IsDerived) : ∀ {properties : List String}
    {found result : Option Table}, (∀ t ∈ found, t ∈ s.tree.tables) →
      s.joinedTableFrom found properties = .ok result →
      (∀ t ∈ found, result = some t) ∧
      (∀ property ∈ properties, ∃ table column, s.resolve property = .ok (table, column) ∧
        (table = s.root ∨ result = some table)) ∧
      (∀ t ∈ result, found = some t ∨ ∃ property ∈ properties, ∃ column,
        s.resolve property = .ok (t, column) ∧ t.isRoot = false)
  | [], found, result, _, h => by
    obtain rfl := Except.ok.inj h
    exact ⟨fun t ht => ht, by simp, fun t ht => Or.inl ht⟩
  | property :: rest, found, result, hfound, h => by
    obtain ⟨⟨table, column⟩, hresolve, h⟩ := bind_eq_ok.1 h
    have htable := mem_tables_of_resolve hresolve
    cases hroot : table.isRoot with
    | true =>
      simp only [hroot, if_true] at h
      obtain ⟨hkept, hrest, hown⟩ := joinedTableFrom_eq_ok htree hfound h
      refine ⟨hkept, List.forall_mem_cons.2 ⟨⟨table, column, hresolve, Or.inl ?_⟩, hrest⟩, ?_⟩
      · exact htree.eq_root_of_isRoot htable hroot
      · intro t ht
        rcases hown t ht with hbefore | ⟨other, hother, hothers⟩
        · exact Or.inl hbefore
        · exact Or.inr ⟨other, List.mem_cons_of_mem _ hother, hothers⟩
    | false =>
      simp only [hroot] at h
      -- a table that was found before has the same path, so it is the same table
      have hnext : s.joinedTableFrom (some table) rest = .ok result ∧
          ∀ t ∈ found, t = table := by
        cases found with
        | none => exact ⟨h, by simp⟩
        | some previous =>
          simp only [Bool.false_eq_true, if_false] at h
          split at h
          · rename_i hpath
            refine ⟨h, fun t ht => ?_⟩
            obtain rfl := Option.some.inj ht
            exact List.inj_on_of_nodup_map htree.nodup_paths (hfound previous rfl) htable hpath
          · exact absurd h throw_ne_ok
      obtain ⟨hkept, hrest, hown⟩ := joinedTableFrom_eq_ok htree (by simpa using htable) hnext.1
      refine ⟨fun t ht => ?_, List.forall_mem_cons.2 ⟨⟨table, column, hresolve, Or.inr ?_⟩, hrest⟩,
        fun t ht => Or.inr ?_⟩
      · rw [hnext.2 t ht]
        exact hkept table rfl
      · exact hkept table rfl
      · rcases hown t ht with hbefore | ⟨other, hother, hothers⟩
        · obtain rfl := Option.some.inj hbefore
          exact ⟨property, List.mem_cons_self, column, hresolve, hroot⟩
        · exact ⟨other, List.mem_cons_of_mem _ hother, hothers⟩

/-- The table of some properties is one of the tree. -/
theorem mem_tables_of_joinedTable (htree : s.tree.IsDerived) {properties : List String}
    {table : Table} (h : s.joinedTable properties = .ok (some table)) : table ∈ s.tree.tables := by
  obtain ⟨-, -, hown⟩ := joinedTableFrom_eq_ok htree (by simp) h
  obtain ⟨property, -, column, hresolve, -⟩ := (hown table rfl).resolve_left (by simp)
  exact mem_tables_of_resolve hresolve

/-! ## Memberships -/

/-- Joins on keys alone never fail. -/
theorem exists_joins_keysOnly (s : Storage) (relations : List Relation)
    (restriction : Option Sql) (names : List Alias) :
    ∃ joins, s.joins ⟨false, restriction⟩ relations names = .ok joins := by
  -- without filters no join can fail, and where names run out the joins end
  induction relations generalizing restriction names with
  | nil => exact ⟨[], by simp [joins]⟩
  | cons r relations ih =>
    have hfilter : ∀ target, s.joinFilter ⟨false, restriction⟩ r target = .ok none :=
      joinFilter_of_withFilters rfl r
    rcases names with _ | ⟨source, rest⟩
    · exact ⟨[], by simp [joins]⟩
    cases hj : r.junction with
    | none =>
      rcases rest with _ | ⟨target, more⟩
      · exact ⟨[], by simp [joins, hj]⟩
      · obtain ⟨others, hothers⟩ := ih none (target :: more)
        simp only [joins, hj]
        exact ⟨_, bind_eq_ok.2 ⟨none, hfilter target, bind_eq_ok.2 ⟨others, hothers, rfl⟩⟩⟩
    | some junction =>
      rcases rest with _ | ⟨middle, _ | ⟨target, more⟩⟩
      · exact ⟨[], by simp [joins, hj]⟩
      · exact ⟨[], by simp [joins, hj]⟩
      · obtain ⟨others, hothers⟩ := ih none (target :: more)
        simp only [joins, hj]
        exact ⟨_, bind_eq_ok.2 ⟨none, hfilter target, bind_eq_ok.2 ⟨others, hothers, rfl⟩⟩⟩

end Storage

/-- The aliases of the select of a membership. -/
def Membership.aliases (m : Membership) : List Alias :=
  innerRoot :: m.joins.map fun j => j.target.name

/-- The select of a membership reads the root table and joins another one to it, whose alias is
`name`. -/
structure Membership.Joins (s : Storage) (m : Membership) (table : Table) (name : Alias) :
    Prop where
  table_eq : m.table = s.root.name
  sortKey_eq : m.sortKey = s.root.sortKey
  generated : s.joins .keysOnly table.relations (aliasChain 1 table.relations) = .ok m.joins
  leads : Join.Leads (innerRoot, s.root.name) m.joins (name, table.name)
  /-- The aliases are those of a select one level further inside. -/
  aliases_eq : m.aliases = (List.range (m.joins.length + 1)).map (Alias.slot 1)
  /-- No alias is empty, and no two of them are the same. -/
  nodup : ∀ level, ("" :: m.aliases.map (Alias.text level)).Nodup

section Slots

variable {s : Storage} {m : Membership} {table : Table} {name : Alias}

/-- The aliases of the select of a membership are those of its tables one level further inside. -/
theorem Membership.Joins.forall_aliases (h : m.Joins s table name) :
    ∀ a ∈ m.aliases, ∃ index, a = .slot 1 index := by
  rw [h.aliases_eq]
  intro a ha
  obtain ⟨index, -, rfl⟩ := List.mem_map.1 ha
  exact ⟨index, rfl⟩

theorem Membership.Joins.forall_targets (h : m.Joins s table name) :
    ∀ j ∈ m.joins, ∃ index, j.target.name = .slot 1 index :=
  fun _ hj => h.forall_aliases _ (List.mem_cons_of_mem _ (List.mem_map_of_mem hj))

/-- So are the alias of the table that is joined and those that the joins start under. -/
theorem Membership.Joins.forall_leads (h : m.Joins s table name) :
    (∃ index, name = .slot 1 index) ∧ ∀ j ∈ m.joins, ∃ index, j.source.name = .slot 1 index :=
  h.leads.forall_names (P := fun a => ∃ index, a = .slot 1 index) ⟨0, rfl⟩ h.forall_targets

/-- The operator of a membership is not part of its select. -/
theorem Membership.Joins.withOperator (h : m.Joins s table name) (isNegated : Bool) :
    Membership.Joins s { m with isNegated } table name :=
  ⟨h.table_eq, h.sortKey_eq, h.generated, h.leads, h.aliases_eq, h.nodup⟩

/-- A membership joins on keys alone. -/
theorem Membership.Joins.isPlain (h : m.Joins s table name) : ∀ j ∈ m.joins, j.IsPlain := by
  obtain ⟨rest, hrest, hlength⟩ := aliasChain_eq_cons 1 table.relations
  have hgenerated := h.generated
  rw [hrest] at hgenerated
  exact Storage.isPlain_joins rfl hlength hgenerated

end Slots

/-- The tables that the select of a membership reads, with their aliases. -/
def Storage.boundInside (s : Storage) (table : Table) (name : Alias) : List (Table × Alias) :=
  [(s.root, innerRoot), (table, name)]

/-- The tables that the select around a condition reads, with their aliases. -/
def Storage.boundOutside (s : Storage) : List (Table × Alias) := [(s.root, outerRoot)]

/-- What a membership in a table is, once it is known what its select keeps. -/
theorem exists_membership {s : Storage} (htree : s.tree.IsDerived) {table : Table}
    (htable : table ∈ s.tree.tables) :
    ∃ (m : Membership) (name : Alias), m.isNegated = false ∧
      (∀ selection : Selection, Membership.Joins s { m with selection } table name) ∧
      ∀ select : Scope → Except Error Selection, s.membership table select =
        (select (Scope.reading (s.boundInside table name))).map fun selection =>
          .atom (.member { m with selection }) := by
  obtain ⟨joins, hjoins⟩ : ∃ joins,
      s.joins .keysOnly table.relations (aliasChain 1 table.relations) = .ok joins :=
    Storage.exists_joins_keysOnly s _ none _
  obtain ⟨rest, hrest, hlength⟩ := aliasChain_eq_cons 1 table.relations
  have hleaf : ((tableAliases table.relations (aliasChain 1 table.relations)).getLast?).getD
      innerRoot = (innerRoot :: rest).getLast (List.cons_ne_nil _ _) := by
    rw [getLast?_tableAliases _ _ (length_aliasChain 1 table.relations), hrest,
      List.getLast?_eq_getLast_of_ne_nil (List.cons_ne_nil _ _)]
    rfl
  have hgenerated : s.joins .keysOnly table.relations (innerRoot :: rest) = .ok joins := by
    rw [← hjoins, hrest]
    rfl
  have htargets : joins.map (fun j => j.target.name) = rest :=
    Storage.map_target_joins hlength hgenerated
  have haliases : innerRoot :: rest = (List.range (joins.length + 1)).map (Alias.slot 1) := by
    have hcount : joins.length = joinedCount table.relations := by
      rw [← hlength, ← htargets, List.length_map]
    rw [hcount, Nat.add_comm, ← aliasChain, hrest]
    rfl
  -- the selection is the only part that depends on the leaf
  refine ⟨⟨s.root.name, s.root.sortKey, joins, default, false⟩,
    (innerRoot :: rest).getLast (List.cons_ne_nil _ _), rfl, fun selection => ?_, fun select => ?_⟩
  · refine ⟨rfl, rfl, hjoins, ?_, ?_, fun level => ?_⟩
    · exact Storage.leads_joins hlength hgenerated (htree.leads table htable)
    · rw [Membership.aliases, htargets, haliases]
    · rw [Membership.aliases, htargets, List.nodup_cons]
      refine ⟨fun hmem => ?_, ?_⟩
      · rw [haliases] at hmem
        obtain ⟨name, hname, hempty⟩ := List.mem_map.1 hmem
        obtain ⟨i, -, rfl⟩ := List.mem_map.1 hname
        exact aliasAt_ne_empty _ _ hempty
      · have hnodup := nodup_aliasChain_text level 1 table.relations
        rwa [hrest] at hnodup
  · rw [Storage.membership]
    simp only [hjoins, hleaf]
    exact bind_pure_eq_map _ _

/-! ## Columns of atoms -/

/-- The columns that a join compares. -/
def Join.keys (j : Join) : List (Alias × String) :=
  [(j.source.name, j.source.field), (j.target.name, j.target.field)]

/-- The columns that the select of a membership names behind its joins. -/
def Selection.columns (sortKey : String) : Selection → List (Alias × String)
  | .rows t => t.columns
  | .elements column _ complete =>
    column.columns ++ (innerRoot, sortKey) :: if complete then column.columns else []

/-- The columns that a membership names: the sort key of the root table outside and inside, the keys
of the joins, and what its select keeps. -/
def Membership.columns (m : Membership) : List (Alias × String) :=
  (outerRoot, m.sortKey) :: (innerRoot, m.sortKey) ::
    (m.joins.flatMap Join.keys ++ m.selection.columns m.sortKey)

/-- The columns that an atom names, from left to right. -/
def FeatureAtom.columns : FeatureAtom → List (Alias × String)
  | .test t => t.columns
  | .member m => m.columns

section Texts

variable {s : Storage}

theorem Join.cites_sql {j : Join} (h : j.IsPlain) : (j.sql s).Cites j.keys := by
  -- behind the table its alias is followed by a blank and not by a column
  have hon : (" ON (" : String) = " " ++ "ON (" := by decide
  have hcompared : Sql.Cites (Sql.column j.source.name j.source.field ++ .text "=" ::
      (Sql.column j.target.name j.target.field ++ Sql.ofText ")")) j.keys :=
    .column _ _ (.text (.column _ _ (.text .nil)))
  have htarget : j.targetSql = [.text j.target.table] := by
    rw [targetSql, h.2]
    rfl
  rw [sql, htarget, h.1, hon]
  simpa using Sql.Cites.text (.text (.text (.table j.target.name "ON (" hcompared)))

theorem Join.cites_listSql {joins : List Join} (h : ∀ j ∈ joins, j.IsPlain) :
    (Join.listSql s joins).Cites (joins.flatMap Join.keys) :=
  .separated_map " " fun j hj => Join.cites_sql (h j hj)

theorem Selection.cites_sql (sortKey : String) (selection : Selection) :
    (selection.sql s sortKey).Cites (selection.columns sortKey) := by
  cases selection with
  | rows t => exact t.cites_sql
  | elements column values complete =>
    have hvalue : Sql.Cites (column.sql s.dialect s.srid) column.columns := column.cites_sql
    have hlist : Sql.Cites (.text " IN " :: Value.listSql values) [] := .text (.listSql values)
    have hgroup : Sql.Cites (.text " GROUP BY " :: Sql.column innerRoot sortKey)
        [(innerRoot, sortKey)] := .text (.column innerRoot sortKey .nil)
    have hcount : Sql.Cites (if complete then Sql.around " HAVING count(distinct "
        (column.sql s.dialect s.srid) (") = " ++ toString values.length) else [])
        (if complete then column.columns else []) := by
      cases complete with
      | true => exact hvalue.around
      | false => exact .nil
    simpa [sql, columns] using ((hvalue.append hlist).append hgroup).append hcount

/-- The text of a membership names its columns. -/
theorem Membership.cites_sql {m : Membership} (h : ∀ j ∈ m.joins, j.IsPlain) :
    (m.sql s).Cites m.columns := by
  have hselection := Selection.cites_sql (s := s) m.sortKey m.selection
  have hjoins : Sql.Cites (if m.joins.isEmpty then [] else Join.listSql s m.joins ++ Sql.ofText " ")
      (m.joins.flatMap Join.keys) := by
    split
    · rename_i hempty
      rw [List.isEmpty_iff.1 hempty]
      exact .nil
    · exact (Join.cites_listSql h).append_ofText " "
  have hroot : Sql.Cites (.text "SELECT " :: Sql.column innerRoot m.sortKey)
      [(innerRoot, m.sortKey)] := .text (.column innerRoot m.sortKey .nil)
  have hwhere : Sql.Cites (.text "WHERE " :: m.selection.sql s m.sortKey)
      (m.selection.columns m.sortKey) := .text hselection
  have hselect : (m.selectSql s).Cites ((innerRoot, m.sortKey) ::
      (m.joins.flatMap Join.keys ++ m.selection.columns m.sortKey)) := by
    simpa [selectSql] using (hroot.append (.text (.table innerRoot "" hjoins))).append hwhere
  exact .column outerRoot m.sortKey (.text hselect.parenthesized)

end Texts

/-! ## References of atoms -/

/-- Some atoms of a condition state a leaf of a filter: their expressions name one column for every
property that the leaf reads, in the same order, and each is a column of a table that the innermost
select reads. -/
inductive Storage.Renders (s : Storage) (leaf : Filter) : List FeatureAtom → Prop
  /-- Without properties the leaf is a truth value. -/
  | constant (hnone : leaf.properties = []) : Renders s leaf []
  /-- All properties are read from the root table, on the row of the select around. -/
  | outside {t : Test}
    (hresolves : ∀ property ∈ leaf.properties, ∃ column, s.resolve property = .ok (s.root, column))
    (hreads : List.Forall₂ (s.Refers s.boundOutside) (leaf.reads s.dialect.hasOverlaps) t.columns) :
    Renders s leaf [.test t]
  /-- One of the properties leads to a joined table, and all of them to it or to the root. -/
  | inside {m : Membership} {table : Table} {name : Alias} {t : Test}
    (hbelow : table.isRoot = false)
    (hnamed : ∃ property ∈ leaf.properties, ∃ column, s.resolve property = .ok (table, column))
    (hresolves : ∀ property ∈ leaf.properties, ∃ table' column,
      s.resolve property = .ok (table', column) ∧ (table' = s.root ∨ table' = table))
    (hjoins : m.Joins s table name) (hselection : m.selection = .rows t)
    (hreads : List.Forall₂ (s.Refers (s.boundInside table name))
      (leaf.reads s.dialect.hasOverlaps) t.columns) : Renders s leaf [.member m]
  /-- One side of an array relation is read from the table that it is named after. -/
  | elements {relation : ArrayRelation} {left right operand : Operand} {m : Membership}
    {table : Table} {name : Alias} {column : Scalar} {values : List Value} {complete : Bool}
    (hleaf : leaf = .array relation left right) (hside : operand = left ∨ operand = right)
    (hnamed : ∃ column, s.resolve operand.subject = .ok (table, column))
    (hjoins : m.Joins s table name) (hselection : m.selection = .elements column values complete)
    (hreads : List.Forall₂ (s.Refers (s.boundInside table name))
      (leaf.reads s.dialect.hasOverlaps) column.columns) : Renders s leaf [.member m]

/-- An operand that is an interval, or a function of one. -/
inductive Operand.IsInterval : Operand → Prop
  | interval (start stop : Operand) : IsInterval (.interval start stop)
  | apply (function : ScalarFunction) {arg : Operand} (rest : List Operand) : IsInterval arg →
    IsInterval (.apply function (arg :: rest))

/-- An operand whose members are known is a literal. -/
theorem Operand.properties_of_members? {o : Operand} {values : List Value}
    (h : o.members? = some values) : o.properties = [] := by
  cases o with
  | literal value => rfl
  | array values => rfl
  | _ => simp [members?] at h

/-- One side of an array relation is an interval, or a function of one, and a property is named like
the text of the interval. -/
def Storage.IsMisnamed (s : Storage) (leaf : Filter) : Prop :=
  ∃ relation left right operand, leaf = .array relation left right ∧
    (operand = left ∨ operand = right) ∧ operand.IsInterval ∧
    ∃ table column, s.resolve operand.subject = .ok (table, column)

/-- The atom with the operator of its membership negated. -/
def FeatureAtom.flipped : FeatureAtom → FeatureAtom
  | .test t => .test t
  | .member m => .member { m with isNegated := !m.isNegated }

namespace Storage

variable {s : Storage}

/-- Negating memberships does not change what they state. -/
theorem Renders.flipped {leaf : Filter} {part : List FeatureAtom} (h : s.Renders leaf part) :
    s.Renders leaf (part.map FeatureAtom.flipped) := by
  cases h with
  | constant hnone => exact .constant hnone
  | outside hresolves hreads => exact .outside hresolves hreads
  | inside hbelow hnamed hresolves hjoins hselection hreads =>
    exact .inside hbelow hnamed hresolves (hjoins.withOperator _) hselection hreads
  | elements hleaf hside hnamed hjoins hselection hreads =>
    exact .elements hleaf hside hnamed (hjoins.withOperator _) hselection hreads

theorem mem_tables_of_mem_boundOutside (s : Storage) :
    ∀ b ∈ s.boundOutside, b.1 ∈ s.tree.tables := by
  simp [boundOutside, mem_tables_root]

theorem mem_tables_of_mem_boundInside {table : Table} (htable : table ∈ s.tree.tables)
    (name : Alias) : ∀ b ∈ s.boundInside table name, b.1 ∈ s.tree.tables := by
  simp [boundInside, mem_tables_root, htable]

/-- What is known of the condition of a leaf: it states the leaf, and a fault in it is one of the
given kind. -/
structure Lowers (s : Storage) (leaf : Filter) (fails : Error → Prop)
    (found : Except Error FeatureCondition) : Prop where
  renders : ∀ c, found = .ok c → s.Renders leaf c.atoms
  fails : FailsOnly fails found

/-- A predicate that needs no table but the root is a test on the outer row. -/
theorem lowers_outside (htree : s.tree.IsDerived) {leaf : Filter} {negated : Bool} {p : Predicate}
    (hproperties : leaf.properties = p.properties)
    (hreads : leaf.reads s.dialect.hasOverlaps = p.reads s.dialect.hasOverlaps)
    (hjoined : s.joinedTable p.properties = .ok none) :
    s.Lowers leaf Error.IsReachable (s.featurePredicate negated p) := by
  obtain ⟨-, hresolved, -⟩ := joinedTableFrom_eq_ok htree (by simp) hjoined
  have hroot : ∀ property ∈ p.properties, ∃ column, s.resolve property = .ok (s.root, column) := by
    intro property hproperty
    obtain ⟨table, column, hresolve, htable⟩ := hresolved property hproperty
    obtain rfl := htable.resolve_right (by simp)
    exact ⟨column, hresolve⟩
  have heq : s.featurePredicate negated p =
      (s.test (Scope.reading s.boundOutside) negated p).map fun t => .atom (.test t) := by
    rw [featurePredicate, hjoined]
    exact bind_pure_eq_map _ _
  rw [heq]
  constructor
  · intro c hc
    obtain ⟨t, ht, rfl⟩ := map_eq_ok.1 hc
    refine .outside (hproperties ▸ hroot) ?_
    rw [hreads]
    exact forall₂_columns_test (readsBy_refers htree s.mem_tables_of_mem_boundOutside) ht
  · refine (failsOnly_test isReachable_of_fault negated fun property hproperty => ?_).map _
    obtain ⟨column, hresolve⟩ := hroot property hproperty
    exact failsOnly_column hresolve List.mem_cons_self

/-- A predicate that needs one more table is a test behind the joins of this table. -/
theorem lowers_inside (htree : s.tree.IsDerived) {leaf : Filter} {negated : Bool} {p : Predicate}
    (hproperties : leaf.properties = p.properties)
    (hreads : leaf.reads s.dialect.hasOverlaps = p.reads s.dialect.hasOverlaps) {table : Table}
    (hjoined : s.joinedTable p.properties = .ok (some table)) :
    s.Lowers leaf Error.IsReachable (s.featurePredicate negated p) := by
  obtain ⟨-, hresolved, hown⟩ := joinedTableFrom_eq_ok htree (by simp) hjoined
  obtain ⟨property, hproperty, column, hresolve, hbelow⟩ :=
    (hown table rfl).resolve_left (by simp)
  have htable := mem_tables_of_resolve hresolve
  obtain ⟨m, name, -, hjoins, hmembership⟩ := exists_membership htree htable
  have heq : s.featurePredicate negated p =
      ((s.test (Scope.reading (s.boundInside table name)) negated p).map Selection.rows).map
        fun selection => .atom (.member { m with selection }) := by
    rw [featurePredicate, hjoined]
    exact hmembership fun scope => (s.test scope negated p).map .rows
  rw [heq]
  constructor
  · intro c hc
    obtain ⟨selection, hselection, rfl⟩ := map_eq_ok.1 hc
    obtain ⟨t, ht, rfl⟩ := map_eq_ok.1 hselection
    refine .inside hbelow ⟨property, hproperties ▸ hproperty, column, hresolve⟩ ?_ (hjoins _) rfl ?_
    · intro property hproperty
      obtain ⟨table', column, hresolve, hcases⟩ := hresolved property (hproperties ▸ hproperty)
      refine ⟨table', column, hresolve, hcases.imp_right fun heq => ?_⟩
      exact (Option.some.inj heq).symm
    · rw [hreads]
      have hbound := mem_tables_of_mem_boundInside htable name
      exact forall₂_columns_test (readsBy_refers htree hbound) ht
  · refine ((failsOnly_test isReachable_of_fault negated fun property hproperty => ?_).map _).map _
    obtain ⟨table', column, hresolve, hcases⟩ := hresolved property hproperty
    rcases hcases with rfl | heq
    · exact failsOnly_column hresolve List.mem_cons_self
    · obtain rfl := Option.some.inj heq
      exact failsOnly_column hresolve (List.mem_cons_of_mem _ List.mem_cons_self)

/-- The condition of a predicate states it, and every property of the predicate is reached. -/
theorem lowers_featurePredicate (htree : s.tree.IsDerived) (leaf : Filter) (negated : Bool)
    {p : Predicate} (hproperties : leaf.properties = p.properties)
    (hreads : leaf.reads s.dialect.hasOverlaps = p.reads s.dialect.hasOverlaps) :
    s.Lowers leaf Error.IsReachable (s.featurePredicate negated p) := by
  cases hjoined : s.joinedTable p.properties with
  | error e =>
    have heq : s.featurePredicate negated p = .error e := by
      rw [featurePredicate, hjoined]
      rfl
    rw [heq]
    exact ⟨by simp, .error (failsOnly_joinedTableFrom isReachable_of_fault _ _ e hjoined)⟩
  | ok found =>
    cases found with
    | none => exact lowers_outside htree hproperties hreads hjoined
    | some table => exact lowers_inside htree hproperties hreads hjoined

/-- What becomes of an array relation: a truth value if both sides are literals, a fault, or a
membership in the table that one side is named after. -/
theorem featureArray_cases (htree : s.tree.IsDerived) (relation : ArrayRelation)
    (left right : Operand) :
    (∃ value, s.featureArray relation left right = .ok (.constant value) ∧
        left.properties = [] ∧ right.properties = []) ∨
      (∃ e, s.featureArray relation left right = .error e ∧ e.IsReachable) ∨
      ∃ (operand : Operand) (values : List Value) (complete : Bool) (table : Table)
        (column : String), (operand = left ∧ right.reads = [] ∨ operand = right ∧ left.reads = []) ∧
        s.resolve operand.subject = .ok (table, column) ∧
        s.featureArray relation left right = s.membership table fun scope =>
          (s.scalar scope operand).map (.elements · values complete) := by
  rw [featureArray]
  split
  · rename_i hleft hright
    exact Or.inl ⟨_, rfl, Operand.properties_of_members? hleft,
      Operand.properties_of_members? hright⟩
  · refine Or.inr ?_
    -- the two sides are read as a property against values, if either can be
    cases hread : relation.readAgainst left right with
    | error e =>
      exact Or.inl ⟨e, rfl, failsOnly_readAgainst isReachable_of_fault relation left right e hread⟩
    | ok read =>
      obtain ⟨operand, values, turned⟩ := read
      have hside : operand = left ∧ right.reads = [] ∨ operand = right ∧ left.reads = [] := by
        rw [ArrayRelation.readAgainst.eq_def] at hread
        split at hread
        · exact Or.inr ⟨(Prod.mk.inj (Except.ok.inj hread)).1.symm, rfl⟩
        · exact Or.inl ⟨(Prod.mk.inj (Except.ok.inj hread)).1.symm, rfl⟩
        · simp at hread
      simp only [bind, Except.bind]
      split
      · exact Or.inl ⟨_, rfl, isReachable_of_fault _ _ (by simp)⟩
      · cases hjoined : s.joinedTable [operand.subject] with
        | error e =>
          exact Or.inl ⟨e, rfl, failsOnly_joinedTableFrom isReachable_of_fault _ _ e hjoined⟩
        | ok found =>
          obtain ⟨-, hresolved, hown⟩ := joinedTableFrom_eq_ok htree (by simp) hjoined
          obtain ⟨table, column, hresolve, htable⟩ := hresolved _ List.mem_cons_self
          refine Or.inr ⟨operand, values, _, found.getD s.root, column, hside, ?_, rfl⟩
          -- the table that was found is the one the property resolves to
          rcases htable with rfl | rfl
          · cases found with
            | none => exact hresolve
            | some other =>
              obtain ⟨_, hmem, column', hresolve', hbelow⟩ :=
                (hown other rfl).resolve_left (by simp)
              obtain rfl := List.mem_singleton.1 hmem
              obtain ⟨rfl, -⟩ := Prod.mk.inj (Except.ok.inj (hresolve.symm.trans hresolve'))
              exact hresolve
          · exact hresolve

/-- Unless it is an interval, the expression of an operand fails only as the property does that a
message calls the operand. -/
theorem failsOnly_scalar_of_subject {P : Error → Prop} (hP : HoldsOfFaults P) {scope : Scope} :
    ∀ {o : Operand}, ¬ o.IsInterval → FailsOnly P (s.column scope o.subject) →
      FailsOnly P (s.scalar scope o)
  | .property name, _, h => h
  | .literal _, _, _ => .ok _
  | .geometry _, _, _ => .ok _
  | .temporal (.instant _), _, _ => .ok _
  | .temporal (.date _), _, _ => .ok _
  | .temporal (.interval _ _), _, _ => .ok _
  | .interval start stop, hno, _ => absurd (.interval start stop) hno
  | .array _, _, _ => .ok _
  | .apply function [], _, _ => failsOnly_applyFunction hP function (by simp)
  | .apply function (arg :: rest), hno, h => by
    rw [Operand.subject, Operand.subjectOfFirst] at h
    have harg := failsOnly_scalar_of_subject hP
      (fun hinterval => hno (.apply function rest hinterval)) h
    rw [scalar]
    exact failsOnly_applyFunction hP function (by simpa using harg)

/-- The condition of an array relation states it, and only an interval is not reached. -/
theorem lowers_featureArray (htree : s.tree.IsDerived) (relation : ArrayRelation)
    (left right : Operand) :
    s.Lowers (.array relation left right)
      (fun e => e.IsReachable ∨ s.IsMisnamed (.array relation left right))
      (s.featureArray relation left right) := by
  rcases featureArray_cases htree relation left right with ⟨value, heq, hleft, hright⟩ |
    ⟨e, heq, he⟩ | ⟨operand, values, complete, table, column, hside, hresolve, heq⟩
  · rw [heq]
    refine ⟨fun c hc => ?_, .ok _⟩
    obtain rfl := Except.ok.inj hc
    exact .constant (by rw [Filter.properties, hleft, hright]; rfl)
  · rw [heq]
    exact ⟨by simp, .error (.inl he)⟩
  · have hreads : (Filter.array relation left right).reads s.dialect.hasOverlaps =
        operand.reads := by
      rcases hside with ⟨rfl, hnone⟩ | ⟨rfl, hnone⟩
      · rw [Filter.reads, hnone, List.append_nil]
      · rw [Filter.reads, hnone, List.nil_append]
    have hside := hside.imp And.left And.left
    have htable := mem_tables_of_resolve hresolve
    obtain ⟨m, name, -, hjoins, hmembership⟩ := exists_membership htree htable
    rw [heq, hmembership]
    constructor
    · intro c hc
      obtain ⟨selection, hselection, rfl⟩ := map_eq_ok.1 hc
      obtain ⟨value, hvalue, rfl⟩ := map_eq_ok.1 hselection
      refine .elements rfl hside ⟨column, hresolve⟩ (hjoins _) rfl ?_
      rw [hreads]
      exact forall₂_columns_scalar
        (readsBy_refers htree (mem_tables_of_mem_boundInside htable name)) hvalue
    · refine FailsOnly.map (FailsOnly.map ?_ _) _
      -- the properties inside an interval are not those that the table was chosen for
      by_cases hinterval : operand.IsInterval
      · exact fun e _ => .inr ⟨relation, left, right, operand, rfl, hside, hinterval, table, column,
          hresolve⟩
      · intro e he
        refine .inl (failsOnly_scalar_of_subject isReachable_of_fault hinterval ?_ e he)
        exact failsOnly_column hresolve (List.mem_cons_of_mem _ List.mem_cons_self)

/-- What is known of every leaf of a filter. -/
theorem lowers_leaf (htree : s.tree.IsDerived) {leaf : Filter} (hleaf : leaf.IsLeaf) :
    s.Lowers leaf (fun e => e.IsReachable ∨ s.IsMisnamed leaf) (s.featureCondition leaf) := by
  cases hleaf with
  | outsideList value list =>
    obtain ⟨hrenders, hfails⟩ := lowers_featurePredicate htree
      (.negation (.test (.oneOf value list))) true (p := .oneOf value list) rfl rfl
    exact ⟨hrenders, fun e he => .inl (hfails e he)⟩
  | test p =>
    obtain ⟨hrenders, hfails⟩ := lowers_featurePredicate htree (.test p) false (p := p) rfl rfl
    exact ⟨hrenders, fun e he => .inl (hfails e he)⟩
  | array relation left right => exact lowers_featureArray htree relation left right
  | constant value =>
    refine ⟨fun c hc => ?_, .ok _⟩
    obtain rfl := Except.ok.inj hc
    exact .constant rfl

/-- The atoms of a condition, part by part, state the leaves of the filter. -/
theorem exists_parts (htree : s.tree.IsDerived) {filter : Filter} {c : FeatureCondition}
    (hc : s.featureCondition filter = .ok c) :
    ∃ parts, c.atoms = parts.flatten ∧ List.Forall₂ s.Renders filter.leaves parts := by
  -- the parts of a list of filters are those of its members, one behind the other
  have hlist : ∀ {args : List Filter} {cs : List FeatureCondition},
      List.Forall₂ (fun filter c => ∃ parts, c.atoms = parts.flatten ∧
        List.Forall₂ s.Renders filter.leaves parts) args cs →
      ∃ parts, Condition.atomsOfList cs = parts.flatten ∧
        List.Forall₂ s.Renders (Filter.leavesOfList args) parts := by
    intro args cs hargs
    induction hargs with
    | nil => exact ⟨[], rfl, .nil⟩
    | cons hfirst _ ih =>
      obtain ⟨parts, hatoms, hparts⟩ := hfirst
      obtain ⟨others, hothers, hrest⟩ := ih
      refine ⟨parts ++ others, ?_, List.rel_append hparts hrest⟩
      rw [Condition.atomsOfList, hatoms, hothers, List.flatten_append]
  have kept : Filter.KeptByLowering s.featurePredicate s.featureArray FeatureCondition.negated
      fun filter c => ∃ parts, c.atoms = parts.flatten ∧
        List.Forall₂ s.Renders filter.leaves parts := by
    constructor
    · intro leaf c hleaf hc
      rw [hleaf.leaves_eq]
      exact ⟨[c.atoms], by simp, .cons ((lowers_leaf htree hleaf).renders c hc) .nil⟩
    · intro args cs hargs
      rw [Condition.atoms_conjunction]
      exact hlist hargs
    · intro args cs hargs
      rw [Condition.atoms_disjunction]
      exact hlist hargs
    · rintro arg c hno ⟨parts, hatoms, hparts⟩
      rw [Filter.leaves_negation hno, FeatureCondition.negated.eq_def]
      split
      · -- the one atom is a membership, which is negated in its operator
        refine ⟨parts.map (List.map FeatureAtom.flipped), ?_, ?_⟩
        · rw [← List.map_flatten, ← hatoms]
          rfl
        · rw [List.forall₂_map_right_iff]
          exact hparts.imp fun _ _ => Renders.flipped
      · exact ⟨parts, hatoms, hparts⟩
  exact kept.of_lower filter hc

/-- Every atom of a condition is one of those that state a leaf of the filter. -/
theorem exists_renders_of_mem_atoms (htree : s.tree.IsDerived) {filter : Filter}
    {c : FeatureCondition} (hc : s.featureCondition filter = .ok c) {atom : FeatureAtom}
    (hatom : atom ∈ c.atoms) :
    ∃ leaf ∈ filter.leaves, ∃ part, s.Renders leaf part ∧ atom ∈ part := by
  obtain ⟨parts, hatoms, hparts⟩ := exists_parts htree hc
  rw [hatoms] at hatom
  obtain ⟨part, hpart, hatom⟩ := List.mem_flatten.1 hatom
  obtain ⟨leaf, hleaf, hrenders⟩ := exists_left_of_forall₂ hparts hpart
  exact ⟨leaf, hleaf, part, hrenders, hatom⟩

/-- The columns that a test refers to are named under the aliases that its select reads. -/
theorem exists_slot_of_refers {bound : List (Table × Alias)}
    (hbound : ∀ b ∈ bound, ∃ depth index, b.2 = .slot depth index) {properties : List String}
    {columns : List (Alias × String)}
    (h : List.Forall₂ (s.Refers bound) properties columns) :
    ∀ cited ∈ columns, ∃ depth index, cited.1 = .slot depth index := by
  intro cited hcited
  obtain ⟨property, -, table, -, hmem⟩ := exists_left_of_forall₂ h hcited
  exact hbound _ hmem

/-- So are those of a membership, if the columns behind its joins are. -/
theorem exists_slot_of_selection {m : Membership} {table : Table} {name : Alias}
    (hjoins : m.Joins s table name)
    (hselection : ∀ cited ∈ m.selection.columns m.sortKey,
      ∃ depth index, cited.1 = .slot depth index) :
    ∀ cited ∈ m.columns, ∃ depth index, cited.1 = .slot depth index := by
  refine List.forall_mem_cons.2 ⟨⟨0, 0, rfl⟩, List.forall_mem_cons.2 ⟨⟨1, 0, rfl⟩, ?_⟩⟩
  refine List.forall_mem_append.2 ⟨?_, hselection⟩
  -- a join compares the table that it leads to with one before it
  intro cited hcited
  obtain ⟨j, hj, hcited⟩ := List.mem_flatMap.1 hcited
  rw [Join.keys, List.mem_pair] at hcited
  rcases hcited with rfl | rfl
  · exact ⟨1, hjoins.forall_leads.2 j hj⟩
  · exact ⟨1, hjoins.forall_targets j hj⟩

theorem exists_slot_of_mem_boundInside {m : Membership} {table : Table} {name : Alias}
    (hjoins : m.Joins s table name) :
    ∀ b ∈ s.boundInside table name, ∃ depth index, b.2 = .slot depth index :=
  List.forall_mem_cons.2 ⟨⟨1, 0, rfl⟩, List.forall_mem_singleton.2 ⟨1, hjoins.forall_leads.1⟩⟩

/-- The atoms of a leaf name columns of tables of selects alone. -/
theorem Renders.exists_slot {leaf : Filter} {part : List FeatureAtom} (h : s.Renders leaf part) :
    ∀ atom ∈ part, ∀ cited ∈ atom.columns, ∃ depth index, cited.1 = .slot depth index := by
  cases h with
  | constant => simp
  | outside _ hreads =>
    exact List.forall_mem_singleton.2
      (exists_slot_of_refers (List.forall_mem_singleton.2 ⟨0, 0, rfl⟩) hreads)
  | inside _ _ _ hjoins hselection hreads =>
    refine List.forall_mem_singleton.2 (exists_slot_of_selection hjoins ?_)
    rw [hselection]
    exact exists_slot_of_refers (exists_slot_of_mem_boundInside hjoins) hreads
  | elements _ _ _ hjoins hselection hreads =>
    have hcolumn := exists_slot_of_refers (exists_slot_of_mem_boundInside hjoins) hreads
    refine List.forall_mem_singleton.2 (exists_slot_of_selection hjoins ?_)
    rw [hselection, Selection.columns]
    refine List.forall_mem_append.2 ⟨hcolumn, List.forall_mem_cons.2 ⟨⟨1, 0, rfl⟩, ?_⟩⟩
    split
    · exact hcolumn
    · simp

/-- The text of an atom names its columns. -/
theorem Renders.cites_sql {leaf : Filter} {part : List FeatureAtom} (h : s.Renders leaf part) :
    ∀ atom ∈ part, (atom.sql s).Cites atom.columns := by
  cases h with
  | constant => simp
  | outside => exact List.forall_mem_singleton.2 (Test.cites_sql _)
  | inside _ _ _ hjoins => exact List.forall_mem_singleton.2 (Membership.cites_sql hjoins.isPlain)
  | elements _ _ _ hjoins => exact List.forall_mem_singleton.2 (Membership.cites_sql hjoins.isPlain)

end Storage

/-- What the text of a filter names at a level: the columns of its atoms, each under an alias that
is not empty. Part by part the atoms state the leaves of the filter, and each property of a leaf is
read there or left out by the leaf. -/
structure Storage.NamesSoundly (s : Storage) (filter : Filter) (level : Nat) (text : String)
    (c : FeatureCondition) : Prop where
  text_eq : text = (s.featureConditionSql c).render level
  cites : (s.featureConditionSql c).Cites (c.atoms.flatMap FeatureAtom.columns)
  nonempty : ∀ cited ∈ c.atoms.flatMap FeatureAtom.columns, cited.1.text level ≠ ""
  parts : ∃ parts, c.atoms = parts.flatten ∧ List.Forall₂ s.Renders filter.leaves parts
  properties : ∀ leaf ∈ filter.leaves, ∀ property, property ∈ leaf.properties ↔
    property ∈ leaf.reads s.dialect.hasOverlaps ∨ property ∈ leaf.drops

/-- The properties of a filter resolve soundly at every level: in the text of the filter each one
that is read is the column and the table that resolution gives, under the alias that the innermost
select reads this table by. That a property is not reachable is only said of an interval in an array
relation that is called like a property. -/
theorem renders_of_filterText {mapping : FeatureMapping} {s : Storage}
    (h : TableTree.ofMapping mapping = .ok s.tree) (filter : Filter) (level : Nat) :
    (∀ text, s.filterText filter level = .ok text → ∃ c : FeatureCondition,
      s.featureCondition filter = .ok c ∧ s.NamesSoundly filter level text c) ∧
      ∀ other, s.filterText filter level = .error (.mapping other .unreachableProperty) →
        ∃ leaf ∈ filter.leaves, s.IsMisnamed leaf := by
  have htree := TableTree.isDerived_of_ofMapping h
  constructor
  · intro text htext
    obtain ⟨c, hc, rfl⟩ := map_eq_ok.1 htext
    refine ⟨c, hc, rfl, Condition.cites_sql fun atom hatom => ?_, ?_, Storage.exists_parts htree hc,
      fun leaf hleaf property => ?_⟩
    · obtain ⟨leaf, -, part, hrenders, hatom⟩ := Storage.exists_renders_of_mem_atoms htree hc hatom
      exact hrenders.cites_sql atom hatom
    · intro cited hcited
      obtain ⟨atom, hatom, hcited⟩ := List.mem_flatMap.1 hcited
      obtain ⟨leaf, -, part, hrenders, hatom⟩ := Storage.exists_renders_of_mem_atoms htree hc hatom
      obtain ⟨depth, index, hslot⟩ := hrenders.exists_slot atom hatom cited hcited
      rw [hslot]
      exact aliasAt_ne_empty _ _
    · obtain ⟨hleaf, -⟩ := Filter.exists_lower_of_mem_leaves hc leaf hleaf
      exact hleaf.mem_properties_iff _
  · -- a fault of a filter is one of some leaf of it
    intro other herror
    obtain ⟨leaf, hmem, hleaf, hlower⟩ :=
      Filter.exists_leaf_of_lower_eq_error (map_eq_error herror)
    refine ⟨leaf, hmem, ((Storage.lowers_leaf htree hleaf).fails _ hlower).resolve_left ?_⟩
    exact fun hreachable => hreachable other rfl

/-- The city of a parcel is read from its addresses, and its name from itself. -/
theorem renders_of_filterText_cities :
    let mapping : FeatureMapping := ⟨"parcels", "parcel", [⟨"name", "name", .value, none⟩,
      ⟨"city", "[id=parcel_id]address/city", .value, none⟩]⟩
    let filter : Filter := .all [Filter.compare .eq "name" (.text "north"),
      Filter.compare .eq "city" (.text "Bonn")]
    ∃ s : Storage, TableTree.ofMapping mapping = .ok s.tree ∧ ∃ c : FeatureCondition,
      s.featureCondition filter = .ok c ∧
      s.NamesSoundly filter 0 ("(A.name = 'north' AND A.id IN (SELECT AA.id " ++
        "FROM parcel AA JOIN address AB ON (AA.id=AB.parcel_id) WHERE AB.city = 'Bonn'))") c := by
  intro mapping filter
  have hrun : (do
      let tree ← TableTree.ofMapping mapping
      (Storage.plain tree .postgis).filterText filter 0 : Except Error String).toOption =
        some ("(A.name = 'north' AND A.id IN (SELECT AA.id " ++
          "FROM parcel AA JOIN address AB ON (AA.id=AB.parcel_id) WHERE AB.city = 'Bonn'))") := by
    decide +kernel
  obtain ⟨tree, htree, htext⟩ := bind_eq_ok.1 (toOption_eq_some.1 hrun)
  obtain ⟨hok, -⟩ :=
    @renders_of_filterText mapping (Storage.plain tree .postgis) htree filter 0
  obtain ⟨c, hc, hnames⟩ := hok _ htext
  exact ⟨Storage.plain tree .postgis, htree, c, hc, hnames⟩

/-- Some properties are not named, and some are not reachable. The city in the second argument of a
function stands nowhere in the text, nor does the start of an interval before a moment or the end of
an interval that starts another one. A property that is called like the text of an interval is taken
for the one that the interval reads, and then the city inside the interval is not reachable. -/
theorem not_named_filterText :
    let interval : Operand := .interval (.property "city") (.property "city")
    let mapping : FeatureMapping := ⟨"parcels", "parcel",
      [⟨"name", "name", .value, none⟩, ⟨"city", "[id=parcel_id]address/city", .value, none⟩,
        ⟨"opened", "opened", .value, none⟩, ⟨"closed", "closed", .value, none⟩,
        ⟨"Interval \x7b start: Property(\"city\"), end: Property(\"city\") \x7d", "code", .value,
          none⟩]⟩
    let opening : Operand := .interval (.property "opened") (.property "closed")
    ∃ s : Storage, TableTree.ofMapping mapping = .ok s.tree ∧
      s.filterText (.test (.compare .eq (.apply .upper [.property "name", .property "city"])
          (.literal (.text "NORTH")))) 0 =
        .ok ("A.id IN (SELECT AA.id FROM parcel AA JOIN address AB ON (AA.id=AB.parcel_id) " ++
          "WHERE UPPER(AA.name) = 'NORTH')") ∧
      s.filterText (.test (.temporal .before opening (.property "name"))) 0 =
        .ok "A.closed < A.name" ∧
      s.filterText (.test (.isNull (.interval opening (.property "name")))) 0 =
        .ok "(A.opened,A.name) IS NULL" ∧
      s.filterText (.array .overlaps interval (.array [.text "x"])) 0 =
        .error (.mapping "city" .unreachableProperty) := by
  intro interval mapping opening
  have hrun : (do
      let tree ← TableTree.ofMapping mapping
      let s := Storage.plain tree .postgis
      let function ← s.filterText (.test (.compare .eq
        (.apply .upper [.property "name", .property "city"]) (.literal (.text "NORTH")))) 0
      let before ← s.filterText (.test (.temporal .before opening (.property "name"))) 0
      let nested ← s.filterText (.test (.isNull (.interval opening (.property "name")))) 0
      match s.filterText (.array .overlaps interval (.array [.text "x"])) 0 with
      | .error (.mapping property .unreachableProperty) =>
        return [function, before, nested, property]
      | _ => return [] : Except Error (List String)).toOption =
        some ["A.id IN (SELECT AA.id FROM parcel AA JOIN address AB ON (AA.id=AB.parcel_id) " ++
          "WHERE UPPER(AA.name) = 'NORTH')", "A.closed < A.name", "(A.opened,A.name) IS NULL",
          "city"] := by
    decide +kernel
  obtain ⟨tree, htree, hrun⟩ := bind_eq_ok.1 (toOption_eq_some.1 hrun)
  obtain ⟨function, hfunction, hrun⟩ := bind_eq_ok.1 hrun
  obtain ⟨before, hbefore, hrun⟩ := bind_eq_ok.1 hrun
  obtain ⟨nested, hnested, hfault⟩ := bind_eq_ok.1 hrun
  split at hfault
  · rename_i property herror
    simp only [pure_eq_ok, List.cons.injEq, and_true] at hfault
    obtain ⟨rfl, rfl, rfl, rfl⟩ := hfault
    exact ⟨Storage.plain tree .postgis, htree, hfunction, hbefore, hnested, herror⟩
  · simp [pure_eq_ok] at hfault

end FeatureStore
