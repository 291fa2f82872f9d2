import FeatureStore.Proofs.Read.Correlated
import FeatureStore.Proofs.Sql.Scopes

/-!
# Aliases bound by joins

Along the relations of a table one table is joined after the other (`Relation.steps`), and each of
them is bound to one alias: the `FROM` binds the first alias of the chain to the root table, and
every join binds the next one to the table of the next step, in terms of what was bound right
before (`Join.Binds`, `Join.Compares`). The aliases of the tables that are no junctions are those of
the chain (`tableAliases_eq_filter`). In a statement that reads rows everything that is selected and
all that joins compare names aliases of the chain of its table (`aliases_bound`).
-/

set_option autoImplicit false

namespace FeatureStore

/-! ## Steps along relations -/

/-- One table joined along a relation, with the columns compared. -/
structure JoinStep where
  table : String
  isJunction : Bool
  /-- The column of the table joined before. -/
  sourceField : String
  /-- The column of the table itself. -/
  targetField : String
  deriving DecidableEq

/-- The tables joined along a relation: the junction, if there is one, and the target. -/
def Relation.steps (r : Relation) : List JoinStep :=
  match r.junction with
  | none => [⟨r.targetTable, false, r.sourceField, r.targetField⟩]
  | some junction =>
    [⟨junction.table, true, r.sourceField, junction.sourceField⟩,
      ⟨r.targetTable, false, junction.targetField, r.targetField⟩]

/-- The tables joined along some relations. -/
def stepsAlong (relations : List Relation) : List JoinStep := relations.flatMap Relation.steps

theorem length_steps (r : Relation) : r.steps.length = r.tableCount := by
  rw [Relation.steps, Relation.tableCount]
  cases r.junction <;> rfl

theorem length_stepsAlong (relations : List Relation) :
    (stepsAlong relations).length = joinedCount relations := by
  induction relations with
  | nil => rfl
  | cons r relations ih =>
    rw [stepsAlong, List.flatMap_cons, List.length_append, length_steps, joinedCount, ← ih]
    rfl

theorem joinedCount_eq_sum (relations : List Relation) :
    joinedCount relations = (relations.map Relation.tableCount).sum := by
  induction relations with
  | nil => rfl
  | cons r relations ih => rw [joinedCount, ih, List.map_cons, List.sum_cons]

/-- Without the junctions the tables are the targets of the relations. -/
theorem targets_stepsAlong (relations : List Relation) :
    ((stepsAlong relations).filter fun t => !t.isJunction).map JoinStep.table =
      relations.map Relation.targetTable := by
  induction relations with
  | nil => rfl
  | cons r relations ih =>
    rw [stepsAlong, List.flatMap_cons, List.filter_append, List.map_append, List.map_cons,
      ← stepsAlong, ih, Relation.steps]
    cases r.junction <;> rfl

/-- The aliases of the tables that are no junctions. -/
theorem tableAliases_eq_filter : ∀ (relations : List Relation) (name : Alias) {names : List Alias},
    names.length = joinedCount relations → tableAliases relations (name :: names) =
      name :: ((names.zip (stepsAlong relations)).filter fun p => !p.2.isJunction).map Prod.fst
  | [], name, names, h => by
    obtain rfl := List.length_eq_zero_iff.1 h
    rfl
  | r :: relations, name, names, h => by
    have hsteps : stepsAlong (r :: relations) = r.steps ++ stepsAlong relations := rfl
    rw [joinedCount, Relation.tableCount] at h
    rw [tableAliases, hsteps, Relation.steps, Relation.tableCount]
    cases hj : r.junction with
    | none =>
      rw [hj, Option.isSome_none, if_neg Bool.false_ne_true] at h
      obtain ⟨target, more, rfl⟩ := List.exists_cons_of_length_pos (by omega : 0 < names.length)
      have hmore : more.length = joinedCount relations := by
        rw [List.length_cons] at h
        omega
      simp [tableAliases_eq_filter relations target hmore]
    | some junction =>
      -- the alias of the junction is passed over
      rw [hj, Option.isSome_some, if_pos rfl] at h
      obtain ⟨middle, rest, rfl⟩ := List.exists_cons_of_length_pos (by omega : 0 < names.length)
      rw [List.length_cons] at h
      obtain ⟨target, more, rfl⟩ := List.exists_cons_of_length_pos (by omega : 0 < rest.length)
      have hmore : more.length = joinedCount relations := by
        rw [List.length_cons] at h
        omega
      simp [tableAliases_eq_filter relations target hmore]

/-! ## Bindings -/

namespace Join

/-- Joins bind some aliases, one after the other, to the tables of some steps, behind a table that
is bound to an alias before: each compares columns of the table it binds and of the table bound
right before. -/
structure Binds (start : Alias × String) (names : List Alias) (steps : List JoinStep)
    (joins : List Join) : Prop where
  names_eq : joins.map (fun j => j.target.name) = names
  tables_eq : joins.map (fun j => j.target.table) = steps.map JoinStep.table
  fields_eq : joins.map (fun j => (j.source.field, j.target.field)) =
    steps.map fun t => (t.sourceField, t.targetField)
  sources_eq : joins.map (fun j => (j.source.name, j.source.table)) =
    (start :: joins.map fun j => (j.target.name, j.target.table)).dropLast

/-- On the way along joins each starts where the one before it ends. -/
theorem Leads.sources_eq {start stop : Alias × String} {joins : List Join}
    (h : Leads start joins stop) : joins.map (fun j => (j.source.name, j.source.table)) =
      (start :: joins.map fun j => (j.target.name, j.target.table)).dropLast := by
  induction h with
  | nil place => rfl
  | cons hsource _ ih => rw [List.map_cons, ih, hsource, List.map_cons, List.dropLast_cons_cons]

/-- The text of a join binds the alias of its target, and says in parentheses that the columns of
its two sides are equal; what else it says there names its target only. -/
def Compares (s : Storage) (j : Join) : Prop :=
  ∃ more, Sql.NamesOnly [j.target.name] more ∧
    j.sql s = .text (j.kind.keyword ++ "JOIN ") :: j.targetSql ++ .text " " ::
      .alias j.target.name :: .text " ON (" :: Sql.column j.source.name j.source.field ++
      .text "=" :: Sql.column j.target.name j.target.field ++ more ++ Sql.ofText ")"

/-- Both sides of a join have aliases that were bound. -/
theorem Binds.mem_names {start : Alias × String} {names : List Alias} {steps : List JoinStep}
    {joins : List Join} (h : Binds start names steps joins) {j : Join} (hj : j ∈ joins) :
    j.source.name ∈ start.1 :: names ∧ j.target.name ∈ names := by
  have htargets : (joins.map fun j => (j.target.name, j.target.table)).map Prod.fst = names := by
    rw [List.map_map, ← h.names_eq]
    rfl
  constructor
  · have hsource : (j.source.name, j.source.table) ∈
        start :: joins.map fun j => (j.target.name, j.target.table) := by
      refine List.dropLast_subset _ ?_
      rw [← h.sources_eq]
      exact List.mem_map_of_mem hj
    have hname := List.mem_map_of_mem (f := Prod.fst) hsource
    rwa [List.map_cons, htargets] at hname
  · rw [← h.names_eq]
    exact List.mem_map_of_mem hj

end Join

namespace Storage

variable {s : Storage}

/-- The tables joined and the columns compared are those of the steps. -/
theorem steps_of_joins : ∀ {relations : List Relation} {options : JoinOptions} {source : Alias}
    {rest : List Alias} {joins : List Join}, rest.length = joinedCount relations →
      s.joins options relations (source :: rest) = .ok joins →
        joins.map (fun j => (j.target.table, j.source.field, j.target.field)) =
          (stepsAlong relations).map fun t => (t.table, t.sourceField, t.targetField)
  | [], _, _, _, _, _, h => by
    obtain rfl := Except.ok.inj h
    rfl
  | r :: relations, _, _, _, _, hlength, h => by
    obtain ⟨target, more, filter, others, hmore, -, hothers, hcases⟩ := joins_cons_cases hlength h
    have hsteps : stepsAlong (r :: relations) = r.steps ++ stepsAlong relations := rfl
    rw [hsteps, List.map_append, ← steps_of_joins hmore hothers, Relation.steps]
    rcases hcases with ⟨hj, -, rfl⟩ | ⟨junction, middle, hj, -, rfl⟩
    · rw [hj]
      rfl
    · rw [hj]
      rfl

/-- The joins along relations that lead from a table bind the aliases behind its own. -/
theorem binds_joins {relations : List Relation} {options : JoinOptions} {source : Alias}
    {rest : List Alias} {joins : List Join} {start stop : String}
    (hlength : rest.length = joinedCount relations)
    (h : s.joins options relations (source :: rest) = .ok joins)
    (hleads : Relation.Leads start relations stop) :
    Join.Binds (source, start) rest (stepsAlong relations) joins := by
  have hsteps := steps_of_joins hlength h
  refine ⟨map_target_joins hlength h, ?_, ?_, (leads_joins hlength h hleads).sources_eq⟩
  · have htables := congrArg (List.map Prod.fst) hsteps
    rwa [List.map_map, List.map_map] at htables
  · have hfields := congrArg (List.map Prod.snd) hsteps
    rwa [List.map_map, List.map_map] at hfields

theorem exists_of_joinFilter_eq_error {options : JoinOptions} {r : Relation} {target : Alias}
    {e : Error} (h : s.joinFilter options r target = .error e) : options.withFilters = true ∧
      ∃ filter, r.targetFilter = some filter ∧ s.rowCondition target filter = .error e := by
  rw [joinFilter] at h
  split at h
  · rename_i filter hfilter hwith
    exact ⟨hwith, filter, hfilter, map_eq_error h⟩
  · simp at h

/-- Joins fail only over the condition of a relation that cannot be lowered. -/
theorem exists_of_joins_eq_error : ∀ {relations : List Relation} {options : JoinOptions}
    {names : List Alias} {e : Error}, s.joins options relations names = .error e →
      options.withFilters = true ∧ ∃ r ∈ relations, ∃ filter, r.targetFilter = some filter ∧
        ∃ name, s.rowCondition name filter = .error e
  | [], _, names, e, h => by simp [joins] at h
  | r :: relations, options, names, e, h => by
    -- the target of the first relation cannot be joined, or one behind it
    have hfails : ∀ {target more} {f : Option RowCondition → List Join → List Join},
        (do
          let filter ← s.joinFilter options r target
          let others ← s.joins { options with restriction := none } relations (target :: more)
          return f filter others : Except Error (List Join)) = .error e →
        options.withFilters = true ∧ ∃ r' ∈ r :: relations, ∃ filter,
          r'.targetFilter = some filter ∧ ∃ name, s.rowCondition name filter = .error e := by
      intro target more f h
      rcases bind_eq_error.1 h with h | ⟨filter, -, h⟩
      · obtain ⟨hwith, filter, hfilter, herror⟩ := exists_of_joinFilter_eq_error h
        exact ⟨hwith, r, List.mem_cons_self, filter, hfilter, target, herror⟩
      · rcases bind_eq_error.1 h with h | ⟨others, -, h⟩
        · obtain ⟨hwith, r', hr', hrest⟩ := exists_of_joins_eq_error h
          exact ⟨hwith, r', List.mem_cons_of_mem _ hr', hrest⟩
        · simp [pure, Except.pure] at h
    rcases names with _ | ⟨source, rest⟩
    · simp [joins] at h
    cases hj : r.junction with
    | none =>
      rcases rest with _ | ⟨target, more⟩
      · simp [joins, hj] at h
      · simp only [joins, hj] at h
        exact hfails
          (f := fun filter others => directJoin options r source target filter :: others) h
    | some junction =>
      rcases rest with _ | ⟨middle, _ | ⟨target, more⟩⟩
      · simp [joins, hj] at h
      · simp [joins, hj] at h
      · simp only [joins, hj] at h
        exact hfails (f := fun filter others =>
          junctionJoins options r junction source middle target filter ++ others) h

/-- What a join says besides the equality of its columns is a condition on the rows of its
target. -/
theorem compares_of_mem_joins {relations : List Relation} {options : JoinOptions} {source : Alias}
    {rest : List Alias} {joins : List Join} (hlength : rest.length = joinedCount relations)
    (h : s.joins options relations (source :: rest) = .ok joins) (s' : Storage) {j : Join}
    (hj : j ∈ joins) : j.Compares s' := by
  cases hfilter : j.filter with
  | none =>
    refine ⟨[], Sql.namesOnly_nil, ?_⟩
    simp [Join.sql, hfilter]
  | some condition =>
    obtain ⟨-, -, -, filter, -, hcondition, -⟩ :=
      relation_of_filter_of_joins hlength h j hj condition hfilter
    refine ⟨Sql.around " AND (" (s'.rowConditionSql condition) ")",
      Sql.namesOnly_around.2 (namesOnly_rowCondition hcondition s'), ?_⟩
    simp [Join.sql, hfilter]

end Storage

/-! ## Selected expressions -/

theorem tableAliases_subset {relations : List Relation} {name : Alias} {names : List Alias}
    (hlength : names.length = joinedCount relations) :
    tableAliases relations (name :: names) ⊆ name :: names := by
  rw [tableAliases_eq_filter relations name hlength]
  refine List.cons_subset_cons _ fun other hother => ?_
  obtain ⟨pair, hpair, rfl⟩ := List.mem_map.1 hother
  exact (List.of_mem_zip (List.mem_filter.1 hpair).1).1

/-- A group takes its keys and columns from tables with some aliases, the root table among them. -/
structure JoinGroup.Within (names : List Alias) (group : JoinGroup) : Prop where
  root_mem : outerRoot ∈ names
  keys_mem : ∀ key ∈ group.keys, key.table ∈ names
  leaf_mem : group.leaf ∈ names

/-- The group of a chain takes its keys and columns from the tables that are joined. -/
theorem within_of_ofChain {s : Storage} {restriction : Option Sql} {chain : List Table}
    {table : Table} {group : JoinGroup}
    (h : JoinGroup.ofChain s restriction chain table = .ok group) :
    group.Within (aliasChain 0 table.relations) := by
  obtain ⟨joins, -, hgroup⟩ := bind_eq_ok.1 h
  obtain rfl := pure_eq_ok.1 hgroup
  obtain ⟨rest, hnames, hrest⟩ := aliasChain_eq_cons 0 table.relations
  have hroot : outerRoot ∈ aliasChain 0 table.relations := by
    rw [hnames]
    exact List.mem_cons_self
  have hown : tableAliases table.relations (aliasChain 0 table.relations) ⊆
      aliasChain 0 table.relations := by
    rw [hnames]
    exact tableAliases_subset hrest
  refine ⟨hroot, fun key hkey => ?_, ?_⟩
  · obtain ⟨⟨t, name⟩, hpair, rfl⟩ := List.mem_map.1 hkey
    exact hown (List.of_mem_zip hpair).2
  · cases hlast : (tableAliases table.relations (aliasChain 0 table.relations)).getLast? with
    | none => simpa [hlast] using hroot
    | some name => simpa [hlast] using hown (List.mem_of_getLast? hlast)

theorem JoinGroup.namesOnly_selectColumn {names : List Alias} {table : Alias}
    (h : table ∈ names) (s : Storage) (column : Column) :
    Sql.NamesOnly names (selectColumn s table column) := by
  rw [selectColumn]
  cases column.kind with
  | spatial => cases hd : s.dialect <;> simp [Dialect.geometryText, h]
  | temporal => cases hd : s.dialect <;> simp [Dialect.timeText, h]
  | date => cases hd : s.dialect <;> simp [Dialect.dateText, h]
  | _ => simp [h]

/-- What a statement selects names the tables of its group. -/
theorem RowsStatement.namesOnly_select {names : List Alias} {r : RowsStatement}
    (h : r.group.Within names) (s : Storage) :
    ∀ part ∈ r.select s, Sql.NamesOnly names part := by
  intro part hpart
  rw [select, List.mem_append, List.mem_append] at hpart
  rcases hpart with (hpart | hpart) | hpart
  · obtain ⟨⟨key, index⟩, -, rfl⟩ := List.mem_map.1 hpart
    simp [ReaderKey.select, h.root_mem]
  · obtain ⟨⟨key, index⟩, hkey, rfl⟩ := List.mem_map.1 hpart
    have htable := h.keys_mem key (List.fst_mem_of_mem_zipIdx hkey)
    cases hunique : key.isUnique <;> simp [ChainKey.select, hunique, htable]
  · obtain ⟨column, -, rfl⟩ := List.mem_map.1 hpart
    exact JoinGroup.namesOnly_selectColumn h.leaf_mem s column

/-- A statement is one of the group it is made for. -/
theorem group_of_rowsStatement {s : Storage} {window : Window} {group : JoinGroup}
    {r : RowsStatement} (h : s.rowsStatement window group = .ok r) : r.group = group := by
  obtain ⟨keys, -, h⟩ := bind_eq_ok.1 h
  obtain ⟨restriction, -, h⟩ := bind_eq_ok.1 h
  dsimp only at h
  split at h
  · rw [← pure_eq_ok.1 h]
  · split at h
    · rw [← pure_eq_ok.1 h]
    · rw [← pure_eq_ok.1 h]

/-! ## Chains of a derived tree -/

/-- Relations lead to the target of the last one. -/
theorem Relation.Leads.getLast?_eq {start stop : String} {relations : List Relation}
    (h : Relation.Leads start relations stop) :
    (start :: relations.map Relation.targetTable).getLast? = some stop := by
  induction h with
  | nil table => rfl
  | cons r _ ih => rw [List.map_cons, List.getLast?_cons_cons, ih]

namespace TableTree

/-- The tables of a chain are the root table and the targets of the relations of the last one. -/
theorem IsDerived.names_chain {tree : TableTree} (htree : tree.IsDerived)
    {chain : List (Nat × Table)} (hchain : chain ∈ tree.numberedChains) :
    chain.map (fun e => e.2.name) =
      tree.root.name :: (lastEntry chain).2.relations.map Relation.targetTable := by
  have hlength : chain.length = (lastEntry chain).2.relations.length + 1 := by
    obtain ⟨before, k, table, rfl, hbefore, -⟩ := length_of_mem_numberedChains htree hchain
    rw [lastEntry_concat, ← hbefore, List.length_append]
    rfl
  refine List.ext_getElem (by simpa using hlength) fun i hi _ => ?_
  rw [List.length_map] at hi
  have hentry := List.getElem?_eq_getElem hi
  -- a table is where the relations in front of it lead
  have hleads := (htree.leads _ (htree.table_mem hchain (List.getElem_mem hi))).getLast?_eq
  rw [htree.relations_eq_take hchain hentry, List.map_take, ← List.take_succ_cons,
    List.getLast?_take, if_neg (Nat.succ_ne_zero i), Nat.add_sub_cancel,
    List.getElem?_eq_getElem (by simp; omega), Option.some_or] at hleads
  rw [List.getElem_map]
  exact (Option.some.inj hleads).symm

/-- Every table is the last one of a chain. -/
theorem IsDerived.exists_chain {tree : TableTree} (htree : tree.IsDerived) {table : Table}
    (h : table ∈ tree.tables) : ∃ chain ∈ tree.chains, chain.getLast? = some table := by
  obtain ⟨k, hk⟩ := List.mem_iff_getElem?.1 h
  have hentry : (k, table) ∈ tree.numberedChains.map lastEntry := by
    rw [map_lastEntry_numberedChains]
    exact List.mem_map.2 ⟨(table, k), List.mk_mem_zipIdx_iff_getElem?.2 hk, rfl⟩
  obtain ⟨chain, hchain, hlast⟩ := List.mem_map.1 hentry
  obtain ⟨before, k', last, rfl, -, -⟩ := length_of_mem_numberedChains htree hchain
  rw [lastEntry_concat] at hlast
  obtain ⟨rfl, rfl⟩ := Prod.mk.inj hlast
  refine ⟨(before ++ [(k', last)]).map Prod.snd, ?_, by simp⟩
  rw [← tables_numberedChains]
  exact List.mem_map_of_mem hchain

end TableTree

/-- What is known of the aliases of the chain to a table, in the select that stands `depth` levels
inside the statement. -/
structure BindsChain (s : Storage) (chain : List Table) (table : Table) (depth : Nat) : Prop where
  length_eq : (aliasChain depth table.relations).length =
    1 + (table.relations.map Relation.tableCount).sum
  nodup_texts : ∀ level, ((aliasChain depth table.relations).map (Alias.text level)).Nodup
  /-- One alias is kept for each table of the chain, the one that is bound to it. -/
  length_tableAliases : (tableAliases table.relations (aliasChain depth table.relations)).length =
    chain.length
  tableAliases_eq : (tableAliases table.relations (aliasChain depth table.relations)).zip
      (chain.map Table.name) = (.slot depth 0, s.root.name) ::
    (((aliasChain depth table.relations).tail.zip (stepsAlong table.relations)).filter
      fun p => !p.2.isJunction).map fun p => (p.1, p.2.table)
  /-- Every alias behind the first is bound by one join, or some condition cannot be lowered. -/
  joins_cases : ∀ options : JoinOptions,
    (∃ joins, s.joins options table.relations (aliasChain depth table.relations) = .ok joins ∧
      Join.Binds (.slot depth 0, s.root.name) (aliasChain depth table.relations).tail
        (stepsAlong table.relations) joins ∧ ∀ j ∈ joins, j.Compares s) ∨
    options.withFilters = true ∧ ∃ r ∈ table.relations, ∃ filter, r.targetFilter = some filter ∧
      ∃ name e, s.rowCondition name filter = .error e ∧
        s.joins options table.relations (aliasChain depth table.relations) = .error e

/-- The aliases of a group: its joins bind those of the chain to its table, each join compares
columns of two tables of the chain, and what is selected names tables of the chain. -/
structure JoinGroup.IsBound (s : Storage) (table : Table) (group : JoinGroup) : Prop where
  path_eq : group.path = table.path
  binds : Join.Binds (outerRoot, s.root.name) (aliasChain 0 table.relations).tail
    (stepsAlong table.relations) group.joins
  compares : ∀ j ∈ group.joins, j.Compares s ∧ j.source.name ∈ aliasChain 0 table.relations ∧
    j.target.name ∈ aliasChain 0 table.relations
  selects : ∀ window r, s.rowsStatement window group = .ok r → r.group = group ∧
    ∀ part ∈ r.select s, Sql.NamesOnly (aliasChain 0 table.relations) part

theorem bindsChain {s : Storage} (htree : s.tree.IsDerived) {chain : List Table} {table : Table}
    (hchain : chain ∈ s.tree.chains) (hlast : chain.getLast? = some table) (depth : Nat) :
    BindsChain s chain table depth := by
  rw [← TableTree.tables_numberedChains] at hchain
  obtain ⟨numbered, hnumbered, rfl⟩ := List.mem_map.1 hchain
  obtain ⟨before, k, last, rfl, hbefore, hmem⟩ :=
    TableTree.length_of_mem_numberedChains htree hnumbered
  obtain rfl : last = table := by simpa using hlast
  have hnames := htree.names_chain hnumbered
  rw [TableTree.lastEntry_concat, ← targets_stepsAlong] at hnames
  obtain ⟨rest, haliases, hrest⟩ := aliasChain_eq_cons depth last.relations
  refine ⟨?_, fun level => nodup_aliasChain_text level depth _, ?_, ?_, fun options => ?_⟩
  · rw [length_aliasChain, joinedCount_eq_sum, Nat.add_comm]
  · rw [length_tableAliases _ _ (by rw [length_aliasChain, Nat.add_comm]), List.length_map,
      List.length_append, hbefore]
    rfl
  · -- the tables of the chain are those that the relations lead to, without the junctions
    have hchainNames : (List.map Prod.snd (before ++ [(k, last)])).map Table.name =
        (before ++ [(k, last)]).map fun e => e.2.name := List.map_map
    have hkept : (stepsAlong last.relations).filter (fun t => !t.isJunction) =
        ((rest.zip (stepsAlong last.relations)).filter fun p => !p.2.isJunction).map Prod.snd := by
      have hzip : (rest.zip (stepsAlong last.relations)).map Prod.snd = stepsAlong last.relations :=
        List.map_snd_zip (Nat.le_of_eq ((length_stepsAlong _).trans hrest.symm))
      conv_lhs => rw [← hzip, List.filter_map]
      rfl
    rw [hchainNames, hnames, haliases, tableAliases_eq_filter _ _ hrest, List.zip_cons_cons,
      hkept, List.map_map, List.zip_map']
    rfl
  · -- joins fail only with a filter
    rw [haliases]
    cases hjoins : s.joins options last.relations (.slot depth 0 :: rest) with
    | ok joins =>
      exact Or.inl ⟨joins, rfl, Storage.binds_joins hrest hjoins (htree.leads last hmem),
        fun j hj => Storage.compares_of_mem_joins hrest hjoins s hj⟩
    | error e =>
      obtain ⟨hwith, r, hr, filter, hfilter, name, herror⟩ :=
        Storage.exists_of_joins_eq_error hjoins
      exact Or.inr ⟨hwith, r, hr, filter, hfilter, name, e, herror, rfl⟩

theorem isBound_of_mem_groups {s : Storage} (htree : s.tree.IsDerived) {groups : List JoinGroup}
    (h : ReadPlan.groupsOf s = .ok groups) {group : JoinGroup} (hgroup : group ∈ groups) :
    ∃ table ∈ s.tree.tables, group.IsBound s table := by
  obtain ⟨restriction, before, k, table, -, -, htable, hmade⟩ :=
    exists_ofChain_of_mem_groups htree h hgroup
  have hwithin := within_of_ofChain hmade
  obtain ⟨joins, hjoins, hgroup⟩ := bind_eq_ok.1 hmade
  obtain rfl := pure_eq_ok.1 hgroup
  obtain ⟨rest, haliases, hrest⟩ := aliasChain_eq_cons 0 table.relations
  rw [haliases] at hjoins
  have hbinds := Storage.binds_joins hrest hjoins (htree.leads table htable)
  refine ⟨table, htable, rfl, ?_, fun j hj => ?_, ?_⟩
  · rw [haliases]
    exact hbinds
  · obtain ⟨hsource, htarget⟩ := hbinds.mem_names hj
    rw [haliases]
    exact ⟨Storage.compares_of_mem_joins hrest hjoins s hj, hsource,
      List.mem_cons_of_mem _ htarget⟩
  · intro window r hr
    have hsame := group_of_rowsStatement hr
    exact ⟨hsame, RowsStatement.namesOnly_select (hsame ▸ hwithin) s⟩

/-- Every alias is bound once and used in its scope. -/
theorem aliases_bound {s : Storage} (htree : s.tree.IsDerived) :
    (∀ table ∈ s.tree.tables, ∃ chain ∈ s.tree.chains, chain.getLast? = some table) ∧
    (∀ chain ∈ s.tree.chains, ∀ table, chain.getLast? = some table → ∀ depth,
      BindsChain s chain table depth) ∧
    ∀ featureType countsMatched plan, ReadPlan.ofStorage featureType s countsMatched = .ok plan →
      ∀ group ∈ plan.groups, ∃ table ∈ s.tree.tables, group.IsBound s table := by
  refine ⟨fun table htable => htree.exists_chain htable,
    fun chain hchain table hlast depth => bindsChain htree hchain hlast depth, ?_⟩
  intro featureType countsMatched plan hplan group hgroup
  obtain ⟨groups, hgroups, hplan⟩ := bind_eq_ok.1 hplan
  obtain rfl := pure_eq_ok.1 hplan
  exact isBound_of_mem_groups htree hgroups hgroup

/-- The labels of tags, which are reached over a junction: four tables are joined one level inside a
statement, the junction is passed over, and the group of the labels binds three aliases behind the
root table. -/
theorem aliases_bound_labels :
    let paths := ["parcel/[id=parcel_id]parcel_2_tag/[tag_id=id]tag/[id=tag_id]label/text"]
    ∃ tree chain table plan group, TableTree.ofPaths paths = .ok tree ∧ tree.IsDerived ∧
      chain ∈ tree.chains ∧ chain.getLast? = some table ∧
      chain.map Table.name = ["parcel", "tag", "label"] ∧
      (aliasChain 1 table.relations).map (Alias.text 0) = ["AA", "AB", "AC", "AD"] ∧
      (tableAliases table.relations (aliasChain 1 table.relations)).map (Alias.text 0) =
        ["AA", "AC", "AD"] ∧
      BindsChain (.plain tree .postgis) chain table 1 ∧
      ReadPlan.ofStorage "parcel" (.plain tree .postgis) false = .ok plan ∧ group ∈ plan.groups ∧
      group.joins.map (fun j => (j.target.name.text 0, j.target.table)) =
        [("B", "parcel_2_tag"), ("C", "tag"), ("D", "label")] ∧
      ∃ table ∈ tree.tables, group.IsBound (.plain tree .postgis) table := by
  intro paths
  have hcomputed : (do
      let tree ← (TableTree.ofPaths paths).toOption
      let plan ← (ReadPlan.ofStorage "parcel" (.plain tree .postgis) false).toOption
      let chain ← tree.chains.getLast?
      let table ← chain.getLast?
      let group ← plan.groups.getLast?
      let names := aliasChain 1 table.relations
      return (chain.map Table.name, names.map (Alias.text 0),
        (tableAliases table.relations names).map (Alias.text 0),
        group.joins.map fun j => (j.target.name.text 0, j.target.table)) :
        Option (List String × List String × List String × List (String × String))) =
      some (["parcel", "tag", "label"], ["AA", "AB", "AC", "AD"], ["AA", "AC", "AD"],
        [("B", "parcel_2_tag"), ("C", "tag"), ("D", "label")]) := by
    decide +kernel
  obtain ⟨tree, htree, hok⟩ := Option.bind_eq_some_iff.1 hcomputed
  obtain ⟨plan, hplan, hok⟩ := Option.bind_eq_some_iff.1 hok
  obtain ⟨chain, hchain, hok⟩ := Option.bind_eq_some_iff.1 hok
  obtain ⟨table, hlast, hok⟩ := Option.bind_eq_some_iff.1 hok
  obtain ⟨group, hgroup, hok⟩ := Option.bind_eq_some_iff.1 hok
  obtain ⟨hnames, hok⟩ := Prod.mk.inj (Option.some.inj hok)
  obtain ⟨haliases, hok⟩ := Prod.mk.inj hok
  obtain ⟨hkept, hjoins⟩ := Prod.mk.inj hok
  rw [toOption_eq_some] at htree hplan
  have hchainMem := List.mem_of_getLast? hchain
  have hderived := TableTree.isDerived_of_ofPaths htree
  obtain ⟨-, hbinds, hgroups⟩ := aliases_bound (s := .plain tree .postgis) hderived
  exact ⟨tree, chain, table, plan, group, htree, hderived, hchainMem, hlast, hnames, haliases,
    hkept, hbinds chain hchainMem table hlast 1, hplan, List.mem_of_getLast? hgroup, hjoins,
    hgroups "parcel" false plan hplan group (List.mem_of_getLast? hgroup)⟩

end FeatureStore
