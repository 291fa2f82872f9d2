import FeatureStore.Proofs.Read.Layout
import FeatureStore.Proofs.Sql.References
import FeatureStore.Proofs.Sql.Selected

/-!
# Joins shared by filters and reads

A table that is joined is reached in two ways: by the statement that reads its rows, and by the
sub-select of a condition on its columns. Both join along the same relations, the sub-select one
level further inside and on keys alone (`Storage.joins_inward`). So the clauses of the two are the
same exactly if no relation on the way carries a condition on its rows (`listSql_inward_eq_iff`),
and then a root row fulfils a condition on the table only through rows that the read shows
(`showsJoins_of_groups`).
-/

set_option autoImplicit false

namespace FeatureStore

/-! ## Moving aliases inward -/

/-- The alias that a table has one level further inside. -/
def Alias.inward : Alias → Alias
  | .slot depth index => .slot (depth + 1) index
  | .named name => .named name

theorem Alias.inward_inj {a b : Alias} (h : a.inward = b.inward) : a = b := by
  cases a with
  | slot depth index =>
    cases b with
    | slot depth' index' => simpa [inward] using h
    | named name => simp [inward] at h
  | named name =>
    cases b with
    | slot depth index => simp [inward] at h
    | named name' => simpa [inward] using h

theorem map_inward_aliasChain (depth : Nat) (relations : List Relation) :
    (aliasChain depth relations).map Alias.inward = aliasChain (depth + 1) relations := by
  rw [aliasChain, aliasChain, List.map_map]
  rfl

namespace Sql

theorem nested_append (a b : Sql) : nested (a ++ b) = nested a ++ nested b := List.map_append

theorem nested_alias (name : Alias) (sql : Sql) :
    nested (.alias name :: sql) = .alias name.inward :: nested sql := by
  cases name <;> rfl

theorem nested_text (text : String) (sql : Sql) :
    nested (.text text :: sql) = .text text :: nested sql := rfl

theorem nested_nil : nested [] = [] := rfl

theorem nested_column (table : Alias) (name : String) :
    nested (column table name) = column table.inward name := nested_alias table _

theorem nested_separated (sep : String) (parts : List Sql) :
    nested (separated sep parts) = separated sep (parts.map nested) := by
  induction parts with
  | nil => rfl
  | cons part parts ih =>
    cases parts with
    | nil => rfl
    | cons other parts =>
      rw [separated_cons_cons, nested_append, nested_text, ih]
      rfl

end Sql

/-! ## Joins on keys alone -/

/-- The same join one level further inside and on keys alone. -/
def Join.inward (j : Join) : Join :=
  .onKeys j.kind ⟨j.source.table, j.source.name.inward, j.source.field⟩
    ⟨j.target.table, j.target.name.inward, j.target.field⟩

namespace Storage

variable {s : Storage}

/-- Along the same relations the same tables are joined on the same keys, whatever is added to the
joins. -/
theorem joins_inward (s' : Storage) : ∀ {relations : List Relation} {options : JoinOptions}
    {source : Alias} {rest : List Alias} {joins : List Join}, rest.length = joinedCount relations →
      s.joins options relations (source :: rest) = .ok joins →
        s'.joins .keysOnly relations ((source :: rest).map Alias.inward) =
          .ok (joins.map Join.inward)
  | [], _, _, rest, joins, hlength, h => by
    obtain rfl : [] = joins := Except.ok.inj h
    rfl
  | r :: relations, options, source, rest, joins, hlength, h => by
    obtain ⟨target, more, filter, others, hmore, -, hothers, hcases⟩ := joins_cons_cases hlength h
    have ih := joins_inward s' hmore hothers
    have hfilter : s'.joinFilter .keysOnly r target.inward = .ok none :=
      joinFilter_of_withFilters rfl r target.inward
    rcases hcases with ⟨hj, rfl, rfl⟩ | ⟨junction, middle, hj, rfl, rfl⟩
    · simp only [List.map_cons, joins, hj]
      exact bind_eq_ok.2 ⟨none, hfilter, bind_eq_ok.2 ⟨_, ih, rfl⟩⟩
    · simp only [List.map_cons, joins, hj]
      exact bind_eq_ok.2 ⟨none, hfilter, bind_eq_ok.2 ⟨_, ih, rfl⟩⟩

theorem joinFilter_eq_none_iff {options : JoinOptions} {r : Relation} {target : Alias}
    {filter : Option RowCondition} (hoptions : options.withFilters = true)
    (h : s.joinFilter options r target = .ok filter) :
    filter = none ↔ r.targetFilter = none := by
  rw [joinFilter, hoptions] at h
  cases hfilter : r.targetFilter with
  | none =>
    rw [hfilter] at h
    obtain rfl := Except.ok.inj h
    simp
  | some given =>
    rw [hfilter] at h
    obtain ⟨condition, -, rfl⟩ := map_eq_ok.1 h
    simp

/-- A read adds nothing to its joins exactly if no relation carries a condition. -/
theorem forall_isPlain_iff : ∀ {relations : List Relation} {options : JoinOptions} {source : Alias}
    {rest : List Alias} {joins : List Join}, options.withFilters = true →
      rest.length = joinedCount relations →
      s.joins options relations (source :: rest) = .ok joins →
        ((∀ j ∈ joins, j.filter = none) ↔ ∀ r ∈ relations, r.targetFilter = none) ∧
          ((∀ r ∈ relations, r.targetFilter = none) → ∀ j ∈ joins, j.IsPlain)
  | [], _, _, rest, joins, _, hlength, h => by
    obtain rfl : [] = joins := Except.ok.inj h
    simp
  | r :: relations, options, source, rest, joins, hoptions, hlength, h => by
    obtain ⟨target, more, filter, others, hmore, hfilter, hothers, hcases⟩ :=
      joins_cons_cases hlength h
    have hwith : { options with restriction := none }.withFilters = true := hoptions
    obtain ⟨hiff, hplain⟩ := forall_isPlain_iff hwith hmore hothers
    have hnone := joinFilter_eq_none_iff hoptions hfilter
    have hnumbered : r.targetFilter = none → (options.withFilters && r.usesPosition) = false := by
      intro hr
      rw [Relation.usesPosition, hr]
      simp
    rw [List.forall_mem_cons, ← hiff, ← hnone]
    rcases hcases with ⟨-, rfl, rfl⟩ | ⟨junction, middle, -, rfl, rfl⟩
    · refine ⟨List.forall_mem_cons, ?_⟩
      rintro ⟨hown, hrest⟩
      exact List.forall_mem_cons.2 ⟨⟨hown, hnumbered (hnone.1 hown)⟩, hplain (hiff.1 hrest)⟩
    · -- the join of the junction never has a condition
      refine ⟨?_, ?_⟩
      · rw [junctionJoins, List.cons_append, List.cons_append, List.nil_append,
          List.forall_mem_cons, List.forall_mem_cons]
        exact and_iff_right rfl
      · rintro ⟨hown, hrest⟩
        refine List.forall_mem_cons.2 ⟨⟨rfl, rfl⟩, ?_⟩
        exact List.forall_mem_cons.2 ⟨⟨hown, hnumbered (hnone.1 hown)⟩, hplain (hiff.1 hrest)⟩

end Storage

/-! ## Clauses -/

namespace Join

variable (s : Storage)

/-- The clause of a join without conditions is that on keys alone. -/
theorem nested_sql_of_isPlain {j : Join} (h : j.IsPlain) :
    Sql.nested (j.sql s) = j.inward.sql s := by
  rw [sql, sql, targetSql, targetSql, h.1, h.2]
  simp only [Bool.false_eq_true, if_false, List.cons_append, List.append_assoc, Sql.nested_text,
    Sql.nested_append, Sql.nested_alias, Sql.nested_column]
  rfl

end Join

/-- The length of a text at a level. -/
def Sql.textLength (level : Nat) (sql : Sql) : Nat := (sql.render level).length

namespace Sql

variable {level : Nat}

theorem textLength_append (a b : Sql) :
    textLength level (a ++ b) = textLength level a + textLength level b := by
  rw [textLength, render_append, String.length_append]
  rfl

theorem textLength_cons (piece : Piece) (sql : Sql) :
    textLength level (piece :: sql) = (piece.render level).length + textLength level sql := by
  rw [textLength, render_cons, String.length_append]
  rfl

theorem textLength_text (text : String) (sql : Sql) :
    textLength level (.text text :: sql) = text.length + textLength level sql :=
  textLength_cons _ _

end Sql

namespace Join

variable (s : Storage) (level : Nat)

/-- A sub-select that numbers rows names the table whose rows it numbers. -/
theorem length_table_le_targetSql (j : Join) :
    j.target.table.length ≤ Sql.textLength level (Sql.nested j.targetSql) := by
  rw [targetSql]
  split
  · simp only [Sql.around, List.cons_append, Sql.nested_text, Sql.textLength_text,
      String.length_append]
    omega
  · rw [Sql.ofText, Sql.nested_text, Sql.textLength_text]
    exact Nat.le_add_right _ _

/-- A condition makes the clause of a join longer. -/
theorem textLength_inward_le (j : Join) :
    Sql.textLength level (j.inward.sql s) + (if j.filter.isSome then 1 else 0) ≤
      Sql.textLength level (Sql.nested (j.sql s)) := by
  have htarget := length_table_le_targetSql level j
  have hinward : j.inward.targetSql = Sql.ofText j.target.table := rfl
  rw [sql, sql, hinward]
  cases hfilter : j.filter with
  | none =>
    simp only [inward, onKeys, Sql.ofText, List.cons_append, List.append_assoc, List.nil_append,
      Sql.nested_nil, Sql.nested_text, Sql.nested_append, Sql.nested_alias, Sql.nested_column,
      Sql.textLength_append, Sql.textLength_cons, Piece.render, Option.isSome_none,
      Bool.false_eq_true, if_false]
    omega
  | some condition =>
    simp only [inward, onKeys, Sql.ofText, List.cons_append, List.append_assoc, List.nil_append,
      Sql.around, Sql.nested_nil, Sql.nested_text, Sql.nested_append, Sql.nested_alias,
      Sql.nested_column, Sql.textLength_append, Sql.textLength_cons, Piece.render,
      Option.isSome_some, if_true]
    have hopen : 0 < (" AND (" : String).length := by decide
    omega

/-- The clauses of some joins get longer with every condition. -/
theorem textLength_listSql_inward_le (joins : List Join) :
    Sql.textLength level (listSql s (joins.map inward)) + joins.countP (·.filter.isSome) ≤
      Sql.textLength level (Sql.nested (listSql s joins)) := by
  rw [listSql, listSql, Sql.nested_separated, List.map_map, List.map_map]
  induction joins with
  | nil => simp
  | cons j joins ih =>
    have hj := textLength_inward_le s level j
    rw [List.countP_cons]
    cases joins with
    | nil =>
      simp only [List.map_cons, List.map_nil, Sql.separated, Function.comp_apply, List.countP_nil]
      omega
    | cons k joins =>
      simp only [List.map_cons, Sql.separated_cons_cons, Function.comp_apply,
        Sql.textLength_append, Sql.textLength_text] at ih ⊢
      omega

/-- The clauses on keys alone are those with conditions exactly if there is no condition. -/
theorem listSql_inward_eq_iff {joins : List Join}
    (hplain : (∀ j ∈ joins, j.filter = none) → ∀ j ∈ joins, j.IsPlain) :
    (listSql s (joins.map inward)).render level = (Sql.nested (listSql s joins)).render level ↔
      ∀ j ∈ joins, j.filter = none := by
  constructor
  · intro heq
    have hle := textLength_listSql_inward_le s level joins
    rw [Sql.textLength, Sql.textLength, heq] at hle
    have hcount : joins.countP (·.filter.isSome) = 0 := by omega
    intro j hj
    have hnone := List.countP_eq_zero.1 hcount j hj
    exact Option.not_isSome_iff_eq_none.1 hnone
  · intro hnone
    congr 1
    rw [listSql, listSql, Sql.nested_separated, List.map_map, List.map_map]
    congr 1
    exact List.map_congr_left fun j hj => (nested_sql_of_isPlain s (hplain hnone j hj)).symm

end Join

/-! ## Rows that joins find -/

namespace Database

variable (d : Database)

/-- The same rows stand under the aliases one level further inside. -/
def MovedInward (outer inner : d.Found) : Prop := ∀ name, inner name.inward = outer name

/-- A column tells the rows of a table apart. -/
def IsKey (table column : String) : Prop :=
  ∀ a ∈ d.rows (Sql.ofText table), ∀ b ∈ d.rows (Sql.ofText table),
    d.cell a column = d.cell b column → a = b

variable {d} {outer inner : d.Found}

theorem MovedInward.update (h : d.MovedInward outer inner) (name : Alias) (row : Option d.Row) :
    d.MovedInward (Function.update outer name row) (Function.update inner name.inward row) := by
  intro other
  by_cases hname : other = name
  · subst hname
    rw [Function.update_self, Function.update_self]
  · rw [Function.update_of_ne hname, Function.update_of_ne fun heq => hname (Alias.inward_inj heq)]
    exact h other

theorem movedInward_start (name : Alias) (row : d.Row) :
    d.MovedInward (d.start name row) (d.start name.inward row) :=
  MovedInward.update (fun _ => rfl) name (some row)

/-- One join finds the same rows one level further inside. -/
theorem exists_extend_outward {j : Join} (hplain : j.IsPlain) (h : d.MovedInward outer inner)
    {next : d.Found} (hnext : next ∈ d.extend j.inward inner) :
    ∃ found ∈ d.extend j outer, d.MovedInward found next := by
  -- moving inward changes aliases only: the table and the condition stay
  have htarget : j.inward.targetSql = j.targetSql := by
    rw [Join.targetSql, Join.targetSql, hplain.2]
    rfl
  have hmeets : d.meets j.inward inner = d.meets j outer := by
    funext row
    have hsource : inner j.inward.source.name = outer j.source.name := h _
    rw [meets, meets, hsource, hplain.1]
    rfl
  rw [extend, htarget, hmeets] at hnext
  rw [extend]
  split at hnext
  · rename_i hrows hkind
    have hkind : j.kind = .left := hkind
    simp only [hrows, hkind]
    obtain rfl := List.mem_singleton.1 hnext
    exact ⟨_, List.mem_singleton_self _, h.update _ _⟩
  · rename_i partners hpartners
    split
    · rename_i hrows hkind
      exact absurd hkind (hpartners hrows)
    · obtain ⟨row, hrow, rfl⟩ := List.mem_map.1 hnext
      exact ⟨_, List.mem_map_of_mem hrow, h.update _ _⟩

/-- Joins without conditions find the same rows one level further inside. -/
theorem exists_joined_outward {joins : List Join} (hplain : ∀ j ∈ joins, j.IsPlain)
    {last : d.Found} : ∀ {outer inner : d.Found}, d.MovedInward outer inner →
      last ∈ d.joined (joins.map Join.inward) inner →
        ∃ found ∈ d.joined joins outer, d.MovedInward found last := by
  induction joins with
  | nil =>
    intro outer inner h hlast
    obtain rfl := List.mem_singleton.1 hlast
    exact ⟨outer, List.mem_singleton_self _, h⟩
  | cons j joins ih =>
    intro outer inner h hlast
    obtain ⟨hj, hjoins⟩ := List.forall_mem_cons.1 hplain
    obtain ⟨next, hnext, hlast⟩ := List.mem_flatMap.1 hlast
    obtain ⟨middle, hmiddle, hmoved⟩ := exists_extend_outward hj h hnext
    obtain ⟨found, hfound, hmoved⟩ := ih hjoins hmoved hlast
    exact ⟨found, List.mem_flatMap.2 ⟨middle, hmiddle, hfound⟩, hmoved⟩

/-- A join leaves the rows under other aliases. -/
theorem extend_of_ne {j : Join} {name : Alias} (hname : j.target.name ≠ name) {found : d.Found}
    (h : found ∈ d.extend j outer) : found name = outer name := by
  rw [extend] at h
  split at h
  · obtain rfl := List.mem_singleton.1 h
    exact Function.update_of_ne hname.symm _ _
  · obtain ⟨row, -, rfl⟩ := List.mem_map.1 h
    exact Function.update_of_ne hname.symm _ _

theorem joined_of_ne {joins : List Join} {name : Alias} (hname : ∀ j ∈ joins, j.target.name ≠ name)
    {found : d.Found} : ∀ {outer : d.Found}, found ∈ d.joined joins outer →
      found name = outer name := by
  induction joins with
  | nil =>
    intro outer h
    rw [List.mem_singleton.1 h]
  | cons j joins ih =>
    intro outer h
    obtain ⟨hj, hjoins⟩ := List.forall_mem_cons.1 hname
    obtain ⟨next, hnext, h⟩ := List.mem_flatMap.1 h
    rw [ih hjoins h, extend_of_ne hj hnext]

end Database

/-! ## The statement that reads a table -/

section Groups

variable {s : Storage} {groups : List JoinGroup}

/-- Every group reads a table of the tree with the joins along its relations. -/
theorem exists_joins_of_mem_groups (htree : s.tree.IsDerived)
    (h : ReadPlan.groupsOf s = .ok groups) {group : JoinGroup} (hgroup : group ∈ groups) :
    ∃ (plain : Storage) (restriction : Option Sql) (table : Table), table ∈ s.tree.tables ∧
      group.path = table.path ∧
      plain.joins ⟨true, restriction⟩ table.relations (aliasChain 0 table.relations) =
        .ok group.joins := by
  obtain ⟨restriction, _, _, table, -, -, htable, hmade⟩ :=
    exists_ofChain_of_mem_groups htree h hgroup
  obtain ⟨joins, hjoins, hmade⟩ := bind_eq_ok.1 hmade
  obtain rfl := pure_eq_ok.1 hmade
  exact ⟨_, _, table, htable, rfl, hjoins⟩

/-- Every table that a property is read from has a group. -/
theorem exists_group_of_resolve (htree : s.tree.IsDerived)
    (h : ReadPlan.groupsOf s = .ok groups) {property column : String} {table : Table}
    (hresolve : s.resolve property = .ok (table, column)) :
    ∃ group ∈ groups, group.path = table.path := by
  have hread : ∃ id, (id, table) ∈ s.tree.readTables := by
    have hmem := Storage.mem_tables_of_resolve hresolve
    obtain ⟨id, hid⟩ := List.mem_iff_getElem?.1 hmem
    rw [Storage.resolve] at hresolve
    -- a table without columns is only read if it is the root
    by_cases hcolumns : table.columns = []
    · have hroot : table = s.root := by
        split at hresolve
        · rename_i found hfound
          obtain ⟨rfl, -⟩ := Prod.mk.inj (Except.ok.inj hresolve)
          obtain ⟨other, -, hfound⟩ := List.exists_of_findSome?_eq_some hfound
          obtain ⟨c, hc, heq⟩ := Option.map_eq_some_iff.1 hfound
          obtain ⟨rfl, -⟩ := Prod.mk.inj heq
          rw [hcolumns] at hc
          simp at hc
        · split at hresolve
          · exact (Prod.mk.inj (Except.ok.inj hresolve)).1.symm
          · split at hresolve
            · exact (Prod.mk.inj (Except.ok.inj hresolve)).1.symm
            · simp at hresolve
      refine ⟨0, List.mem_filter.2 ⟨List.mem_map.2 ⟨(table, 0), ?_, rfl⟩, rfl⟩⟩
      rw [List.mem_zipIdx_iff_getElem?, hroot, TableTree.tables_eq_cons]
      rfl
    · refine ⟨id, List.mem_filter.2 ⟨List.mem_map.2 ⟨(table, id), ?_, rfl⟩, ?_⟩⟩
      · rwa [List.mem_zipIdx_iff_getElem?]
      · simp [hcolumns]
  obtain ⟨id, hid⟩ := hread
  rw [← TableTree.lastEntry_readChains htree] at hid
  obtain ⟨chain, hchain, hlast⟩ := List.mem_map.1 hid
  obtain ⟨group, hgroup, -, hof⟩ :=
    exists_left_of_forall₂ (forall₂_groupsOf htree h).flip hchain
  refine ⟨group, hgroup, ?_⟩
  rw [hof.path_eq, TableTree.lastTable_eq, hlast]

end Groups

/-! ## What a filter matches and what a read shows -/

/-- A membership reads a table as the statement of its group does: it has the same joins one level
further inside, but on keys alone. -/
structure Storage.ShowsJoins (s : Storage) (m : Membership) (table : Table) (group : JoinGroup) :
    Prop where
  joins_eq : m.joins = group.joins.map Join.inward
  /-- The clauses are the same exactly if no relation on the way carries a condition. -/
  clauses_iff : ∀ level, (Join.listSql s m.joins).render level =
      (Sql.nested (Join.listSql s group.joins)).render level ↔
    ∀ r ∈ table.relations, r.targetFilter = none
  /-- Then a row is a member only through rows that the read finds below a root row with its sort
  key, and below itself if the sort key tells the root rows apart. -/
  shown : (∀ r ∈ table.relations, r.targetFilter = none) →
    ∀ (db : Database) (row : db.Row), db.isMember m row = true →
      ∃ found ∈ db.selectFrom s.root.name outerRoot group.joins,
        db.cellAt found outerRoot s.root.sortKey = db.cell row s.root.sortKey ∧
        (row ∈ db.rows (Sql.ofText s.root.name) → db.IsKey s.root.name s.root.sortKey →
          found outerRoot = some row) ∧
        ∃ inner, db.MovedInward found inner ∧ db.keeps inner m.selection = true

theorem Storage.showsJoins {s plain : Storage} {m : Membership} {table : Table} {name : Alias}
    {group : JoinGroup} {restriction : Option Sql} (hm : m.Joins s table name)
    (hgroup : plain.joins ⟨true, restriction⟩ table.relations (aliasChain 0 table.relations) =
      .ok group.joins) : s.ShowsJoins m table group := by
  obtain ⟨rest, hrest, hlength⟩ := aliasChain_eq_cons 0 table.relations
  rw [hrest] at hgroup
  have hinward := joins_inward s hlength hgroup
  rw [← hrest, map_inward_aliasChain] at hinward
  have hjoins : m.joins = group.joins.map Join.inward :=
    Except.ok.inj (hm.generated.symm.trans hinward)
  obtain ⟨hiff, hplain⟩ := forall_isPlain_iff rfl hlength hgroup
  refine ⟨hjoins, fun level => ?_, fun hnone db row hmember => ?_⟩
  · rw [hjoins, Join.listSql_inward_eq_iff s level fun h => hplain (hiff.1 h)]
    exact hiff
  · obtain ⟨inner, hinner, hkeeps⟩ := db.exists_reached_of_isMember hmember
    obtain ⟨hinner, hkey⟩ := List.mem_filter.1 hinner
    obtain ⟨start, hstart, hinner⟩ := db.exists_start_of_mem_selectFrom hinner
    rw [hm.table_eq] at hstart
    rw [hjoins] at hinner
    obtain ⟨found, hfound, hmoved⟩ := Database.exists_joined_outward (hplain hnone)
      (Database.movedInward_start outerRoot start) hinner
    -- no join takes the alias of the root, so the row that the joins began with is still there
    have hroot : found outerRoot = some start := by
      have htargets := map_target_joins hlength hgroup
      have hnodup := nodup_aliasChain_text 0 0 table.relations
      rw [hrest, List.map_cons, List.nodup_cons] at hnodup
      have hname : ∀ j ∈ group.joins, j.target.name ≠ outerRoot := by
        intro j hj heq
        refine hnodup.1 (List.mem_map.2 ⟨j.target.name, ?_, by rw [heq]; rfl⟩)
        rw [← htargets]
        exact List.mem_map_of_mem hj
      rw [Database.joined_of_ne hname hfound]
      exact Function.update_self _ _ _
    have hcell : db.cell start s.root.sortKey = db.cell row s.root.sortKey := by
      have hcell := beq_iff_eq.1 hkey
      have hmovedRoot : inner innerRoot = found outerRoot := hmoved outerRoot
      rw [Database.cellAt, hm.sortKey_eq, hmovedRoot, hroot] at hcell
      exact hcell
    refine ⟨found, List.mem_flatMap.2 ⟨start, hstart, hfound⟩, ?_, ?_, inner, hmoved, hkeeps⟩
    · rw [Database.cellAt, hroot]
      exact hcell
    · intro hrow hunique
      rw [hroot, hunique start hstart row hrow hcell]

/-- A membership of a condition reads a table that a property of its leaf is read from. -/
theorem Storage.Renders.exists_joins {s : Storage} {leaf : Filter} {part : List FeatureAtom}
    (h : s.Renders leaf part) {m : Membership} (hm : .member m ∈ part) :
    ∃ property column table name,
      s.resolve property = .ok (table, column) ∧ m.Joins s table name := by
  cases h with
  | constant => simp at hm
  | outside => simp at hm
  | inside _ hnamed _ hjoins _ _ =>
    obtain rfl := FeatureAtom.member.inj (List.mem_singleton.1 hm)
    obtain ⟨property, -, column, hresolve⟩ := hnamed
    exact ⟨property, column, _, _, hresolve, hjoins⟩
  | elements _ _ hnamed hjoins _ _ =>
    obtain rfl := FeatureAtom.member.inj (List.mem_singleton.1 hm)
    obtain ⟨column, hresolve⟩ := hnamed
    exact ⟨_, column, _, _, hresolve, hjoins⟩

/-- Every membership that a filter compiles to joins a table as the statement that reads it does,
but on keys alone; so a filter on a table matches only what the read of that table shows if no
relation on the way carries a condition on its rows. -/
theorem showsJoins_of_groups {mapping : FeatureMapping} {s : Storage} {featureType : String}
    {counted : Bool} {plan : ReadPlan} {filter : Filter} {c : FeatureCondition}
    (h : TableTree.ofMapping mapping = .ok s.tree)
    (hplan : ReadPlan.ofStorage featureType s counted = .ok plan)
    (hc : s.featureCondition filter = .ok c) :
    ∀ m, .member m ∈ c.atoms → ∃ table ∈ s.tree.tables, (∃ name, m.Joins s table name) ∧
      (∃ group ∈ plan.groups, group.path = table.path) ∧
      ∀ group ∈ plan.groups, group.path = table.path → s.ShowsJoins m table group := by
  intro m hm
  have htree := TableTree.isDerived_of_ofMapping h
  obtain ⟨groups, hgroups, hplan⟩ := bind_eq_ok.1 hplan
  obtain rfl := pure_eq_ok.1 hplan
  obtain ⟨leaf, -, part, hrenders, hpart⟩ := Storage.exists_renders_of_mem_atoms htree hc hm
  obtain ⟨property, column, table, name, hresolve, hjoins⟩ := hrenders.exists_joins hpart
  have htable := Storage.mem_tables_of_resolve hresolve
  refine ⟨table, htable, ⟨name, hjoins⟩, exists_group_of_resolve htree hgroups hresolve, ?_⟩
  intro group hgroup hpath
  obtain ⟨plain, restriction, other, hother, hotherPath, hread⟩ :=
    exists_joins_of_mem_groups htree hgroups hgroup
  obtain rfl := List.inj_on_of_nodup_map htree.nodup_paths hother htable
    (hotherPath.symm.trans hpath)
  exact Storage.showsJoins hjoins hread

/-- The membership that a condition is, if it is one. -/
def FeatureCondition.membership? : FeatureCondition → Option Membership
  | .atom (.member m) => some m
  | _ => none

theorem FeatureCondition.membership?_eq_some {c : FeatureCondition} {m : Membership} :
    c.membership? = some m ↔ c = .atom (.member m) := by
  rw [membership?.eq_def]
  split
  · simp
  · rename_i hno
    exact ⟨fun h => absurd h (by simp), fun h => absurd h (hno m)⟩

/-- The addresses of parcels are joined alike for a filter on the city and for the read of the
cities. -/
theorem showsJoins_of_groups_cities :
    let mapping : FeatureMapping := ⟨"parcels", "parcel",
      [⟨"city", "[id=parcel_id]address/city", .value, none⟩]⟩
    ∃ (s : Storage) (plan : ReadPlan) (c : FeatureCondition),
      TableTree.ofMapping mapping = .ok s.tree ∧ ReadPlan.ofStorage "parcels" s false = .ok plan ∧
      s.featureCondition (Filter.compare .eq "city" (.text "Bonn")) = .ok c ∧
      ∃ m, .member m ∈ c.atoms ∧ ∃ table ∈ s.tree.tables, (∃ name, m.Joins s table name) ∧
        (∃ group ∈ plan.groups, group.path = table.path) ∧
        ∀ group ∈ plan.groups, group.path = table.path → s.ShowsJoins m table group := by
  intro mapping
  have hrun : (do
      let tree ← TableTree.ofMapping mapping
      let _ ← ReadPlan.ofStorage "parcels" (Storage.plain tree .postgis) false
      let c ← (Storage.plain tree .postgis).featureCondition
        (Filter.compare .eq "city" (.text "Bonn"))
      return c.membership?.isSome : Except Error Bool).toOption = some true := by
    decide +kernel
  obtain ⟨tree, htree, hrun⟩ := bind_eq_ok.1 (toOption_eq_some.1 hrun)
  obtain ⟨plan, hplan, hrun⟩ := bind_eq_ok.1 hrun
  obtain ⟨c, hc, hrun⟩ := bind_eq_ok.1 hrun
  obtain ⟨m, hm⟩ := Option.isSome_iff_exists.1 (pure_eq_ok.1 hrun)
  obtain rfl := FeatureCondition.membership?_eq_some.1 hm
  exact ⟨Storage.plain tree .postgis, plan, _, htree, hplan, hc, m, List.mem_singleton_self _,
    showsJoins_of_groups htree hplan hc m (List.mem_singleton_self _)⟩

/-- Only the main address of a parcel is read, but a filter on the city matches the parcel by any
other address: the condition on the addresses is not part of its joins. -/
theorem not_showsJoins_filtered :
    let mapping : FeatureMapping := ⟨"parcels", "parcel", [⟨"city", "[id=parcel_id]address" ++
      "\x7bfilter=\x7b\"op\":\"compare\",\"cmp\":\"eq\",\"left\":\x7b\"property\":\"kind\"\x7d," ++
      "\"right\":\x7b\"literal\":\"main\"\x7d\x7d\x7d/city", .value, none⟩]⟩
    let db := Database.ofTables [("parcel", [[("id", "1")]]),
      ("address", [[("parcel_id", "1"), ("city", "Bonn"), ("kind", "second")]])]
    ∃ (s : Storage) (plan : ReadPlan) (m : Membership) (group : JoinGroup),
      TableTree.ofMapping mapping = .ok s.tree ∧ ReadPlan.ofStorage "parcels" s false = .ok plan ∧
      s.featureCondition (Filter.compare .eq "city" (.text "Bonn")) = .ok (.atom (.member m)) ∧
      plan.groups[1]? = some group ∧
      (Join.listSql s m.joins).render 0 = "JOIN address AB ON (AA.id=AB.parcel_id)" ∧
      (Join.listSql s group.joins).render 0 =
        "JOIN address B ON (A.id=B.parcel_id AND (B.kind = 'main'))" ∧
      db.isMember m [("id", "1")] = true ∧
      (db.selectFrom "parcel" outerRoot group.joins).length = 0 := by
  intro mapping db
  have hrun : (do
      let tree ← TableTree.ofMapping mapping
      let s := Storage.plain tree .postgis
      let plan ← ReadPlan.ofStorage "parcels" s false
      let c ← s.featureCondition (Filter.compare .eq "city" (.text "Bonn"))
      let shown (group : JoinGroup) :=
        ((Join.listSql s group.joins).render 0,
          (db.selectFrom "parcel" outerRoot group.joins).length)
      let matched (m : Membership) :=
        ((Join.listSql s m.joins).render 0, db.isMember m [("id", "1")])
      return (c.membership?.map matched, plan.groups[1]?.map shown) :
        Except Error (Option (String × Bool) × Option (String × Nat))).toOption =
      some (some ("JOIN address AB ON (AA.id=AB.parcel_id)", true),
        some ("JOIN address B ON (A.id=B.parcel_id AND (B.kind = 'main'))", 0)) := by
    decide +kernel
  obtain ⟨tree, htree, hrun⟩ := bind_eq_ok.1 (toOption_eq_some.1 hrun)
  obtain ⟨plan, hplan, hrun⟩ := bind_eq_ok.1 hrun
  obtain ⟨c, hc, hrun⟩ := bind_eq_ok.1 hrun
  obtain ⟨hmatched, hshown⟩ := Prod.mk.inj (pure_eq_ok.1 hrun)
  obtain ⟨m, hm, hinside⟩ := Option.map_eq_some_iff.1 hmatched
  obtain ⟨group, hgroup, hread⟩ := Option.map_eq_some_iff.1 hshown
  rw [FeatureCondition.membership?_eq_some.1 hm] at hc
  obtain ⟨hclauses, hmember⟩ := Prod.mk.inj hinside
  obtain ⟨hreadClauses, hcount⟩ := Prod.mk.inj hread
  exact ⟨Storage.plain tree .postgis, plan, m, group, htree, hplan, hc, hgroup, hclauses,
    hreadClauses, hmember, hcount⟩

end FeatureStore
