import FeatureStore.Proofs.Table.Names
import FeatureStore.Sql.Join

/-!
# Aliases along joins

The aliases of one select differ as texts, at whatever level its statement stands
(`nodup_aliasChain_text`). The joins along the relations of a table of a derived tree lead from the
root table under the first alias of the chain to that table under the last one
(`Storage.leads_joins`): each of them starts at the table that the one before it joined, junctions
among them. Passing over the junctions does not lose the last alias (`getLast?_tableAliases`), so
the three ways of naming the table at the end agree.
-/

set_option autoImplicit false

namespace FeatureStore

/-! ## Texts of aliases -/

theorem capitalLetter_inj {i j : Nat} (h : capitalLetter i = capitalLetter j) :
    i % 26 = j % 26 := by
  have hletters : ∀ a b : Fin 26, Char.ofNat (65 + a.val) = Char.ofNat (65 + b.val) → a = b := by
    decide
  have hi : i % 26 < 26 := Nat.mod_lt i (by omega)
  have hj : j % 26 < 26 := Nat.mod_lt j (by omega)
  exact congrArg Fin.val (hletters ⟨i % 26, hi⟩ ⟨j % 26, hj⟩ h)

theorem aliasLetters_of_lt {i : Nat} (h : i < 26) : aliasLetters i = [capitalLetter i] := by
  rw [aliasLetters, if_pos h]

theorem aliasLetters_of_le {i : Nat} (h : 26 ≤ i) :
    aliasLetters i = aliasLetters (i / 26 - 1) ++ [capitalLetter i] := by
  rw [aliasLetters, if_neg (Nat.not_lt.2 h)]

theorem aliasLetters_ne_nil (i : Nat) : aliasLetters i ≠ [] := by
  rw [aliasLetters]
  split <;> simp

/-- One letter is too few from the twenty-seventh table on. -/
theorem aliasLetters_ne_singleton {i : Nat} (h : 26 ≤ i) (c : Char) : aliasLetters i ≠ [c] := by
  intro heq
  rw [aliasLetters_of_le h] at heq
  have hfront : aliasLetters (i / 26 - 1) = [] :=
    (List.append_inj' (heq.trans (List.nil_append [c]).symm) rfl).1
  exact aliasLetters_ne_nil _ hfront

/-- Tables with different indexes have different letters. -/
theorem aliasLetters_inj (i : Nat) : ∀ j, aliasLetters i = aliasLetters j → i = j := by
  induction i using Nat.strong_induction_on with
  | _ i ih =>
    intro j h
    rcases Nat.lt_or_ge i 26 with hi | hi
    · rcases Nat.lt_or_ge j 26 with hj | hj
      · rw [aliasLetters_of_lt hi, aliasLetters_of_lt hj] at h
        have hlast := capitalLetter_inj (List.cons.inj h).1
        omega
      · rw [aliasLetters_of_lt hi] at h
        exact absurd h.symm (aliasLetters_ne_singleton hj _)
    · rcases Nat.lt_or_ge j 26 with hj | hj
      · rw [aliasLetters_of_lt hj] at h
        exact absurd h (aliasLetters_ne_singleton hi _)
      · -- the last letters tell the remainders, the letters in front of them the quotients
        rw [aliasLetters_of_le hi, aliasLetters_of_le hj] at h
        obtain ⟨hfront, hlast⟩ := List.append_inj' h rfl
        have hlast := capitalLetter_inj (List.cons.inj hlast).1
        have hfront := ih (i / 26 - 1) (by omega) (j / 26 - 1) hfront
        omega

theorem aliasAt_inj {level i j : Nat} (h : aliasAt level i = aliasAt level j) : i = j := by
  rw [aliasAt, aliasAt, String.ofList_inj] at h
  exact aliasLetters_inj i j (List.append_cancel_left h)

theorem aliasAt_ne_empty (level i : Nat) : aliasAt level i ≠ "" := by
  intro h
  have hnil := congrArg String.toList h
  rw [aliasAt, String.toList_ofList] at hnil
  exact aliasLetters_ne_nil i (List.append_eq_nil_iff.1 hnil).2

/-- The aliases of one select differ as texts. -/
theorem nodup_aliasChain_text (level depth : Nat) (relations : List Relation) :
    ((aliasChain depth relations).map (Alias.text level)).Nodup := by
  rw [aliasChain, List.map_map]
  refine List.Nodup.map ?_ List.nodup_range
  intro i j h
  exact aliasAt_inj h

theorem length_aliasChain (depth : Nat) (relations : List Relation) :
    (aliasChain depth relations).length = joinedCount relations + 1 := by
  rw [aliasChain, List.length_map, List.length_range, Nat.add_comm]

/-- The root table comes first. -/
theorem aliasChain_eq_cons (depth : Nat) (relations : List Relation) :
    ∃ rest, aliasChain depth relations = .slot depth 0 :: rest ∧
      rest.length = joinedCount relations := by
  refine ⟨(List.range (joinedCount relations)).map fun i => .slot depth (i + 1), ?_, by simp⟩
  rw [aliasChain, Nat.add_comm, List.range_succ_eq_map, List.map_cons, List.map_map]
  rfl

theorem tableCount_pos (r : Relation) : 0 < r.tableCount := by
  unfold Relation.tableCount
  split <;> omega

/-- Without the aliases of junctions the last alias is the same. -/
theorem getLast?_tableAliases : ∀ (relations : List Relation) (names : List Alias),
    names.length = joinedCount relations + 1 →
      (tableAliases relations names).getLast? = names.getLast?
  | _, [], _ => by rw [tableAliases]
  | [], [name], _ => rfl
  | [], _ :: _ :: _, h => by simp [joinedCount] at h
  | r :: relations, name :: names, h => by
    rw [joinedCount, List.length_cons] at h
    have hpos := tableCount_pos r
    have hrest : (names.drop (r.tableCount - 1)).length = joinedCount relations + 1 := by
      rw [List.length_drop]
      omega
    have hdropped : names.drop (r.tableCount - 1) ≠ [] := List.ne_nil_of_length_eq_add_one hrest
    have ih := getLast?_tableAliases relations _ hrest
    have haliases : tableAliases relations (names.drop (r.tableCount - 1)) ≠ [] := by
      intro hnil
      rw [hnil, List.getLast?_nil, eq_comm, List.getLast?_eq_none_iff] at ih
      exact hdropped ih
    have hnames : names ≠ [] := fun hnil => hdropped (by rw [hnil, List.drop_nil])
    rw [tableAliases, List.getLast?_cons_of_ne_nil haliases, ih,
      List.getLast?_cons_of_ne_nil hnames, List.getLast?_drop, if_neg]
    rw [List.length_drop] at hrest
    omega

/-! ## Ways along relations -/

/-- Relations lead from one table to another. -/
inductive Relation.Leads : String → List Relation → String → Prop
  | nil (table : String) : Leads table [] table
  | cons (r : Relation) {relations : List Relation} {stop : String} :
    Leads r.targetTable relations stop → Leads r.sourceTable (r :: relations) stop

theorem Relation.Leads.concat {start : String} {relations : List Relation} {r : Relation}
    (h : Relation.Leads start relations r.sourceTable) :
    Relation.Leads start (relations ++ [r]) r.targetTable := by
  generalize hstop : r.sourceTable = stop at h
  induction h with
  | nil table =>
    subst hstop
    exact .cons r (.nil _)
  | cons first _ ih => exact .cons first (ih hstop)

namespace TableTree

/-- The relations of a table lead to it from the root. -/
theorem IsDerived.leads {tree : TableTree} (htree : tree.IsDerived) :
    ∀ table ∈ tree.tables, Relation.Leads tree.root.name table.relations table.name := by
  refine forall_tables_of_edges ?_ ?_
  · rw [htree.root_relations]
    exact .nil _
  · intro edge hedge hparent
    obtain ⟨r, hrelations, hlinks⟩ := htree.links hedge
    rw [hrelations, ← hlinks.targetTable]
    rw [← hlinks.sourceTable] at hparent
    exact hparent.concat

end TableTree

/-! ## Ways along joins -/

/-- Joins lead from one table under its alias to another: each starts at the table that the one
before it joined. -/
inductive Join.Leads : Alias × String → List Join → Alias × String → Prop
  | nil (place : Alias × String) : Leads place [] place
  | cons {start stop : Alias × String} {j : Join} {joins : List Join} :
    (j.source.name, j.source.table) = start →
      Leads (j.target.name, j.target.table) joins stop → Leads start (j :: joins) stop

/-- What holds of the alias that joins start under and of those of their targets holds of the alias
that they lead to, and of those of their sources. -/
theorem Join.Leads.forall_names {P : Alias → Prop} {start stop : Alias × String}
    {joins : List Join} (h : Join.Leads start joins stop) (hstart : P start.1)
    (htargets : ∀ j ∈ joins, P j.target.name) :
    P stop.1 ∧ ∀ j ∈ joins, P j.source.name := by
  induction h with
  | nil place => exact ⟨hstart, by simp⟩
  | cons hsource _ ih =>
    obtain ⟨htarget, hrest⟩ := List.forall_mem_cons.1 htargets
    obtain ⟨hstop, hsources⟩ := ih htarget hrest
    subst hsource
    exact ⟨hstop, List.forall_mem_cons.2 ⟨hstart, hsources⟩⟩

/-- The join has no condition on its rows, so that they are not numbered either. -/
def Join.IsPlain (j : Join) : Prop := j.filter = none ∧ j.isNumbered = false

namespace Storage

variable {s : Storage} {options : JoinOptions}

/-- No condition is looked up for joins on keys alone. -/
theorem joinFilter_of_withFilters (h : options.withFilters = false) (r : Relation)
    (target : Alias) : s.joinFilter options r target = .ok none := by
  rw [joinFilter]
  split
  · rename_i hfilters
    rw [h] at hfilters
    contradiction
  · rfl

/-- A condition that is looked up is the one on the target of the relation. -/
theorem joinFilter_eq_some {r : Relation} {target : Alias} {condition : RowCondition}
    (h : s.joinFilter options r target = .ok (some condition)) : options.withFilters = true ∧
      ∃ filter, r.targetFilter = some filter ∧ s.rowCondition target filter = .ok condition := by
  rw [joinFilter] at h
  split at h
  · rename_i filter hfilter hwith
    obtain ⟨lowered, hlowered, heq⟩ := map_eq_ok.1 h
    obtain rfl := Option.some.inj heq
    exact ⟨hwith, filter, hfilter, hlowered⟩
  · simp at h

/-- What joining along a relation and some more does: either the target is joined alone, or a
junction and then the target. -/
theorem joins_cons_cases {r : Relation} {relations : List Relation} {source : Alias}
    {rest : List Alias} {joins : List Join}
    (hlength : rest.length = joinedCount (r :: relations))
    (h : s.joins options (r :: relations) (source :: rest) = .ok joins) :
    ∃ target more filter others, more.length = joinedCount relations ∧
      s.joinFilter options r target = .ok filter ∧
      s.joins { options with restriction := none } relations (target :: more) = .ok others ∧
      ((r.junction = none ∧ rest = target :: more ∧
          joins = directJoin options r source target filter :: others) ∨
        ∃ junction middle, r.junction = some junction ∧ rest = middle :: target :: more ∧
          joins = junctionJoins options r junction source middle target filter ++ others) := by
  rw [joinedCount, Relation.tableCount] at hlength
  cases hj : r.junction with
  | none =>
    rw [hj] at hlength
    -- with fewer names than tables the lengths would not agree
    match rest with
    | [] =>
      rw [List.length_nil, Option.isSome_none, if_neg Bool.false_ne_true] at hlength
      omega
    | target :: more =>
      simp only [Storage.joins, hj] at h
      obtain ⟨filter, hfilter, h⟩ := bind_eq_ok.1 h
      obtain ⟨others, hothers, h⟩ := bind_eq_ok.1 h
      refine ⟨target, more, filter, others, ?_, hfilter, hothers,
        Or.inl ⟨rfl, rfl, (pure_eq_ok.1 h).symm⟩⟩
      rw [List.length_cons, Option.isSome_none, if_neg Bool.false_ne_true] at hlength
      omega
  | some junction =>
    rw [hj, Option.isSome_some, if_pos rfl] at hlength
    match rest with
    | [] =>
      rw [List.length_nil] at hlength
      omega
    | [_] =>
      rw [List.length_singleton] at hlength
      omega
    | middle :: target :: more =>
      simp only [Storage.joins, hj] at h
      obtain ⟨filter, hfilter, h⟩ := bind_eq_ok.1 h
      obtain ⟨others, hothers, h⟩ := bind_eq_ok.1 h
      refine ⟨target, more, filter, others, ?_, hfilter, hothers,
        Or.inr ⟨junction, middle, rfl, rfl, (pure_eq_ok.1 h).symm⟩⟩
      rw [List.length_cons, List.length_cons] at hlength
      omega

/-- A join has a condition only if conditions are asked for. It is that on the rows of the target of
a relation, and they are numbered if it uses a position. -/
theorem relation_of_filter_of_joins : ∀ {relations : List Relation} {options : JoinOptions}
    {source : Alias} {rest : List Alias} {joins : List Join}, rest.length = joinedCount relations →
      s.joins options relations (source :: rest) = .ok joins → ∀ j ∈ joins, ∀ condition,
        j.filter = some condition → options.withFilters = true ∧ ∃ r ∈ relations, ∃ filter,
          r.targetFilter = some filter ∧ s.rowCondition j.target.name filter = .ok condition ∧
            j.isNumbered = r.usesPosition
  | [], _, _, _, _, _, h => by
    obtain rfl := Except.ok.inj h
    simp
  | r :: relations, options, _, _, _, hlength, h => by
    obtain ⟨target, more, filter, others, hmore, hfilter, hothers, hcases⟩ :=
      joins_cons_cases hlength h
    have ih : ∀ j ∈ others, ∀ condition, j.filter = some condition → options.withFilters = true ∧
        ∃ r' ∈ r :: relations, ∃ filter, r'.targetFilter = some filter ∧
          s.rowCondition j.target.name filter = .ok condition ∧ j.isNumbered = r'.usesPosition := by
      intro j hj condition hcondition
      obtain ⟨hwith, r', hr', hrest⟩ :=
        relation_of_filter_of_joins hmore hothers j hj condition hcondition
      exact ⟨hwith, r', List.mem_cons_of_mem _ hr', hrest⟩
    have hfirst : ∀ condition, filter = some condition → options.withFilters = true ∧
        ∃ r' ∈ r :: relations, ∃ given, r'.targetFilter = some given ∧
          s.rowCondition target given = .ok condition ∧
            (options.withFilters && r.usesPosition) = r'.usesPosition := by
      rintro condition rfl
      obtain ⟨hwith, given, hgiven, hlowered⟩ := joinFilter_eq_some hfilter
      exact ⟨hwith, r, List.mem_cons_self, given, hgiven, hlowered, by rw [hwith, Bool.true_and]⟩
    rcases hcases with ⟨-, -, rfl⟩ | ⟨junction, middle, -, -, rfl⟩
    · exact List.forall_mem_cons.2 ⟨hfirst, ih⟩
    · -- a junction is joined without a condition
      exact List.forall_mem_cons.2 ⟨by simp [Join.onKeys], List.forall_mem_cons.2 ⟨hfirst, ih⟩⟩

/-- Joins on keys alone have no conditions. -/
theorem isPlain_joins : ∀ {relations : List Relation} {options : JoinOptions} {source : Alias}
    {rest : List Alias} {joins : List Join}, options.withFilters = false →
      rest.length = joinedCount relations →
      s.joins options relations (source :: rest) = .ok joins → ∀ j ∈ joins, j.IsPlain
  | [], _, _, _, _, _, _, h => by
    obtain rfl := Except.ok.inj h
    simp
  | r :: relations, options, _, _, _, hoptions, hlength, h => by
    obtain ⟨target, more, filter, others, hmore, hfilter, hothers, hcases⟩ :=
      joins_cons_cases hlength h
    obtain rfl := Except.ok.inj ((joinFilter_of_withFilters hoptions r target).symm.trans hfilter)
    have hnumbered : (options.withFilters && r.usesPosition) = false := by rw [hoptions]; rfl
    have hplain : { options with restriction := none }.withFilters = false := hoptions
    have ih := isPlain_joins hplain hmore hothers
    rcases hcases with ⟨-, -, rfl⟩ | ⟨junction, middle, -, -, rfl⟩
    · exact List.forall_mem_cons.2 ⟨⟨rfl, hnumbered⟩, ih⟩
    · exact List.forall_mem_cons.2 ⟨⟨rfl, rfl⟩, List.forall_mem_cons.2 ⟨⟨rfl, hnumbered⟩, ih⟩⟩

/-- Each alias behind the first is that of one join, in order. -/
theorem map_target_joins : ∀ {relations : List Relation} {options : JoinOptions} {source : Alias}
    {rest : List Alias} {joins : List Join}, rest.length = joinedCount relations →
      s.joins options relations (source :: rest) = .ok joins →
        joins.map (fun j => j.target.name) = rest
  | [], _, _, rest, joins, hlength, h => by
    obtain rfl := List.length_eq_zero_iff.1 hlength
    obtain rfl : [] = joins := Except.ok.inj h
    rfl
  | r :: relations, _, _, rest, joins, hlength, h => by
    obtain ⟨target, more, filter, others, hmore, -, hothers, hcases⟩ := joins_cons_cases hlength h
    have ih := map_target_joins hmore hothers
    rcases hcases with ⟨-, rfl, rfl⟩ | ⟨junction, middle, -, rfl, rfl⟩
    · rw [List.map_cons, ih]
      rfl
    · rw [List.map_append, ih]
      rfl

/-- The joins along relations lead where the relations do, from the first alias to the last. -/
theorem leads_joins : ∀ {relations : List Relation} {options : JoinOptions} {source : Alias}
    {rest : List Alias} {joins : List Join} {start stop : String},
      rest.length = joinedCount relations →
      s.joins options relations (source :: rest) = .ok joins →
      Relation.Leads start relations stop →
        Join.Leads (source, start) joins ((source :: rest).getLast (List.cons_ne_nil _ _), stop)
  | [], _, _, rest, joins, _, _, hlength, h, hleads => by
    obtain rfl := List.length_eq_zero_iff.1 hlength
    obtain rfl : [] = joins := Except.ok.inj h
    cases hleads with
    | nil => exact .nil _
  | r :: relations, _, source, rest, joins, _, _, hlength, h, hleads => by
    obtain ⟨target, more, filter, others, hmore, -, hothers, hcases⟩ := joins_cons_cases hlength h
    cases hleads with
    | cons _ hleads =>
      have ih := leads_joins hmore hothers hleads
      rcases hcases with ⟨-, rfl, rfl⟩ | ⟨junction, middle, -, rfl, rfl⟩
      · rw [List.getLast_cons (List.cons_ne_nil _ _)]
        exact .cons rfl ih
      · -- the junction stands between the two tables
        rw [List.getLast_cons (List.cons_ne_nil _ _), List.getLast_cons (List.cons_ne_nil _ _)]
        exact .cons rfl (.cons rfl ih)

end Storage

end FeatureStore
