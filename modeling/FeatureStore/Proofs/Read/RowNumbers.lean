import FeatureStore.Proofs.Read.Bindings
import FeatureStore.Proofs.Sql.PositionFaults

/-!
# Row numbers in statements

A statement consists of selects (`PageStatement.selects`, `RowsStatement.selects`), and each select
binds its aliases to tables or to sub-selects. A row number may only be read from an alias that the
select binds to a sub-select which numbers rows (`SelectScope.IsNumbered`). The conditions of joins
keep to that, since a join whose condition uses a position numbers the rows of its table, and the
filter of the reader asks for no position at all. What is left is the row filter of the root table:
it is a condition on the rows of a plain table, in every select that reads the root, so the row
numbers of all statements are bound exactly if it reads none (`rowNumbers_bound`). Nothing refuses
a root row filter that does (`not_isNumbered_root`).
-/

set_option autoImplicit false

namespace FeatureStore

/-! ## Selects of a statement -/

/-- A sub-select that gives each of its rows a number, under the name of the position column. -/
def Sql.NumbersRows (target : Sql) : Prop :=
  ∃ columns window tables restriction,
    target = Sql.around ("(SELECT " ++ columns ++ ", " ++ positionColumn ++ "() OVER (" ++ window ++
      ") AS " ++ positionColumn ++ " FROM " ++ tables) restriction ")"

/-- A select of a statement: what its aliases are bound to, in order, and the aliases whose row
numbers are read in it. -/
structure SelectScope where
  bound : List (Alias × Sql)
  positions : List Alias

/-- Every row number that is read is one of a sub-select that numbers rows. -/
def SelectScope.IsNumbered (e : SelectScope) : Prop :=
  ∀ name ∈ e.positions, ∃ target, e.bound.lookup name = some target ∧ target.NumbersRows

/-- A select moved into a sub-select. -/
def SelectScope.inward (e : SelectScope) : SelectScope :=
  ⟨e.bound.map fun b => (b.1.inward, Sql.nested b.2), e.positions.map Alias.inward⟩

namespace Join

/-- What a join binds its alias to. -/
def binding (j : Join) : Alias × Sql := (j.target.name, j.targetSql)

/-- The aliases whose row numbers the condition of a join reads. -/
def positions (j : Join) : List Alias := j.filter.toList.flatMap RowCondition.positions

/-- The sub-select that numbers the rows of the target, if there is one. It may be restricted by the
condition on the root table. -/
def numbering (root : Option RowCondition) (j : Join) : List SelectScope :=
  if j.isNumbered then
    [⟨[(.named "A", Sql.ofText j.source.table), (.named "B", Sql.ofText j.target.table)],
      if j.restriction.isSome then root.toList.flatMap RowCondition.positions else []⟩]
  else []

end Join

/-- The select of a membership. -/
def Membership.scope (m : Membership) : SelectScope :=
  ⟨(innerRoot, Sql.ofText m.table) :: m.joins.map Join.binding,
    m.joins.flatMap Join.positions ++ m.selection.positions⟩

namespace FeatureAtom

/-- The aliases whose row numbers an atom reads in the select around it. -/
def positions : FeatureAtom → List Alias
  | .test t => t.positions
  | .member _ => []

/-- The select of an atom, if it is a membership. -/
def scope? : FeatureAtom → Option SelectScope
  | .test _ => none
  | .member m => some m.scope

end FeatureAtom

namespace Restriction

/-- The aliases whose row numbers a restriction reads in the select around it. -/
def positions (r : Restriction) : List Alias :=
  r.row.toList.flatMap RowCondition.positions ++
    r.feature.toList.flatMap fun c => c.atoms.flatMap FeatureAtom.positions

/-- The selects of the memberships of a restriction. -/
def selects (r : Restriction) : List SelectScope :=
  r.feature.toList.flatMap fun c => c.atoms.filterMap FeatureAtom.scope?

end Restriction

/-- The selects of the statement that fixes a page. The one that counts what matches is restricted
like the page. -/
def PageStatement.selects (p : PageStatement) : List SelectScope :=
  ⟨[(outerRoot, Sql.ofText p.table)], p.restriction.positions⟩ :: p.restriction.selects

namespace RowsCondition

/-- The aliases whose row numbers a condition reads in the select around it. -/
def positions : RowsCondition → List Alias
  | .restricted restriction _ => restriction.positions
  | _ => []

/-- The selects of a condition. -/
def selects (s : Storage) : RowsCondition → List SelectScope
  | .between _ _ => []
  | .restricted restriction _ => restriction.selects
  | .paged roots =>
    ⟨[(innerRoot, Sql.ofText s.root.name)], roots.restriction.positions.map Alias.inward⟩ ::
      roots.restriction.selects.map SelectScope.inward

end RowsCondition

/-- The selects of a statement that reads rows, with the condition on the root table that restricts
the sub-selects of its joins. -/
def RowsStatement.selects (s : Storage) (root : Option RowCondition) (r : RowsStatement) :
    List SelectScope :=
  ⟨(outerRoot, Sql.ofText s.root.name) :: r.group.joins.map Join.binding,
    r.group.joins.flatMap Join.positions ++ r.conditions.flatMap RowsCondition.positions⟩ ::
    (r.group.joins.flatMap (Join.numbering root) ++ r.conditions.flatMap (RowsCondition.selects s))

/-! ## Bound row numbers -/

theorem isNumbered_of_positions_eq_nil {e : SelectScope} (h : e.positions = []) :
    e.IsNumbered := by
  intro name hname
  rw [h] at hname
  exact absurd hname List.not_mem_nil

/-- A plain table has no row numbers. -/
theorem not_numbersRows_ofText (table : String) : ¬ (Sql.ofText table).NumbersRows := by
  rintro ⟨columns, window, tables, restriction, h⟩
  have hlength := congrArg List.length h
  simp [Sql.ofText, Sql.around] at hlength

/-- A join that numbers rows binds its alias to a sub-select that does so. -/
theorem Join.numbersRows_targetSql {j : Join} (h : j.isNumbered = true) :
    j.targetSql.NumbersRows := by
  rw [targetSql, h]
  exact ⟨"A." ++ j.source.field ++ " AS A" ++ j.source.field ++ ", B.*",
    "PARTITION BY B." ++ j.target.field ++ " ORDER BY B." ++ j.target.field, _, _,
    by simp only [String.append_assoc]; rfl⟩

/-- Of distinct aliases each finds what it is bound to. -/
theorem lookup_of_mem_bound : ∀ {bound : List (Alias × Sql)} {name : Alias} {target : Sql},
    (bound.map Prod.fst).Nodup → (name, target) ∈ bound → bound.lookup name = some target
  | (other, first) :: rest, name, target, hnodup, hmem => by
    obtain ⟨hother, hrest⟩ := List.nodup_cons.1 hnodup
    rcases List.mem_cons.1 hmem with heq | hrestMem
    · obtain ⟨rfl, rfl⟩ := Prod.mk.inj heq
      simp
    · have hne : (name == other) = false := by
        rw [beq_eq_false_iff_ne]
        rintro rfl
        exact hother (List.mem_map.2 ⟨(name, target), hrestMem, rfl⟩)
      rw [List.lookup_cons, hne]
      exact lookup_of_mem_bound hrest hrestMem

/-- Where only the rows of a plain table can be read, no row number may be. -/
theorem isNumbered_iff_positions_eq_nil {e : SelectScope} {name : Alias} {table : String}
    (hbound : e.bound.lookup name = some (Sql.ofText table)) (hpositions : e.positions ⊆ [name]) :
    e.IsNumbered ↔ e.positions = [] := by
  refine ⟨fun h => List.eq_nil_iff_forall_not_mem.2 fun other hother => ?_,
    isNumbered_of_positions_eq_nil⟩
  obtain ⟨target, htarget, hnumbers⟩ := h other hother
  obtain rfl := List.mem_singleton.1 (hpositions hother)
  obtain rfl := Option.some.inj (hbound.symm.trans htarget)
  exact not_numbersRows_ofText table hnumbers

/-! ## Root rows -/

/-- The row filter of the root table, if it has one, reads no position. -/
def Storage.RootReadsNoPosition (s : Storage) : Prop :=
  ∀ filter, s.root.filter = some filter → filter.readsPosition = false

namespace Storage

variable {s : Storage}

/-- The condition of the row filter of the root table reads positions of the root table only, and
does so as the filter says. -/
theorem positions_root {s' : Storage} {table : Alias} {row : Option RowCondition}
    (h : s.root.filter.mapM (s'.rowCondition table) = .ok row) :
    row.toList.flatMap RowCondition.positions ⊆ [table] ∧
      (row.toList.flatMap RowCondition.positions = [] ↔ s.RootReadsNoPosition) := by
  cases hfilter : s.root.filter with
  | none =>
    rw [hfilter] at h
    obtain rfl := Except.ok.inj h
    exact ⟨List.nil_subset _, iff_of_true rfl fun filter hother => by simp [hfilter] at hother⟩
  | some filter =>
    rw [hfilter] at h
    obtain ⟨c, hc, rfl⟩ := map_eq_ok.1 h
    rw [Option.toList_some, List.flatMap_singleton]
    refine ⟨positions_rowCondition_subset hc, (positions_rowCondition_eq_nil_iff hc).trans ?_⟩
    rw [RootReadsNoPosition, hfilter]
    simp

/-- In the select around it a restriction reads positions of the root table only, and does so as the
row filter of the root table says; in selects of its own it reads none. -/
theorem positions_restriction {filter : Option Filter} {r : Restriction}
    (h : s.restriction filter = .ok r) : r.positions ⊆ [outerRoot] ∧
      (r.positions = [] ↔ s.RootReadsNoPosition) ∧ ∀ e ∈ r.selects, e.positions = [] := by
  obtain ⟨row, hrow, h⟩ := bind_eq_ok.1 h
  obtain ⟨feature, hfeature, h⟩ := bind_eq_ok.1 h
  obtain rfl := pure_eq_ok.1 h
  obtain ⟨hsubset, hiff⟩ := positions_root hrow
  -- the filter of the reader has no position: compiling it would have failed
  have hatoms : ∀ c ∈ feature.toList, ∀ atom ∈ c.atoms, atom.IsPositionless := by
    intro c hc
    cases filter with
    | none =>
      obtain rfl := Except.ok.inj hfeature
      exact absurd hc List.not_mem_nil
    | some given =>
      obtain ⟨condition, hcondition, rfl⟩ := map_eq_ok.1 hfeature
      obtain rfl := List.mem_singleton.1 hc
      exact isPositionless_of_featureCondition hcondition
  have hnone : (feature.toList.flatMap fun c => c.atoms.flatMap FeatureAtom.positions) = [] := by
    refine List.flatMap_eq_nil_iff.2 fun c hc => List.flatMap_eq_nil_iff.2 fun atom hatom => ?_
    have hpositionless := hatoms c hc atom hatom
    cases atom with
    | test t => exact hpositionless
    | member m => rfl
  refine ⟨?_, ?_, fun e he => ?_⟩
  · rw [Restriction.positions, hnone, List.append_nil]
    exact hsubset
  · rw [Restriction.positions, hnone, List.append_nil]
    exact hiff
  · obtain ⟨c, hc, he⟩ := List.mem_flatMap.1 he
    obtain ⟨atom, hatom, he⟩ := List.mem_filterMap.1 he
    have hpositionless := hatoms c hc atom hatom
    cases atom with
    | test t => simp [FeatureAtom.scope?] at he
    | member m =>
      obtain ⟨hselection, hjoins⟩ := hpositionless
      obtain rfl := Option.some.inj he
      rw [Membership.scope, hselection, List.append_nil, List.flatMap_eq_nil_iff]
      intro j hj
      rw [Join.positions, hjoins j hj]
      rfl

/-- The row numbers of the statement that fixes a page are bound exactly if the root row filter
reads none. -/
theorem isNumbered_pageStatement_iff {countsMatched : Bool} {window : Window} {p : PageStatement}
    (h : s.pageStatement countsMatched window = .ok p) :
    (∀ e ∈ p.selects, e.IsNumbered) ↔ s.RootReadsNoPosition := by
  obtain ⟨restriction, hrestriction, h⟩ := bind_eq_ok.1 h
  obtain ⟨keys, -, h⟩ := bind_eq_ok.1 h
  obtain rfl := pure_eq_ok.1 h
  obtain ⟨hsubset, hiff, hselects⟩ := positions_restriction hrestriction
  rw [PageStatement.selects, List.forall_mem_cons, ← hiff]
  refine (and_iff_left fun e he => isNumbered_of_positions_eq_nil (hselects e he)).trans ?_
  have hbound : [(outerRoot, Sql.ofText s.root.name)].lookup outerRoot =
      some (Sql.ofText s.root.name) := by simp
  exact isNumbered_iff_positions_eq_nil hbound hsubset

end Storage

/-! ## Joined rows -/

namespace Storage

variable {s : Storage}

/-- Only a restriction that is asked for restricts the sub-selects of joins. -/
theorem restriction_of_mem_joins : ∀ {relations : List Relation} {options : JoinOptions}
    {source : Alias} {rest : List Alias} {joins : List Join}, rest.length = joinedCount relations →
      s.joins options relations (source :: rest) = .ok joins →
        ∀ j ∈ joins, j.restriction = none ∨ j.restriction = options.restriction
  | [], _, _, _, _, _, h => by
    obtain rfl := Except.ok.inj h
    simp
  | r :: relations, options, _, _, _, hlength, h => by
    obtain ⟨target, more, filter, others, hmore, -, hothers, hcases⟩ := joins_cons_cases hlength h
    have hrest : ∀ j ∈ others, j.restriction = none ∨ j.restriction = options.restriction :=
      fun j hj => .inl ((or_self_iff.1 (restriction_of_mem_joins hmore hothers j hj)))
    rcases hcases with ⟨-, -, rfl⟩ | ⟨junction, middle, -, -, rfl⟩
    · exact List.forall_mem_cons.2 ⟨.inr rfl, hrest⟩
    · -- behind a junction nothing is restricted
      exact List.forall_mem_cons.2 ⟨.inl rfl, List.forall_mem_cons.2 ⟨.inl rfl, hrest⟩⟩

/-- The condition of a join reads row numbers of its target only, and only if it numbers them. -/
theorem isNumbered_of_mem_positions {relations : List Relation} {options : JoinOptions}
    {source : Alias} {rest : List Alias} {joins : List Join}
    (hlength : rest.length = joinedCount relations)
    (h : s.joins options relations (source :: rest) = .ok joins) {j : Join} (hj : j ∈ joins)
    {name : Alias} (hname : name ∈ j.positions) : name = j.target.name ∧ j.isNumbered = true := by
  obtain ⟨condition, hcondition, hname⟩ := List.mem_flatMap.1 hname
  obtain ⟨filter, hlowered, hnumbered⟩ :=
    isNumbered_of_filter_of_joins hlength h hj (Option.mem_toList.1 hcondition)
  refine ⟨List.mem_singleton.1 (positions_rowCondition_subset hlowered hname), hnumbered ?_⟩
  have hreads : filter.readsPosition = true := by
    rw [← Bool.not_eq_false, ← positions_rowCondition_eq_nil_iff hlowered]
    exact List.ne_nil_of_mem hname
  exact Filter.usesPosition_of_readsPosition hreads fun leaf hleaf =>
    (Filter.exists_lower_of_mem_leaves hlowered leaf hleaf).1

end Storage

/-- The groups of a tree are those of chains, restricted by the condition on the root table. -/
theorem exists_restriction_of_groupsOf {s : Storage} {groups : List JoinGroup}
    (h : ReadPlan.groupsOf s = .ok groups) : ∃ root,
      s.root.filter.mapM (Storage.rowCondition { s with collation := none } (.named "A")) =
        .ok root ∧
      ∀ group ∈ groups, ∃ chain table,
        JoinGroup.ofChain { s with collation := none }
          (root.map (Storage.rowConditionSql { s with collation := none })) chain table =
            .ok group := by
  obtain ⟨root, hroot, h⟩ := bind_eq_ok.1 h
  obtain ⟨found, hfound, h⟩ := bind_eq_ok.1 h
  obtain rfl := pure_eq_ok.1 h
  refine ⟨root, hroot, fun group hgroup => ?_⟩
  obtain ⟨o, ho, rfl⟩ := List.mem_filterMap.1 hgroup
  obtain ⟨chain, -, hmade⟩ := exists_of_mapM_eq_ok hfound ho
  split at hmade
  · split at hmade
    · obtain ⟨made, hofChain, hmade⟩ := bind_eq_ok.1 hmade
      obtain rfl := Option.some.inj (pure_eq_ok.1 hmade)
      exact ⟨chain, _, hofChain⟩
    · simp [pure_eq_ok] at hmade
  · simp [pure_eq_ok] at hmade

/-- What a group joins to the root table: distinct aliases, positions that are bound, and
sub-selects that are restricted by the condition on the root table or not at all. -/
structure JoinGroup.NumbersJoined (plain : Storage) (root : Option RowCondition)
    (group : JoinGroup) : Prop where
  nodup : (outerRoot :: group.joins.map fun j => j.target.name).Nodup
  positions : ∀ j ∈ group.joins, ∀ name ∈ j.positions,
    name = j.target.name ∧ j.isNumbered = true
  restriction : ∀ j ∈ group.joins, j.restriction = none ∨
    j.restriction = root.map plain.rowConditionSql

theorem numbersJoined_of_ofChain {plain : Storage} {root : Option RowCondition}
    {chain : List Table} {table : Table} {group : JoinGroup}
    (h : JoinGroup.ofChain plain (root.map plain.rowConditionSql) chain table = .ok group) :
    group.NumbersJoined plain root := by
  obtain ⟨joins, hjoins, h⟩ := bind_eq_ok.1 h
  obtain rfl := pure_eq_ok.1 h
  have hnodup : (aliasChain 0 table.relations).Nodup :=
    List.nodup_range.map fun i j heq => (Alias.slot.inj heq).2
  obtain ⟨rest, haliases, hlength⟩ := aliasChain_eq_cons 0 table.relations
  rw [haliases] at hjoins hnodup
  refine ⟨?_, fun j hj name hname => ?_, fun j hj => ?_⟩
  · rw [Storage.map_target_joins hlength hjoins]
    exact hnodup
  · exact Storage.isNumbered_of_mem_positions hlength hjoins hj hname
  · exact Storage.restriction_of_mem_joins hlength hjoins j hj

/-! ## Statements that read rows -/

/-- A statement that reads rows is restricted as the reader and the root table say, either itself or
in the sub-select of the root rows of the page. -/
theorem conditions_of_rowsStatement {s : Storage} {window : Window} {group : JoinGroup}
    {r : RowsStatement} (h : s.rowsStatement window group = .ok r) : r.group = group ∧
      ∃ restriction, s.restriction window.filter = .ok restriction ∧
        ((r.conditions.flatMap RowsCondition.positions = restriction.positions ∧
            r.conditions.flatMap (RowsCondition.selects s) = restriction.selects) ∨
          ∃ keys paging, r.conditions = [.paged ⟨keys, restriction, paging⟩]) := by
  obtain ⟨keys, -, h⟩ := bind_eq_ok.1 h
  obtain ⟨restriction, hrestriction, h⟩ := bind_eq_ok.1 h
  have hrestricted : ∀ range : List RowsCondition,
      range.flatMap RowsCondition.positions = [] → range.flatMap (RowsCondition.selects s) = [] →
      ∀ conditions, conditions = range ++ [.restricted restriction window.isLookup] →
        conditions.flatMap RowsCondition.positions = restriction.positions ∧
          conditions.flatMap (RowsCondition.selects s) = restriction.selects := by
    rintro range hpositions hselects _ rfl
    rw [List.flatMap_append, List.flatMap_append, hpositions, hselects]
    simp [RowsCondition.positions, RowsCondition.selects]
  dsimp only at h
  split at h
  · obtain rfl := pure_eq_ok.1 h
    -- a range of root keys reads nothing
    refine ⟨rfl, restriction, hrestriction, .inl (hrestricted _ ?_ ?_ _ rfl)⟩ <;>
      split <;> (try split) <;> rfl
  · split at h
    · obtain rfl := pure_eq_ok.1 h
      refine ⟨rfl, restriction, hrestriction, .inl (hrestricted _ ?_ ?_ _ rfl)⟩ <;>
        split <;> (try split) <;> rfl
    · obtain rfl := pure_eq_ok.1 h
      exact ⟨rfl, restriction, hrestriction, .inr ⟨keys, window.paging, rfl⟩⟩

section RowsStatement

variable {s plain : Storage} {root : Option RowCondition} {group : JoinGroup} {window : Window}
  {r : RowsStatement}

/-- A row number that the root row filter reads would be read in the root table or in the sub-select
of the page, and neither of them numbers its rows. -/
theorem rootReadsNoPosition_of_rowsStatement (h : s.rowsStatement window group = .ok r)
    (hall : ∀ e ∈ r.selects s root, e.IsNumbered) : s.RootReadsNoPosition := by
  obtain ⟨rfl, restriction, hrestriction, hconditions⟩ := conditions_of_rowsStatement h
  obtain ⟨hsubset, hiff, -⟩ := Storage.positions_restriction hrestriction
  rw [← hiff]
  refine List.eq_nil_iff_forall_not_mem.2 fun name hname => ?_
  obtain rfl := List.mem_singleton.1 (hsubset hname)
  -- in the statement itself the root is a plain table, which has no row numbers
  rcases hconditions with ⟨hpositions, -⟩ | ⟨keys, paging, hpaged⟩
  · obtain ⟨target, htarget, hnumbers⟩ := hall _ List.mem_cons_self outerRoot
      (List.mem_append_right _ (hpositions ▸ hname))
    rw [List.lookup_cons_self] at htarget
    exact not_numbersRows_ofText _ (Option.some.inj htarget ▸ hnumbers)
  · -- the root rows of the page are read in a sub-select
    have hmem : (⟨[(innerRoot, Sql.ofText s.root.name)],
        restriction.positions.map Alias.inward⟩ : SelectScope) ∈ r.selects s root := by
      refine List.mem_cons_of_mem _ (List.mem_append_right _ ?_)
      rw [hpaged, List.flatMap_singleton]
      exact List.mem_cons_self
    obtain ⟨target, htarget, hnumbers⟩ := hall _ hmem innerRoot
      (List.mem_map.2 ⟨outerRoot, hname, rfl⟩)
    rw [List.lookup_cons_self] at htarget
    exact not_numbersRows_ofText _ (Option.some.inj htarget ▸ hnumbers)

/-- If the root row filter reads no row number, neither do the conditions of the statement, in its
own select or in the sub-selects of its memberships and of its page. -/
theorem positions_conditions_eq_nil (hnone : s.RootReadsNoPosition)
    (h : s.rowsStatement window group = .ok r) :
    r.conditions.flatMap RowsCondition.positions = [] ∧
      ∀ e ∈ r.conditions.flatMap (RowsCondition.selects s), e.positions = [] := by
  obtain ⟨rfl, restriction, hrestriction, hconditions⟩ := conditions_of_rowsStatement h
  obtain ⟨-, hiff, hselects⟩ := Storage.positions_restriction hrestriction
  have hrow := hiff.2 hnone
  rcases hconditions with ⟨hpositions, hown⟩ | ⟨keys, paging, hpaged⟩
  · rw [hpositions, hown]
    exact ⟨hrow, hselects⟩
  · rw [hpaged, List.flatMap_singleton, List.flatMap_singleton]
    refine ⟨rfl, List.forall_mem_cons.2 ⟨by rw [hrow]; rfl, fun e he => ?_⟩⟩
    obtain ⟨inner, hinner, rfl⟩ := List.mem_map.1 he
    rw [SelectScope.inward, hselects inner hinner]
    rfl

/-- If the root row filter reads no row number, all those of the statement are read from
sub-selects that number rows. -/
theorem isNumbered_of_rowsStatement
    (hroot : s.root.filter.mapM (plain.rowCondition (.named "A")) = .ok root)
    (hgroup : group.NumbersJoined plain root) (hnone : s.RootReadsNoPosition)
    (h : s.rowsStatement window group = .ok r) : ∀ e ∈ r.selects s root, e.IsNumbered := by
  obtain ⟨hown, hselects⟩ := positions_conditions_eq_nil hnone h
  obtain ⟨rfl, -⟩ := conditions_of_rowsStatement h
  have hplain := (Storage.positions_root hroot).2.2 hnone
  refine List.forall_mem_cons.2 ⟨fun name hname => ?_, fun e he => ?_⟩
  · -- a position outside is that of a joined table
    have hjoined : name ∈ r.group.joins.flatMap Join.positions := by
      rcases List.mem_append.1 hname with hjoined | hcondition
      · exact hjoined
      · exact absurd (hown ▸ hcondition) List.not_mem_nil
    obtain ⟨j, hj, hname⟩ := List.mem_flatMap.1 hjoined
    obtain ⟨rfl, hnumbered⟩ := hgroup.positions j hj name hname
    refine ⟨j.targetSql, lookup_of_mem_bound ?_ ?_, Join.numbersRows_targetSql hnumbered⟩
    · rw [List.map_cons, List.map_map]
      exact hgroup.nodup
    · exact List.mem_cons_of_mem _ (List.mem_map.2 ⟨j, hj, rfl⟩)
  · -- the selects inside have no position, as the root has none
    refine isNumbered_of_positions_eq_nil ?_
    rcases List.mem_append.1 he with hjoined | hcondition
    · obtain ⟨j, hj, he⟩ := List.mem_flatMap.1 hjoined
      rw [Join.numbering] at he
      split at he
      · obtain rfl := List.mem_singleton.1 he
        rw [hplain, ite_self]
      · exact absurd he List.not_mem_nil
    · exact hselects e hcondition

/-- The row numbers of a statement that reads rows are bound exactly if the root row filter reads
none. -/
theorem isNumbered_rowsStatement_iff
    (hroot : s.root.filter.mapM (plain.rowCondition (.named "A")) = .ok root)
    (hgroup : group.NumbersJoined plain root) (h : s.rowsStatement window group = .ok r) :
    (∀ e ∈ r.selects s root, e.IsNumbered) ↔ s.RootReadsNoPosition :=
  ⟨rootReadsNoPosition_of_rowsStatement h, fun hnone =>
    isNumbered_of_rowsStatement hroot hgroup hnone h⟩

end RowsStatement

/-- A row number is only read where it exists, but for the row filter of the root table. A filter of
the reader that asks for a position is refused. All row numbers in the selects of the statement that
fixes the page, and of those that read the rows of groups, belong to sub-selects that number rows
exactly if the row filter of the root table reads none; the sub-selects are restricted by that
filter or not at all. -/
theorem rowNumbers_bound (s : Storage) :
    (∀ filter, filter.asksPosition = true →
      ∃ path fault, s.featureCondition filter = .error (.mapping path fault)) ∧
    ∀ featureType countsMatched plan, ReadPlan.ofStorage featureType s countsMatched = .ok plan →
      ∃ root, s.root.filter.mapM (Storage.rowCondition { s with collation := none } (.named "A")) =
          .ok root ∧ ∀ window,
        (∀ p, s.pageStatement countsMatched window = .ok p →
          ((∀ e ∈ p.selects, e.IsNumbered) ↔ s.RootReadsNoPosition)) ∧
        ∀ group ∈ plan.groups, ∀ r, s.rowsStatement window group = .ok r →
          (∀ j ∈ r.group.joins, j.restriction = none ∨
            j.restriction = root.map (Storage.rowConditionSql { s with collation := none })) ∧
          ((∀ e ∈ r.selects s root, e.IsNumbered) ↔ s.RootReadsNoPosition) := by
  refine ⟨fun filter hasks => Storage.exists_mapping_of_asksPosition hasks, ?_⟩
  intro featureType countsMatched plan hplan
  obtain ⟨groups, hgroups, hplan⟩ := bind_eq_ok.1 hplan
  obtain rfl := pure_eq_ok.1 hplan
  obtain ⟨root, hroot, hchains⟩ := exists_restriction_of_groupsOf hgroups
  refine ⟨root, hroot, fun window => ⟨fun p hp => Storage.isNumbered_pageStatement_iff hp, ?_⟩⟩
  intro group hgroup r hr
  obtain ⟨chain, table, hmade⟩ := hchains group hgroup
  have hjoined := numbersJoined_of_ofChain hmade
  refine ⟨?_, isNumbered_rowsStatement_iff hroot hjoined hr⟩
  rw [group_of_rowsStatement hr]
  exact hjoined.restriction

/-- The first two addresses of every parcel, with the root table joined to a sub-select that numbers
the addresses; a filter of the reader cannot ask for their positions. -/
theorem rowNumbers_bound_addresses :
    let second : Filter := .test (.compare .le (.apply .position []) (.literal (.int 2)))
    let paths := ["parcel/name", "parcel/[id=parcel_id]address\x7bfilter=\x7b\"op\":\"compare\"," ++
      "\"cmp\":\"le\",\"left\":\x7b\"function\":\x7b\"function\":\"position\"\x7d\x7d," ++
      "\"right\":\x7b\"literal\":2\x7d\x7d\x7d/city"]
    let window : Window := .ofQuery (.all "parcel") 0
    ∃ tree plan group p r root, TableTree.ofPaths paths = .ok tree ∧ tree.IsDerived ∧
      ReadPlan.ofStorage "parcel" (.plain tree .postgis) true = .ok plan ∧ group ∈ plan.groups ∧
      (Storage.plain tree .postgis).pageStatement true window = .ok p ∧
      (Storage.plain tree .postgis).rowsStatement window group = .ok r ∧
      (r.selects (.plain tree .postgis) root).map SelectScope.positions = [[.slot 0 1], []] ∧
      (∀ e ∈ p.selects, e.IsNumbered) ∧
      (∀ e ∈ r.selects (.plain tree .postgis) root, e.IsNumbered) ∧
      ∃ path fault, (Storage.plain tree .postgis).featureCondition second =
        .error (.mapping path fault) := by
  intro second paths window
  have hrun : (do
      let tree ← (TableTree.ofPaths paths).toOption
      let s := Storage.plain tree .postgis
      let plan ← (ReadPlan.ofStorage "parcel" s true).toOption
      let group ← plan.groups.getLast?
      let _ ← (s.pageStatement true window).toOption
      let r ← (s.rowsStatement window group).toOption
      return (tree.root.filter.isNone, (r.selects s none).map SelectScope.positions) :
        Option (Bool × List (List Alias))) = some (true, [[.slot 0 1], []]) := by
    decide +kernel
  obtain ⟨tree, htree, hrun⟩ := Option.bind_eq_some_iff.1 hrun
  obtain ⟨plan, hplan, hrun⟩ := Option.bind_eq_some_iff.1 hrun
  obtain ⟨group, hgroup, hrun⟩ := Option.bind_eq_some_iff.1 hrun
  obtain ⟨p, hp, hrun⟩ := Option.bind_eq_some_iff.1 hrun
  obtain ⟨r, hr, hrun⟩ := Option.bind_eq_some_iff.1 hrun
  obtain ⟨hfilter, hpositions⟩ := Prod.mk.inj (Option.some.inj hrun)
  rw [toOption_eq_some] at htree hplan hp hr
  have hroot : (Storage.plain tree .postgis).root.filter = none :=
    Option.isNone_iff_eq_none.1 hfilter
  have hnone : (Storage.plain tree .postgis).RootReadsNoPosition := by
    intro filter hsome
    rw [hroot] at hsome
    contradiction
  obtain ⟨hrefused, hplans⟩ := rowNumbers_bound (.plain tree .postgis)
  obtain ⟨root, hlowered, hwindows⟩ := hplans "parcel" true plan hplan
  rw [hroot] at hlowered
  obtain rfl := pure_eq_ok.1 hlowered
  obtain ⟨hpage, hrows⟩ := hwindows window
  have hmem := List.mem_of_getLast? hgroup
  exact ⟨tree, plan, group, p, r, none, htree, TableTree.isDerived_of_ofPaths htree, hplan, hmem,
    hp, hr, hpositions, (hpage p hp).2 hnone, (hrows group hmem r hr).2.2 hnone,
    hrefused second (by decide)⟩

/-- A row filter of the root table that asks for a position is accepted, and the row number is read
from the plain root table. A filter of the reader is accepted too where the position is a second
argument of a function, which is not looked at. -/
theorem not_isNumbered_root :
    let paths := ["parcel\x7bfilter=\x7b\"op\":\"compare\",\"cmp\":\"le\"," ++
      "\"left\":\x7b\"function\":\x7b\"function\":\"position\"\x7d\x7d," ++
      "\"right\":\x7b\"literal\":2\x7d\x7d\x7d/name"]
    let shouted : Filter := .test (.compare .eq
      (.apply .upper [.property "name", .apply .position []]) (.literal (.text "X")))
    ∃ tree p, TableTree.ofPaths paths = .ok tree ∧ tree.root.filter.any Filter.usesPosition = true ∧
      (Storage.plain tree .postgis).pageStatement false (.ofQuery (.all "parcel") 0) = .ok p ∧
      ¬ (∀ e ∈ p.selects, e.IsNumbered) ∧
      (Storage.plain tree .postgis).restrictionText none 0 = .ok (some "A.row_number <= 2") ∧
      shouted.usesPosition = true ∧
      (Storage.plain tree .postgis).filterText shouted 0 = .ok "UPPER(A.name) = 'X'" := by
  intro paths shouted
  have hrun : (do
      let tree ← TableTree.ofPaths paths
      let s := Storage.plain tree .postgis
      let p ← s.pageStatement false (.ofQuery (.all "parcel") 0)
      return (tree.root.filter.map fun f => (f.usesPosition, f.readsPosition),
        p.selects.map SelectScope.positions, (s.restrictionText none 0).toOption,
        (s.filterText shouted 0).toOption) :
        Except Error (Option (Bool × Bool) × List (List Alias) × Option (Option String) ×
          Option String)).toOption =
      some (some (true, true), [[outerRoot]], some (some "A.row_number <= 2"),
        some "UPPER(A.name) = 'X'") := by
    decide +kernel
  obtain ⟨tree, htree, hrun⟩ := bind_eq_ok.1 (toOption_eq_some.1 hrun)
  obtain ⟨p, hp, hrun⟩ := bind_eq_ok.1 hrun
  obtain ⟨hfilter, hrest⟩ := Prod.mk.inj (pure_eq_ok.1 hrun)
  obtain ⟨-, hrest⟩ := Prod.mk.inj hrest
  obtain ⟨hrestriction, htext⟩ := Prod.mk.inj hrest
  obtain ⟨filter, hroot, hreads⟩ := Option.map_eq_some_iff.1 hfilter
  obtain ⟨huses, hreads⟩ := Prod.mk.inj hreads
  refine ⟨tree, p, htree, ?_, hp, fun hall => ?_, toOption_eq_some.1 hrestriction, by decide,
    toOption_eq_some.1 htext⟩
  · rw [hroot, Option.any_some, huses]
  · have hnone := (Storage.isNumbered_pageStatement_iff hp).1 hall filter hroot
    exact Bool.false_ne_true (hnone.symm.trans hreads)

end FeatureStore
