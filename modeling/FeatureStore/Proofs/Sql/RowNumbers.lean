import FeatureStore.Proofs.Sql.Naming
import FeatureStore.Proofs.Sql.Scopes

/-!
# Row numbers in conditions

The position of a row is a column of the table that the row belongs to, and only a table whose rows
are numbered has it (`Scalar.positions`). An operand asks for a position where its expression is
made (`Operand.asksPosition`): a function looks at its first argument only, and an interval at both
of its ends. What is asked for need not stay: an interval keeps the first end of its start and the
last end of its stop, and two temporal relations compare one end of each side
(`Operand.readsPosition`). In a filter on rows the position is read from their table
(`positions_rowCondition_eq_nil_iff`, `positions_rowCondition_subset`), and a join whose condition
uses one numbers the rows of its table (`isNumbered_of_filter_of_joins`). On features no expression
asks for a position (`asksPosition_of_test`).
-/

set_option autoImplicit false

namespace FeatureStore

/-! ## Positions that are read -/

/-- The aliases of the tables whose row numbers an expression reads. -/
def Scalar.positions : Scalar → List Alias
  | .position table => [table]
  | .period start stop => start.positions ++ stop.positions
  | .upper arg => arg.positions
  | .lower arg => arg.positions
  | .collated arg _ => arg.positions
  | _ => []

/-- The aliases of the tables whose row numbers a test reads. -/
def Test.positions (t : Test) : List Alias := t.scalars.flatMap Scalar.positions

/-- The aliases of the tables whose row numbers a condition on rows reads. -/
def RowCondition.positions (c : RowCondition) : List Alias := c.atoms.flatMap Test.positions

theorem Scalar.positions_subset_tables (e : Scalar) : e.positions ⊆ e.tables := by
  induction e with
  | position table => exact List.Subset.refl _
  | period start stop hstart hstop =>
    exact List.append_subset.2 ⟨List.subset_append_of_subset_left _ hstart,
      List.subset_append_of_subset_right _ hstop⟩
  | upper arg ih => exact ih
  | lower arg ih => exact ih
  | collated arg collation ih => exact ih
  | _ => exact List.nil_subset _

theorem Test.positions_eq_nil_iff {t : Test} :
    t.positions = [] ↔ ∀ e ∈ t.scalars, e.positions = [] := List.flatMap_eq_nil_iff

/-- The ends of a range of time that are compared. -/
inductive RangeEnds where
  | both
  | start
  | stop

namespace Operand

mutual
/-- A position is asked for where the expression of an operand is made. -/
def asksPosition : Operand → Bool
  | .apply function args => function == .position || firstAsksPosition args
  | .interval start stop => start.asksPosition || stop.asksPosition
  | _ => false

/-- The first operand of a list asks for a position. -/
def firstAsksPosition : List Operand → Bool
  | [] => false
  | arg :: _ => arg.asksPosition
end

mutual
/-- The expression of an operand, or some ends of its range of time, read a position. -/
def readsPosition : Operand → RangeEnds → Bool
  | .apply function args, _ => function == .position || firstReadsPosition args
  | .interval start stop, .both => start.readsPosition .start || stop.readsPosition .stop
  | .interval start _, .start => start.readsPosition .start
  | .interval _ stop, .stop => stop.readsPosition .stop
  | _, _ => false

/-- The expression of the first operand of a list reads a position. -/
def firstReadsPosition : List Operand → Bool
  | [] => false
  | arg :: _ => arg.readsPosition .both
end

/-- The ends of a range together are both of them. -/
theorem readsPosition_both (o : Operand) :
    o.readsPosition .both = (o.readsPosition .start || o.readsPosition .stop) := by
  cases o <;> simp [readsPosition]

mutual
/-- A position that is read was asked for. -/
theorem asksPosition_of_readsPosition : ∀ {o : Operand} {ends : RangeEnds},
    o.readsPosition ends = true → o.asksPosition = true
  | .apply function args, ends, h => by
    rw [readsPosition, Bool.or_eq_true] at h
    rw [asksPosition, Bool.or_eq_true]
    exact h.imp_right firstAsksPosition_of_firstReadsPosition
  | .interval start stop, .both, h => by
    rw [readsPosition, Bool.or_eq_true] at h
    rw [asksPosition, Bool.or_eq_true]
    exact h.imp asksPosition_of_readsPosition asksPosition_of_readsPosition
  | .interval start stop, .start, h => by
    rw [readsPosition] at h
    rw [asksPosition, asksPosition_of_readsPosition h, Bool.true_or]
  | .interval start stop, .stop, h => by
    rw [readsPosition] at h
    rw [asksPosition, asksPosition_of_readsPosition h, Bool.or_true]
  | .property _, _, h => by simp [readsPosition] at h
  | .literal _, _, h => by simp [readsPosition] at h
  | .geometry _, _, h => by simp [readsPosition] at h
  | .temporal _, _, h => by simp [readsPosition] at h
  | .array _, _, h => by simp [readsPosition] at h

theorem firstAsksPosition_of_firstReadsPosition : ∀ {args : List Operand},
    firstReadsPosition args = true → firstAsksPosition args = true
  | [], h => by simp [firstReadsPosition] at h
  | arg :: _, h => by
    rw [firstReadsPosition] at h
    rw [firstAsksPosition, asksPosition_of_readsPosition h]
end

mutual
/-- A position that is asked for stands in the operand. -/
theorem usesPosition_of_asksPosition : ∀ {o : Operand},
    o.asksPosition = true → o.usesPosition = true
  | .apply function args, h => by
    rw [asksPosition, Bool.or_eq_true] at h
    rw [usesPosition, Bool.or_eq_true]
    exact h.imp_right listUsesPosition_of_firstAsksPosition
  | .interval start stop, h => by
    rw [asksPosition, Bool.or_eq_true] at h
    rw [usesPosition, Bool.or_eq_true]
    exact h.imp usesPosition_of_asksPosition usesPosition_of_asksPosition
  | .property _, h => by simp [asksPosition] at h
  | .literal _, h => by simp [asksPosition] at h
  | .geometry _, h => by simp [asksPosition] at h
  | .temporal _, h => by simp [asksPosition] at h
  | .array _, h => by simp [asksPosition] at h

theorem listUsesPosition_of_firstAsksPosition : ∀ {args : List Operand},
    firstAsksPosition args = true → listUsesPosition args = true
  | [], h => by simp [firstAsksPosition] at h
  | arg :: rest, h => by
    rw [firstAsksPosition] at h
    rw [listUsesPosition, usesPosition_of_asksPosition h, Bool.true_or]
end

theorem listUsesPosition_eq_any (os : List Operand) :
    listUsesPosition os = os.any usesPosition := by
  induction os with
  | nil => rfl
  | cons o rest ih => rw [listUsesPosition, ih, List.any_cons]

end Operand

/-- The operands of a predicate ask for a position. -/
def Predicate.asksPosition (p : Predicate) : Bool := p.operands.any Operand.asksPosition

/-- The test of a predicate reads a position. -/
def Predicate.readsPosition : Predicate → Bool
  | .temporal .before left right => left.readsPosition .stop || right.readsPosition .start
  | .temporal .after left right => left.readsPosition .start || right.readsPosition .stop
  | p => p.operands.any fun o => o.readsPosition .both

theorem Predicate.readsPosition_of_isTimeless {p : Predicate} (h : p.IsTimeless) :
    p.readsPosition = p.operands.any fun o => o.readsPosition .both := by
  cases p with
  | temporal relation left right => exact absurd rfl (h relation left right)
  | _ => rfl

theorem Predicate.asksPosition_of_readsPosition {p : Predicate} (h : p.readsPosition = true) :
    p.asksPosition = true := by
  have hany : (p.operands.any fun o => o.readsPosition .both) = true := by
    revert h
    fun_cases readsPosition p with
    | case1 left right =>
      simp only [operands, List.any_cons, List.any_nil, Operand.readsPosition_both, Bool.or_eq_true]
      tauto
    | case2 left right =>
      simp only [operands, List.any_cons, List.any_nil, Operand.readsPosition_both, Bool.or_eq_true]
      tauto
    | case3 => exact id
  obtain ⟨o, ho, hreads⟩ := List.any_eq_true.1 hany
  exact List.any_eq_true.2 ⟨o, ho, Operand.asksPosition_of_readsPosition hreads⟩

theorem Predicate.usesPosition_of_asksPosition {p : Predicate} (h : p.asksPosition = true) :
    p.usesPosition = true := by
  obtain ⟨o, ho, hasks⟩ := List.any_eq_true.1 h
  rw [usesPosition, Operand.listUsesPosition_eq_any]
  exact List.any_eq_true.2 ⟨o, ho, Operand.usesPosition_of_asksPosition hasks⟩

namespace Filter

/-- A leaf of a filter asks for a position. -/
def leafAsksPosition : Filter → Bool
  | .negation arg => arg.operands.any Operand.asksPosition
  | leaf => leaf.operands.any Operand.asksPosition

/-- A leaf of a filter on rows reads a position. There only literals are compared as arrays. -/
def leafReadsPosition : Filter → Bool
  | .negation (.test p) => p.readsPosition
  | .test p => p.readsPosition
  | _ => false

/-- A position is asked for where the condition of a filter is made. -/
def asksPosition (filter : Filter) : Bool := filter.leaves.any leafAsksPosition

/-- The condition that a filter on rows stands for reads a position. -/
def readsPosition (filter : Filter) : Bool := filter.leaves.any leafReadsPosition

theorem leafAsksPosition_of_leafReadsPosition {leaf : Filter} (hleaf : leaf.IsLeaf)
    (h : leaf.leafReadsPosition = true) : leaf.leafAsksPosition = true := by
  cases hleaf with
  | outsideList value list =>
    exact Predicate.asksPosition_of_readsPosition (p := .oneOf value list) h
  | test p => exact Predicate.asksPosition_of_readsPosition (p := p) h
  | array relation left right => simp [leafReadsPosition] at h
  | constant value => simp [leafReadsPosition] at h

theorem usesPosition_of_leafAsksPosition {leaf : Filter} (hleaf : leaf.IsLeaf)
    (h : leaf.leafAsksPosition = true) : leaf.usesPosition = true := by
  cases hleaf with
  | outsideList value list =>
    exact Predicate.usesPosition_of_asksPosition (p := .oneOf value list) h
  | test p => exact Predicate.usesPosition_of_asksPosition (p := p) h
  | array relation left right =>
    simp only [leafAsksPosition, operands, List.any_cons, List.any_nil, Bool.or_false,
      Bool.or_eq_true] at h
    rw [usesPosition, Bool.or_eq_true]
    exact h.imp Operand.usesPosition_of_asksPosition Operand.usesPosition_of_asksPosition
  | constant value => simp [leafAsksPosition, operands] at h

mutual
/-- A position that stands in a leaf stands in the filter. -/
theorem usesPosition_of_mem_leaves : ∀ {filter leaf : Filter}, leaf ∈ filter.leaves →
    leaf.usesPosition = true → filter.usesPosition = true
  | .all args, leaf, hleaf, h => by
    rw [leaves] at hleaf
    rw [usesPosition]
    exact listUsesPosition_of_mem_leavesOfList hleaf h
  | .any args, leaf, hleaf, h => by
    rw [leaves] at hleaf
    rw [usesPosition]
    exact listUsesPosition_of_mem_leavesOfList hleaf h
  | .negation arg, leaf, hleaf, h => by
    cases hlist : arg.isList with
    | true =>
      rw [(isLeaf_negation hlist).leaves_eq] at hleaf
      rwa [List.mem_singleton.1 hleaf] at h
    | false =>
      rw [leaves_negation hlist] at hleaf
      rw [usesPosition]
      exact usesPosition_of_mem_leaves hleaf h
  | .test p, leaf, hleaf, h => by rwa [List.mem_singleton.1 hleaf] at h
  | .array relation left right, leaf, hleaf, h => by rwa [List.mem_singleton.1 hleaf] at h
  | .constant value, leaf, hleaf, h => by rwa [List.mem_singleton.1 hleaf] at h

theorem listUsesPosition_of_mem_leavesOfList : ∀ {args : List Filter} {leaf : Filter},
    leaf ∈ leavesOfList args → leaf.usesPosition = true → listUsesPosition args = true
  | [], leaf, hleaf, _ => by simp [leavesOfList] at hleaf
  | arg :: rest, leaf, hleaf, h => by
    rw [leavesOfList] at hleaf
    rw [listUsesPosition, Bool.or_eq_true]
    exact (List.mem_append.1 hleaf).imp (usesPosition_of_mem_leaves · h)
      (listUsesPosition_of_mem_leavesOfList · h)
end

/-- A position that is read by a condition on rows stands in the filter. -/
theorem usesPosition_of_readsPosition {filter : Filter} (h : filter.readsPosition = true)
    (hleaves : ∀ leaf ∈ filter.leaves, leaf.IsLeaf) : filter.usesPosition = true := by
  obtain ⟨leaf, hleaf, hreads⟩ := List.any_eq_true.1 h
  have hisLeaf := hleaves leaf hleaf
  have hasks := leafAsksPosition_of_leafReadsPosition hisLeaf hreads
  exact usesPosition_of_mem_leaves hleaf (usesPosition_of_leafAsksPosition hisLeaf hasks)

end Filter

/-! ## Positions in the rows of a table -/

theorem TimeRange.positions_ofLiteral (literal : TemporalLiteral) :
    (ofLiteral literal).start.positions = [] ∧ (ofLiteral literal).stop.positions = [] := by
  constructor
  · cases h : literal.range.start <;> simp [ofLiteral, h, startOf, Scalar.positions]
  · cases h : literal.range.stop <;> simp [ofLiteral, h, stopOf, Scalar.positions]

/-- A relation between two ranges reads a position if one of the ends that it compares does. -/
theorem TimeTest.positions_relate_iff (hasOverlaps : Bool) (relation : TemporalRelation)
    (l r : TimeRange) : (∀ e ∈ (relate hasOverlaps relation l r).scalars, e.positions = []) ↔
      match relation with
      | .before => l.stop.positions = [] ∧ r.start.positions = []
      | .after => l.start.positions = [] ∧ r.stop.positions = []
      | _ => (l.start.positions = [] ∧ l.stop.positions = []) ∧
          r.start.positions = [] ∧ r.stop.positions = [] := by
  cases relation
  all_goals
    simp only [relate, meets, reaches, endsBefore, endsWithin]
    repeat' split
  all_goals
    simp only [scalars, List.cons_append, List.nil_append, List.forall_mem_cons, List.not_mem_nil,
      false_imp_iff, implies_true, and_true]
  all_goals tauto

namespace Storage

variable {s : Storage} {scope : Scope}

theorem positions_column {property : String} {e : Scalar} (h : s.column scope property = .ok e) :
    e.positions = [] := by
  cases scope with
  | row table =>
    obtain rfl := Except.ok.inj h
    rfl
  | feature tables =>
    obtain ⟨⟨table, column⟩, -, h⟩ := bind_eq_ok.1 h
    dsimp only at h
    split at h
    · obtain rfl := pure_eq_ok.1 h
      rfl
    · exact absurd h throw_ne_ok

theorem positions_rowPosition {e : Scalar} (h : rowPosition scope = .ok e) : e.positions ≠ [] := by
  cases scope with
  | row table =>
    obtain rfl := Except.ok.inj h
    exact List.cons_ne_nil _ _
  | feature tables => simp [rowPosition] at h

/-- A function reads a position if it is one or if its first argument does. -/
theorem positions_applyFunction_iff {function : ScalarFunction} {args : List Operand}
    (hargs : ∀ arg ∈ args, ∀ e, s.scalar scope arg = .ok e →
      (e.positions = [] ↔ arg.readsPosition .both = false))
    {e : Scalar} (h : s.applyFunction scope function (s.firstScalar scope args) = .ok e) :
    e.positions = [] ↔ (function == .position || Operand.firstReadsPosition args) = false := by
  rcases applyFunction_eq_ok h with ⟨rfl, hposition⟩ | ⟨hne, arg, rest, rfl, hmade⟩
  · exact iff_of_false (positions_rowPosition hposition) Bool.true_eq_false_eq_False
  · rw [beq_false_of_ne hne, Bool.false_or, Operand.firstReadsPosition]
    rcases hmade with ⟨text, rfl, rfl⟩ | ⟨inner, hinner, hmade⟩
    · exact iff_of_true rfl rfl
    · have hiff := hargs arg List.mem_cons_self inner hinner
      rcases hmade with rfl | rfl | ⟨collation, -, rfl⟩ <;> exact hiff

mutual
/-- The expression of an operand reads a position as the operand says. -/
theorem positions_scalar_iff : ∀ {operand : Operand} {e : Scalar},
    s.scalar scope operand = .ok e → (e.positions = [] ↔ operand.readsPosition .both = false)
  | .property name, _, h => iff_of_true (positions_column h) rfl
  | .literal value, _, h => by
    obtain rfl := Except.ok.inj h
    exact iff_of_true rfl rfl
  | .geometry value, _, h => by
    obtain rfl := Except.ok.inj h
    exact iff_of_true rfl rfl
  | .temporal (.instant value), _, h => by
    obtain rfl := Except.ok.inj h
    exact iff_of_true rfl rfl
  | .temporal (.date value), _, h => by
    obtain rfl := Except.ok.inj h
    exact iff_of_true rfl rfl
  | .temporal (.interval start stop), _, h => by
    obtain rfl := Except.ok.inj h
    refine iff_of_true ?_ rfl
    exact List.append_eq_nil_iff.2 (TimeRange.positions_ofLiteral _)
  | .interval start stop, _, h => by
    obtain ⟨first, hfirst, h⟩ := bind_eq_ok.1 h
    obtain ⟨last, hlast, h⟩ := bind_eq_ok.1 h
    obtain rfl := pure_eq_ok.1 h
    rw [Operand.readsPosition, Bool.or_eq_false_iff, ← (positions_timeRange_iff hfirst).1,
      ← (positions_timeRange_iff hlast).2]
    exact List.append_eq_nil_iff
  | .array values, _, h => by
    obtain rfl := Except.ok.inj h
    exact iff_of_true rfl rfl
  | .apply function args, _, h => by
    rw [Operand.readsPosition]
    exact positions_applyFunction_iff (positions_scalars_iff args) h

/-- The ends of the range of time of an operand read a position as the operand says. -/
theorem positions_timeRange_iff : ∀ {operand : Operand} {r : TimeRange},
    s.timeRange scope operand = .ok r →
      (r.start.positions = [] ↔ operand.readsPosition .start = false) ∧
        (r.stop.positions = [] ↔ operand.readsPosition .stop = false)
  | .property name, _, h => by
    obtain ⟨e, he, rfl⟩ := map_eq_ok.1 h
    exact ⟨iff_of_true (positions_column he) rfl, iff_of_true (positions_column he) rfl⟩
  | .temporal literal, _, h => by
    obtain rfl := Except.ok.inj h
    obtain ⟨hstart, hstop⟩ := TimeRange.positions_ofLiteral literal
    exact ⟨iff_of_true hstart rfl, iff_of_true hstop rfl⟩
  | .interval start stop, _, h => by
    obtain ⟨first, hfirst, h⟩ := bind_eq_ok.1 h
    obtain ⟨last, hlast, h⟩ := bind_eq_ok.1 h
    obtain rfl := pure_eq_ok.1 h
    rw [Operand.readsPosition, Operand.readsPosition]
    exact ⟨(positions_timeRange_iff hfirst).1, (positions_timeRange_iff hlast).2⟩
  | .apply function args, _, h => by
    obtain ⟨e, he, rfl⟩ := map_eq_ok.1 h
    have hiff := positions_applyFunction_iff (positions_scalars_iff args) he
    rw [Operand.readsPosition, Operand.readsPosition]
    exact ⟨hiff, hiff⟩
  -- no range of time is read from a value without one
  | .literal _, _, h => by simp [timeRange] at h
  | .geometry _, _, h => by simp [timeRange] at h
  | .array _, _, h => by simp [timeRange] at h

theorem positions_scalars_iff : ∀ (args : List Operand), ∀ arg ∈ args, ∀ e,
    s.scalar scope arg = .ok e → (e.positions = [] ↔ arg.readsPosition .both = false)
  | [] => by simp
  | arg :: rest =>
    List.forall_mem_cons.2 ⟨fun _ h => positions_scalar_iff h, positions_scalars_iff rest⟩
end

/-- The test of a predicate reads a position as the predicate says. -/
theorem positions_test_iff {negated : Bool} {p : Predicate} {t : Test}
    (h : s.test scope negated p = .ok t) : t.positions = [] ↔ p.readsPosition = false := by
  rw [Test.positions_eq_nil_iff]
  rcases test_cases h with ⟨htimeless, hscalars⟩ |
    ⟨relation, left, right, l, r, rfl, hl, hr, rfl⟩
  · rw [Predicate.readsPosition_of_isTimeless htimeless, List.any_eq_false,
      forall_mem_iff_of_forall₂ (fun _ _ he => positions_scalar_iff he) hscalars]
    simp only [Bool.not_eq_true]
  · obtain ⟨hlstart, hlstop⟩ := positions_timeRange_iff hl
    obtain ⟨hrstart, hrstop⟩ := positions_timeRange_iff hr
    rw [Test.scalars, TimeTest.positions_relate_iff]
    cases relation <;> simp [Predicate.readsPosition, Predicate.operands,
      Operand.readsPosition_both, hlstart, hlstop, hrstart, hrstop]

/-! ## Positions in conditions on rows -/

/-- A condition on the rows of a table reads a position as the filter says. -/
theorem positions_rowCondition_eq_nil_iff {table : Alias} {filter : Filter} {c : RowCondition}
    (h : s.rowCondition table filter = .ok c) :
    RowCondition.positions c = [] ↔ filter.readsPosition = false := by
  -- the arguments of a junction together read a position if one of them does
  have hlist : ∀ {args : List Filter} {cs : List RowCondition},
      List.Forall₂ (fun filter c => RowCondition.positions c = [] ↔ filter.readsPosition = false)
        args cs →
      ((Condition.atomsOfList cs).flatMap Test.positions = [] ↔
        (Filter.leavesOfList args).any Filter.leafReadsPosition = false) := by
    intro args cs hargs
    induction hargs with
    | nil => exact iff_of_true rfl rfl
    | cons hfirst _ ih =>
      rw [Condition.atomsOfList, List.flatMap_append, List.append_eq_nil_iff, Filter.leavesOfList,
        List.any_append, Bool.or_eq_false_iff, ih]
      exact and_congr_left' hfirst
  have kept : Filter.KeptByLowering
      (fun negated p => (s.test (.row table) negated p).map Condition.atom) rowArray .negation
      fun filter c => RowCondition.positions c = [] ↔ filter.readsPosition = false := by
    constructor
    · intro leaf c hleaf hc
      rw [Filter.readsPosition, hleaf.leaves_eq, List.any_cons, List.any_nil, Bool.or_false]
      -- a leaf is a test or the constant that an array relation becomes
      rcases rowCondition_leaf_cases hleaf hc with
        ⟨negated, p, t, hshape, ht, rfl⟩ | ⟨hshape, value, rfl⟩
      · have hp : leaf.leafReadsPosition = p.readsPosition := by
          rcases hshape with rfl | rfl <;> rfl
        rw [hp, ← positions_test_iff ht]
        simp [RowCondition.positions, Condition.atoms]
      · rcases hshape with ⟨relation, left, right, rfl⟩ | ⟨value, rfl⟩ <;> exact iff_of_true rfl rfl
    · intro args cs hargs
      rw [RowCondition.positions, Condition.atoms_conjunction]
      exact hlist hargs
    · intro args cs hargs
      rw [RowCondition.positions, Condition.atoms_disjunction]
      exact hlist hargs
    · intro arg c hno hkept
      rw [Filter.readsPosition, Filter.leaves_negation hno]
      exact hkept
  exact kept.of_lower filter h

/-- A condition on the rows of a table reads positions of this table only. -/
theorem positions_rowCondition_subset {table : Alias} {filter : Filter} {c : RowCondition}
    (h : s.rowCondition table filter = .ok c) : RowCondition.positions c ⊆ [table] := by
  intro name hname
  obtain ⟨t, ht, hname⟩ := List.mem_flatMap.1 hname
  obtain ⟨negated, p, htest⟩ := exists_test_of_mem_atoms h t ht
  obtain ⟨e, he, hname⟩ := List.mem_flatMap.1 hname
  exact tables_subset_of_test htest e he (e.positions_subset_tables hname)

/-! ## No position of a feature -/

section Feature

variable {tables : List (String × Alias)}

/-- A function of which an expression is made on features asks for no position. -/
theorem asksPosition_applyFunction {function : ScalarFunction} {args : List Operand}
    (hargs : ∀ arg ∈ args, ∀ e, s.scalar (.feature tables) arg = .ok e → arg.asksPosition = false)
    {e : Scalar}
    (h : s.applyFunction (.feature tables) function (s.firstScalar (.feature tables) args) =
      .ok e) :
    (function == .position || Operand.firstAsksPosition args) = false := by
  rcases applyFunction_eq_ok h with ⟨rfl, hposition⟩ | ⟨hne, arg, rest, rfl, hmade⟩
  · simp [rowPosition] at hposition
  · rw [beq_false_of_ne hne, Bool.false_or, Operand.firstAsksPosition]
    rcases hmade with ⟨text, rfl, -⟩ | ⟨inner, hinner, -⟩
    · rfl
    · exact hargs arg List.mem_cons_self inner hinner

mutual
/-- An operand of which an expression is made on features asks for no position. -/
theorem asksPosition_of_scalar : ∀ {operand : Operand} {e : Scalar},
    s.scalar (.feature tables) operand = .ok e → operand.asksPosition = false
  | .property _, _, _ => rfl
  | .literal _, _, _ => rfl
  | .geometry _, _, _ => rfl
  | .temporal _, _, _ => rfl
  | .interval start stop, _, h => by
    obtain ⟨first, hfirst, h⟩ := bind_eq_ok.1 h
    obtain ⟨last, hlast, h⟩ := bind_eq_ok.1 h
    rw [Operand.asksPosition, asksPosition_of_timeRange hfirst, asksPosition_of_timeRange hlast]
    rfl
  | .array _, _, _ => rfl
  | .apply function args, _, h => by
    rw [Operand.asksPosition]
    exact asksPosition_applyFunction (asksPosition_of_scalars args) h

/-- An operand of which a range of time is made on features asks for no position. -/
theorem asksPosition_of_timeRange : ∀ {operand : Operand} {r : TimeRange},
    s.timeRange (.feature tables) operand = .ok r → operand.asksPosition = false
  | .property _, _, _ => rfl
  | .literal _, _, _ => rfl
  | .geometry _, _, _ => rfl
  | .temporal _, _, _ => rfl
  | .interval start stop, _, h => by
    obtain ⟨first, hfirst, h⟩ := bind_eq_ok.1 h
    obtain ⟨last, hlast, h⟩ := bind_eq_ok.1 h
    rw [Operand.asksPosition, asksPosition_of_timeRange hfirst, asksPosition_of_timeRange hlast]
    rfl
  | .array _, _, _ => rfl
  | .apply function args, _, h => by
    obtain ⟨e, he, -⟩ := map_eq_ok.1 h
    rw [Operand.asksPosition]
    exact asksPosition_applyFunction (asksPosition_of_scalars args) he

theorem asksPosition_of_scalars : ∀ (args : List Operand), ∀ arg ∈ args, ∀ e,
    s.scalar (.feature tables) arg = .ok e → arg.asksPosition = false
  | [] => by simp
  | arg :: rest =>
    List.forall_mem_cons.2 ⟨fun _ h => asksPosition_of_scalar h, asksPosition_of_scalars rest⟩
end

/-- A predicate of which a test is made on features asks for no position. -/
theorem asksPosition_of_test {negated : Bool} {p : Predicate} {t : Test}
    (h : s.test (.feature tables) negated p = .ok t) : p.asksPosition = false := by
  rw [Predicate.asksPosition, List.any_eq_false]
  rcases test_cases h with ⟨-, hscalars⟩ | ⟨relation, left, right, l, r, rfl, hl, hr, -⟩
  · have hoperands := (forall_mem_iff_of_forall₂ (P := fun _ => True)
      (fun _ _ he => iff_of_true trivial (asksPosition_of_scalar he)) hscalars).1 fun _ _ => trivial
    simpa using hoperands
  · simp [Predicate.operands, asksPosition_of_timeRange hl, asksPosition_of_timeRange hr]

/-- A test on features reads no position. -/
theorem positions_test_feature {negated : Bool} {p : Predicate} {t : Test}
    (h : s.test (.feature tables) negated p = .ok t) : t.positions = [] := by
  rw [positions_test_iff h, ← Bool.not_eq_true]
  intro hreads
  have hasks := Predicate.asksPosition_of_readsPosition hreads
  rw [asksPosition_of_test h] at hasks
  exact Bool.false_ne_true hasks

/-- An expression on features reads no position. -/
theorem positions_scalar_feature {operand : Operand} {e : Scalar}
    (h : s.scalar (.feature tables) operand = .ok e) : e.positions = [] := by
  rw [positions_scalar_iff h, ← Bool.not_eq_true]
  intro hreads
  have hasks := Operand.asksPosition_of_readsPosition hreads
  rw [asksPosition_of_scalar h] at hasks
  exact Bool.false_ne_true hasks

end Feature

/-! ## Positions in joins -/

/-- If the condition of a join uses a position, the rows of its target are numbered. -/
theorem isNumbered_of_filter_of_joins {relations : List Relation} {options : JoinOptions}
    {source : Alias} {rest : List Alias} {joins : List Join}
    (hlength : rest.length = joinedCount relations)
    (h : s.joins options relations (source :: rest) = .ok joins) {j : Join} (hj : j ∈ joins)
    {condition : RowCondition} (hcondition : j.filter = some condition) :
    ∃ filter, s.rowCondition j.target.name filter = .ok condition ∧
      (filter.usesPosition = true → j.isNumbered = true) := by
  obtain ⟨-, r, -, filter, hfilter, hlowered, hnumbered⟩ :=
    relation_of_filter_of_joins hlength h j hj condition hcondition
  refine ⟨filter, hlowered, fun huses => ?_⟩
  rw [hnumbered, Relation.usesPosition, hfilter, Option.any_some, huses]

/-- The joins of the select of a membership have no conditions. -/
theorem filter_of_mem_joins_keysOnly {relations : List Relation} {depth : Nat} {joins : List Join}
    (h : s.joins .keysOnly relations (aliasChain depth relations) = .ok joins) :
    ∀ j ∈ joins, j.filter = none := by
  obtain ⟨rest, haliases, hlength⟩ := aliasChain_eq_cons depth relations
  rw [haliases] at h
  intro j hj
  refine Option.eq_none_iff_forall_ne_some.2 fun condition hcondition => ?_
  have hwith := (relation_of_filter_of_joins hlength h j hj condition hcondition).1
  exact Bool.false_ne_true hwith

end Storage

end FeatureStore
