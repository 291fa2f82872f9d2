import FeatureStore.Proofs.Outcomes
import FeatureStore.Sql.Membership

/-!
# Conditions made of filters

A filter is lowered leaf by leaf (`Filter.leaves`): a predicate, an array relation or a truth value
stands for a condition by itself, and so does a list of alternatives together with the negation
directly above it. Everything else is put together from these, so what is known of the leaves is
known of the whole (`Filter.KeptByLowering.of_lower`); only the rule that makes the negation of a
condition has to keep what is claimed. So the atoms of the condition are those of the leaves
(`forall_atoms_of_lower`), and whether a filter holds depends on its leaves alone (`Filter.holds`).
A test in turn is on the expressions of the operands, or relates two ranges of time
(`Storage.test_cases`). It fails as the columns of its properties do, or over a fault of its own
(`Storage.failsOnly_test`).
-/

set_option autoImplicit false

namespace FeatureStore

/-! ## Atoms of a condition -/

namespace Condition

variable {α : Type}

mutual
/-- The atoms of a condition, from left to right. -/
def atoms : Condition α → List α
  | .atom a => [a]
  | .constant _ => []
  | .all parts => atomsOfList parts
  | .any parts => atomsOfList parts
  | .negation part => part.atoms

/-- The atoms of a list of conditions. -/
def atomsOfList : List (Condition α) → List α
  | [] => []
  | part :: rest => part.atoms ++ atomsOfList rest
end

theorem mem_atomsOfList {a : α} {parts : List (Condition α)} :
    a ∈ atomsOfList parts ↔ ∃ part ∈ parts, a ∈ part.atoms := by
  induction parts with
  | nil => simp [atomsOfList]
  | cons part rest ih => simp [atomsOfList, ih]

theorem atoms_conjunction (parts : List (Condition α)) :
    (conjunction parts).atoms = atomsOfList parts := by
  match parts with
  | [] => rfl
  | [only] => simp [conjunction, atomsOfList]
  | _ :: _ :: _ => rfl

theorem atoms_disjunction (parts : List (Condition α)) :
    (disjunction parts).atoms = atomsOfList parts := by
  match parts with
  | [] => rfl
  | [only] => simp [disjunction, atomsOfList]
  | _ :: _ :: _ => rfl

theorem allHold_eq_all (truth : α → Bool) (parts : List (Condition α)) :
    allHold truth parts = parts.all (holds truth) := by
  induction parts with
  | nil => rfl
  | cons part rest ih => rw [allHold, ih, List.all_cons]

theorem anyHolds_eq_any (truth : α → Bool) (parts : List (Condition α)) :
    anyHolds truth parts = parts.any (holds truth) := by
  induction parts with
  | nil => rfl
  | cons part rest ih => rw [anyHolds, ih, List.any_cons]

end Condition

/-! ## Leaves of a filter -/

namespace Filter

/-- A list of alternatives. -/
def isList : Filter → Bool
  | .test (.oneOf _ _) => true
  | _ => false

mutual
/-- The parts of a filter that stand for conditions by themselves, from left to right. A negation
directly above a list of alternatives is part of the leaf. -/
def leaves : Filter → List Filter
  | .all args => leavesOfList args
  | .any args => leavesOfList args
  | .negation (.test (.oneOf value list)) => [.negation (.test (.oneOf value list))]
  | .negation arg => arg.leaves
  | .test p => [.test p]
  | .array relation left right => [.array relation left right]
  | .constant value => [.constant value]

/-- The leaves of a list of filters. -/
def leavesOfList : List Filter → List Filter
  | [] => []
  | arg :: rest => arg.leaves ++ leavesOfList rest
end

mutual
/-- The truth value of a filter, from the truth values of its leaves. All of no filters hold, and
none of them does. -/
def holds (truth : Filter → Bool) : Filter → Bool
  | .all args => allHold truth args
  | .any args => anyHolds truth args
  | .negation (.test (.oneOf value list)) => truth (.negation (.test (.oneOf value list)))
  | .negation arg => !arg.holds truth
  | .test p => truth (.test p)
  | .array relation left right => truth (.array relation left right)
  | .constant value => truth (.constant value)

/-- All filters of a list hold. -/
def allHold (truth : Filter → Bool) : List Filter → Bool
  | [] => true
  | arg :: rest => arg.holds truth && allHold truth rest

/-- Some filter of a list holds. -/
def anyHolds (truth : Filter → Bool) : List Filter → Bool
  | [] => false
  | arg :: rest => arg.holds truth || anyHolds truth rest
end

theorem mem_leavesOfList {leaf : Filter} {args : List Filter} :
    leaf ∈ leavesOfList args ↔ ∃ arg ∈ args, leaf ∈ arg.leaves := by
  induction args with
  | nil => simp [leavesOfList]
  | cons arg rest ih => simp [leavesOfList, ih]

theorem allHold_eq_all (truth : Filter → Bool) (args : List Filter) :
    allHold truth args = args.all (holds truth) := by
  induction args with
  | nil => rfl
  | cons arg rest ih => rw [allHold, ih, List.all_cons]

theorem anyHolds_eq_any (truth : Filter → Bool) (args : List Filter) :
    anyHolds truth args = args.any (holds truth) := by
  induction args with
  | nil => rfl
  | cons arg rest ih => rw [anyHolds, ih, List.any_cons]

/-- A filter that stands for a condition by itself. -/
inductive IsLeaf : Filter → Prop
  | outsideList (value : Operand) (list : List Operand) :
    IsLeaf (.negation (.test (.oneOf value list)))
  | test (p : Predicate) : IsLeaf (.test p)
  | array (relation : ArrayRelation) (left right : Operand) : IsLeaf (.array relation left right)
  | constant (value : Bool) : IsLeaf (.constant value)

theorem IsLeaf.leaves_eq {leaf : Filter} (h : leaf.IsLeaf) : leaf.leaves = [leaf] := by
  cases h <;> rfl

theorem IsLeaf.holds_eq {leaf : Filter} (h : leaf.IsLeaf) (truth : Filter → Bool) :
    leaf.holds truth = truth leaf := by
  cases h <;> rfl

section Negation

variable {arg : Filter}

theorem leaves_negation (h : arg.isList = false) : (negation arg).leaves = arg.leaves := by
  cases arg with
  | test p =>
    cases p with
    | oneOf value list => simp [isList] at h
    | _ => rfl
  | _ => rfl

theorem holds_negation (h : arg.isList = false) (truth : Filter → Bool) :
    (negation arg).holds truth = !arg.holds truth := by
  cases arg with
  | test p =>
    cases p with
    | oneOf value list => simp [isList] at h
    | _ => rfl
  | _ => rfl

/-- A list of alternatives under a negation is one leaf. -/
theorem isLeaf_negation (h : arg.isList = true) : (negation arg).IsLeaf := by
  cases arg with
  | test p =>
    cases p with
    | oneOf value list => exact .outsideList value list
    | _ => simp [isList] at h
  | _ => simp [isList] at h

end Negation

/-! ## Lowering -/

section Lowering

variable {α : Type} {predicate : Bool → Predicate → Except Error (Condition α)}
  {array : ArrayRelation → Operand → Operand → Except Error (Condition α)}
  {negate : Condition α → Condition α}

theorem lower_negation {arg : Filter} (h : arg.isList = false) :
    (negation arg).lower predicate array negate =
      (arg.lower predicate array negate).map negate := by
  cases arg with
  | test p =>
    cases p with
    | oneOf value list => simp [isList] at h
    | _ => rfl
  | _ => rfl

/-- What holds of the conditions of leaves, and is kept where conditions are combined or negated. -/
structure KeptByLowering (predicate : Bool → Predicate → Except Error (Condition α))
    (array : ArrayRelation → Operand → Operand → Except Error (Condition α))
    (negate : Condition α → Condition α) (motive : Filter → Condition α → Prop) : Prop where
  leaf : ∀ filter c, IsLeaf filter → filter.lower predicate array negate = .ok c →
    motive filter c
  all : ∀ args cs, List.Forall₂ motive args cs → motive (.all args) (.conjunction cs)
  any : ∀ args cs, List.Forall₂ motive args cs → motive (.any args) (.disjunction cs)
  negation : ∀ arg c, arg.isList = false → motive arg c → motive (.negation arg) (negate c)

mutual
/-- What lowering keeps holds of the condition of every filter. -/
theorem KeptByLowering.of_lower {motive : Filter → Condition α → Prop}
    (kept : KeptByLowering predicate array negate motive) :
    ∀ (filter : Filter) {c : Condition α}, filter.lower predicate array negate = .ok c →
      motive filter c
  | .all args, c, h => by
    obtain ⟨cs, hcs, rfl⟩ := map_eq_ok.1 h
    exact kept.all args cs (of_lowerList kept args hcs)
  | .any args, c, h => by
    obtain ⟨cs, hcs, rfl⟩ := map_eq_ok.1 h
    exact kept.any args cs (of_lowerList kept args hcs)
  | .negation arg, c, h => by
    cases hlist : arg.isList with
    | true => exact kept.leaf _ _ (isLeaf_negation hlist) h
    | false =>
      rw [lower_negation hlist] at h
      obtain ⟨d, hd, rfl⟩ := map_eq_ok.1 h
      exact kept.negation arg d hlist (of_lower kept arg hd)
  | .test p, c, h => kept.leaf _ _ (.test p) h
  | .array relation left right, c, h => kept.leaf _ _ (.array relation left right) h
  | .constant value, c, h => kept.leaf _ _ (.constant value) h

/-- What lowering keeps holds of the conditions of a list of filters, one by one. -/
theorem KeptByLowering.of_lowerList {motive : Filter → Condition α → Prop}
    (kept : KeptByLowering predicate array negate motive) :
    ∀ (args : List Filter) {cs : List (Condition α)},
      lowerList predicate array negate args = .ok cs → List.Forall₂ motive args cs
  | [], cs, h => by
    obtain rfl : [] = cs := Except.ok.inj h
    exact .nil
  | arg :: rest, cs, h => by
    obtain ⟨c, hc, h⟩ := bind_eq_ok.1 h
    obtain ⟨ds, hds, h⟩ := bind_eq_ok.1 h
    obtain rfl := pure_eq_ok.1 h
    exact .cons (of_lower kept arg hc) (of_lowerList kept rest hds)
end

/-- If a filter can be lowered, so can each of its leaves. -/
theorem exists_lower_of_mem_leaves {filter : Filter} {c : Condition α}
    (h : filter.lower predicate array negate = .ok c) :
    ∀ leaf ∈ filter.leaves, leaf.IsLeaf ∧ ∃ d, leaf.lower predicate array negate = .ok d := by
  have hlist : ∀ {args : List Filter} {cs : List (Condition α)},
      List.Forall₂ (fun filter _ => ∀ leaf ∈ filter.leaves,
        leaf.IsLeaf ∧ ∃ d, leaf.lower predicate array negate = .ok d) args cs →
      ∀ leaf ∈ leavesOfList args,
        leaf.IsLeaf ∧ ∃ d, leaf.lower predicate array negate = .ok d := by
    intro args cs hargs leaf hleaf
    obtain ⟨arg, harg, hleaf⟩ := mem_leavesOfList.1 hleaf
    obtain ⟨_, _, hkept⟩ := exists_left_of_forall₂ hargs.flip harg
    exact hkept leaf hleaf
  have kept : KeptByLowering predicate array negate fun filter _ => ∀ leaf ∈ filter.leaves,
      leaf.IsLeaf ∧ ∃ d, leaf.lower predicate array negate = .ok d := by
    refine ⟨?_, fun _ _ hargs => hlist hargs, fun _ _ hargs => hlist hargs, ?_⟩
    · intro filter c hleaf hc
      rw [hleaf.leaves_eq]
      exact List.forall_mem_singleton.2 ⟨hleaf, c, hc⟩
    · intro arg c hno hkept
      rw [leaves_negation hno]
      exact hkept
  exact kept.of_lower filter h

mutual
/-- If a filter cannot be lowered, it is because of one of its leaves. -/
theorem exists_leaf_of_lower_eq_error : ∀ {filter : Filter} {e : Error},
    filter.lower predicate array negate = .error e →
      ∃ leaf ∈ filter.leaves, leaf.IsLeaf ∧ leaf.lower predicate array negate = .error e
  | .all args, e, h => exists_leaf_of_lowerList_eq_error (map_eq_error h)
  | .any args, e, h => exists_leaf_of_lowerList_eq_error (map_eq_error h)
  | .negation arg, e, h => by
    cases hlist : arg.isList with
    | true =>
      have hleaf := isLeaf_negation hlist
      rw [hleaf.leaves_eq]
      exact ⟨_, List.mem_singleton_self _, hleaf, h⟩
    | false =>
      rw [lower_negation hlist] at h
      rw [leaves_negation hlist]
      exact exists_leaf_of_lower_eq_error (map_eq_error h)
  | .test p, e, h => ⟨_, List.mem_singleton_self _, .test p, h⟩
  | .array relation left right, e, h =>
    ⟨_, List.mem_singleton_self _, .array relation left right, h⟩
  | .constant value, e, h => ⟨_, List.mem_singleton_self _, .constant value, h⟩

theorem exists_leaf_of_lowerList_eq_error : ∀ {args : List Filter} {e : Error},
    lowerList predicate array negate args = .error e →
      ∃ leaf ∈ leavesOfList args, leaf.IsLeaf ∧ leaf.lower predicate array negate = .error e
  | [], e, h => by simp [lowerList] at h
  | arg :: rest, e, h => by
    rw [leavesOfList]
    rcases bind_eq_error.1 h with h | ⟨c, -, h⟩
    · obtain ⟨leaf, hmem, hleaf⟩ := exists_leaf_of_lower_eq_error h
      exact ⟨leaf, List.mem_append_left _ hmem, hleaf⟩
    · rcases bind_eq_error.1 h with h | ⟨cs, -, h⟩
      · obtain ⟨leaf, hmem, hleaf⟩ := exists_leaf_of_lowerList_eq_error h
        exact ⟨leaf, List.mem_append_right _ hmem, hleaf⟩
      · simp [pure, Except.pure] at h
end

/-- What holds of the atoms of all leaves, and is kept by negations, holds of all atoms of the
condition. -/
theorem forall_atoms_of_lower {P : α → Prop}
    (hnegate : ∀ c : Condition α, (∀ a ∈ c.atoms, P a) → ∀ a ∈ (negate c).atoms, P a)
    {filter : Filter} {c : Condition α} (h : filter.lower predicate array negate = .ok c)
    (hleaves : ∀ leaf ∈ filter.leaves, ∀ d, leaf.lower predicate array negate = .ok d →
      ∀ a ∈ d.atoms, P a) :
    ∀ a ∈ c.atoms, P a := by
  have hlist : ∀ {args : List Filter} {cs : List (Condition α)},
      List.Forall₂ (fun filter c => (∀ leaf ∈ filter.leaves, ∀ d,
        leaf.lower predicate array negate = .ok d → ∀ a ∈ d.atoms, P a) → ∀ a ∈ c.atoms, P a)
        args cs →
      (∀ leaf ∈ leavesOfList args, ∀ d, leaf.lower predicate array negate = .ok d →
        ∀ a ∈ d.atoms, P a) → ∀ a ∈ Condition.atomsOfList cs, P a := by
    intro args cs hargs hleaves a ha
    obtain ⟨part, hpart, ha⟩ := Condition.mem_atomsOfList.1 ha
    obtain ⟨arg, harg, hkept⟩ := exists_left_of_forall₂ hargs hpart
    exact hkept (fun leaf hleaf => hleaves leaf (mem_leavesOfList.2 ⟨arg, harg, hleaf⟩)) a ha
  have kept : KeptByLowering predicate array negate fun filter c =>
      (∀ leaf ∈ filter.leaves, ∀ d, leaf.lower predicate array negate = .ok d →
        ∀ a ∈ d.atoms, P a) → ∀ a ∈ c.atoms, P a := by
    constructor
    · intro filter c hleaf hc hleaves
      rw [hleaf.leaves_eq] at hleaves
      exact hleaves filter List.mem_cons_self c hc
    · intro args cs hargs hleaves
      rw [Condition.atoms_conjunction]
      exact hlist hargs hleaves
    · intro args cs hargs hleaves
      rw [Condition.atoms_disjunction]
      exact hlist hargs hleaves
    · intro arg c hno hkept hleaves
      rw [leaves_negation hno] at hleaves
      exact hnegate c (hkept hleaves)
  exact kept.of_lower filter h hleaves

end Lowering

end Filter

/-! ## Tests of predicates -/

theorem Operand.propertiesOfList_eq_flatMap (operands : List Operand) :
    propertiesOfList operands = operands.flatMap properties := by
  induction operands with
  | nil => rfl
  | cons o rest ih => rw [propertiesOfList, ih, List.flatMap_cons]

/-- The expressions that a test on moments compares. -/
def TimeTest.scalars : TimeTest → List Scalar
  | .compare _ left right => [left, right]
  | .both first second => first.scalars ++ second.scalars
  | .negation test => test.scalars
  | .overlaps left right => [left.start, left.stop, right.start, right.stop]

/-- The expressions that a test is about. -/
def Test.scalars : Test → List Scalar
  | .compare _ left right => [left, right]
  | .like value pattern => [value, pattern]
  | .oneOf value list _ => value :: list
  | .isNull value => [value]
  | .between value lower upper => [value, lower, upper]
  | .spatial _ left right => [left, right]
  | .temporal test => test.scalars

/-- A predicate is no temporal relation, so that its test is on the operands themselves. -/
def Predicate.IsTimeless (p : Predicate) : Prop :=
  ∀ relation left right, p ≠ .temporal relation left right

/-- A test compares the expressions of the operands, or the ranges of time of two of them. -/
theorem Storage.test_cases {s : Storage} {scope : Scope} {negated : Bool} {p : Predicate} {t : Test}
    (h : s.test scope negated p = .ok t) :
    (p.IsTimeless ∧ List.Forall₂ (fun o e => s.scalar scope o = .ok e) p.operands t.scalars) ∨
      ∃ relation left right l r, p = .temporal relation left right ∧
        s.timeRange scope left = .ok l ∧ s.timeRange scope right = .ok r ∧
          t = .temporal (TimeTest.relate s.dialect.hasOverlaps relation l r) := by
  cases p with
  | compare op left right =>
    obtain ⟨l, hl, h⟩ := bind_eq_ok.1 h
    obtain ⟨r, hr, h⟩ := bind_eq_ok.1 h
    obtain rfl := pure_eq_ok.1 h
    exact .inl ⟨by simp [Predicate.IsTimeless], .cons hl (.cons hr .nil)⟩
  | like value pattern =>
    obtain ⟨v, hv, h⟩ := bind_eq_ok.1 h
    obtain ⟨q, hq, h⟩ := bind_eq_ok.1 h
    obtain rfl := pure_eq_ok.1 h
    exact .inl ⟨by simp [Predicate.IsTimeless], .cons hv (.cons hq .nil)⟩
  | oneOf value list =>
    obtain ⟨members, hmembers, h⟩ := bind_eq_ok.1 h
    obtain ⟨v, hv, h⟩ := bind_eq_ok.1 h
    obtain rfl := pure_eq_ok.1 h
    exact .inl ⟨by simp [Predicate.IsTimeless], .cons hv (mapM_eq_ok_iff.1 hmembers)⟩
  | isNull value =>
    obtain ⟨v, hv, h⟩ := bind_eq_ok.1 h
    obtain rfl := pure_eq_ok.1 h
    exact .inl ⟨by simp [Predicate.IsTimeless], .cons hv .nil⟩
  | between value lower upper =>
    obtain ⟨v, hv, h⟩ := bind_eq_ok.1 h
    obtain ⟨l, hl, h⟩ := bind_eq_ok.1 h
    obtain ⟨u, hu, h⟩ := bind_eq_ok.1 h
    obtain rfl := pure_eq_ok.1 h
    exact .inl ⟨by simp [Predicate.IsTimeless], .cons hv (.cons hl (.cons hu .nil))⟩
  | spatial relation left right =>
    obtain ⟨l, hl, h⟩ := bind_eq_ok.1 h
    obtain ⟨r, hr, h⟩ := bind_eq_ok.1 h
    obtain rfl := pure_eq_ok.1 h
    exact .inl ⟨by simp [Predicate.IsTimeless], .cons hl (.cons hr .nil)⟩
  | temporal relation left right =>
    obtain ⟨l, hl, h⟩ := bind_eq_ok.1 h
    obtain ⟨r, hr, h⟩ := bind_eq_ok.1 h
    exact .inr ⟨relation, left, right, l, r, rfl, hl, hr, (pure_eq_ok.1 h).symm⟩

/-- A temporal predicate is the test that its relation stands for between the two ranges. -/
theorem Storage.test_temporal_eq_ok {s : Storage} {scope : Scope} {left right : Operand}
    {l r : TimeRange} (relation : TemporalRelation) (negated : Bool)
    (hleft : s.timeRange scope left = .ok l) (hright : s.timeRange scope right = .ok r) :
    s.test scope negated (.temporal relation left right) =
      .ok (.temporal (TimeTest.relate s.dialect.hasOverlaps relation l r)) :=
  bind_eq_ok.2 ⟨l, hleft, bind_eq_ok.2 ⟨r, hright, rfl⟩⟩

/-! ## Functions, and leaves on rows -/

namespace Storage

variable {s : Storage}

/-- A function stands for the position of a row, or for its first argument: a text in lower case at
once, or the expression of the argument below a function of the statement. -/
theorem applyFunction_eq_ok {scope : Scope} {function : ScalarFunction} {args : List Operand}
    {e : Scalar} (h : s.applyFunction scope function (s.firstScalar scope args) = .ok e) :
    (function = .position ∧ rowPosition scope = .ok e) ∨
      function ≠ .position ∧ ∃ arg rest, args = arg :: rest ∧
        ((∃ text, arg = .literal (.text text) ∧ e = .literal (.text (lowercase text))) ∨
          ∃ inner, s.scalar scope arg = .ok inner ∧ (e = .upper inner ∨ e = .lower inner ∨
            ∃ collation ∈ s.collation, e = .collated inner collation)) := by
  cases args with
  | nil =>
    cases function with
    | position => exact .inl ⟨rfl, h⟩
    | _ => simp [firstScalar, applyFunction] at h
  | cons arg rest =>
    rw [firstScalar] at h
    have hlower : (s.scalar scope arg).map Scalar.lower = .ok e →
        ∃ inner, s.scalar scope arg = .ok inner ∧ (e = .upper inner ∨ e = .lower inner ∨
          ∃ collation ∈ s.collation, e = .collated inner collation) := by
      intro h
      obtain ⟨inner, hinner, rfl⟩ := map_eq_ok.1 h
      exact ⟨inner, hinner, .inr (.inl rfl)⟩
    cases function with
    | position => exact .inl ⟨rfl, h⟩
    | upper =>
      obtain ⟨inner, hinner, rfl⟩ := map_eq_ok.1 h
      exact .inr ⟨by simp, arg, rest, rfl, .inr ⟨inner, hinner, .inl rfl⟩⟩
    | lower => exact .inr ⟨by simp, arg, rest, rfl, .inr (hlower h)⟩
    | caseInsensitive =>
      refine .inr ⟨by simp, arg, rest, rfl, ?_⟩
      cases arg with
      | literal value =>
        cases value with
        | text text => exact .inl ⟨text, rfl, (Except.ok.inj h).symm⟩
        | _ => exact .inr (hlower h)
      | _ => exact .inr (hlower h)
    | accentInsensitive =>
      simp only [applyFunction] at h
      cases hcollation : s.collation with
      | none => simp [hcollation] at h
      | some collation =>
        rw [hcollation] at h
        obtain ⟨inner, hinner, rfl⟩ := map_eq_ok.1 h
        exact .inr ⟨by simp, arg, rest, rfl,
          .inr ⟨inner, hinner, .inr (.inr ⟨collation, rfl, rfl⟩)⟩⟩

/-- The condition of a leaf of a filter on rows is the test of its predicate, or a truth value: only
literals are compared as arrays there. -/
theorem rowCondition_leaf_cases {table : Alias} {leaf : Filter} (hleaf : leaf.IsLeaf)
    {c : RowCondition} (h : s.rowCondition table leaf = .ok c) :
    (∃ negated p t, (leaf = .test p ∨ leaf = .negation (.test p)) ∧
        s.test (.row table) negated p = .ok t ∧ c = .atom t) ∨
      ((∃ relation left right, leaf = .array relation left right) ∨
          ∃ value, leaf = .constant value) ∧
        ∃ value, c = .constant value := by
  cases hleaf with
  | outsideList value list =>
    obtain ⟨t, ht, rfl⟩ := map_eq_ok.1 h
    exact .inl ⟨true, .oneOf value list, t, .inr rfl, ht, rfl⟩
  | test p =>
    obtain ⟨t, ht, rfl⟩ := map_eq_ok.1 h
    exact .inl ⟨false, p, t, .inl rfl, ht, rfl⟩
  | array relation left right =>
    refine .inr ⟨.inl ⟨relation, left, right, rfl⟩, ?_⟩
    replace h : rowArray relation left right = .ok c := h
    rw [rowArray] at h
    split at h
    · exact ⟨_, (Except.ok.inj h).symm⟩
    · obtain ⟨_, -, h⟩ := bind_eq_ok.1 h
      exact absurd h throw_ne_ok
  | constant value => exact .inr ⟨.inr ⟨value, rfl⟩, value, (Except.ok.inj h).symm⟩

/-- The atoms of a condition on rows are tests of predicates. -/
theorem exists_test_of_mem_atoms {table : Alias} {filter : Filter} {c : RowCondition}
    (h : s.rowCondition table filter = .ok c) :
    ∀ t ∈ c.atoms, ∃ negated p, s.test (.row table) negated p = .ok t := by
  refine Filter.forall_atoms_of_lower ?_ h ?_
  · intro c hc
    exact hc
  · intro leaf hleaf d hd t ht
    rcases rowCondition_leaf_cases (Filter.exists_lower_of_mem_leaves h leaf hleaf).1 hd with
      ⟨negated, p, given, -, hgiven, rfl⟩ | ⟨-, value, rfl⟩
    · obtain rfl := List.mem_singleton.1 ht
      exact ⟨negated, p, hgiven⟩
    · cases ht

/-! ## Faults of lowering -/

section Faults

/-- What is said of faults holds of every fault of a mapping but that a table is not read where its
column is asked for. -/
def HoldsOfFaults (P : Error → Prop) : Prop :=
  ∀ path fault, fault ≠ .unreachableProperty → P (.mapping path fault)

variable {P : Error → Prop} (hP : HoldsOfFaults P)

include hP

theorem failsOnly_resolve (property : String) : FailsOnly P (s.resolve property) := by
  rw [resolve]
  split
  · exact .ok _
  · split
    · exact .ok _
    · split
      · exact .ok _
      · exact .error (hP _ _ (by simp))

theorem failsOnly_joinedTableFrom : ∀ (properties : List String) (found : Option Table),
    FailsOnly P (s.joinedTableFrom found properties)
  | [], found => .ok found
  | property :: rest, found => by
    rw [joinedTableFrom]
    refine (failsOnly_resolve hP property).bind fun resolved _ => ?_
    obtain ⟨table, column⟩ := resolved
    dsimp only
    split
    · exact failsOnly_joinedTableFrom rest found
    · split
      · split
        · exact failsOnly_joinedTableFrom rest _
        · exact .error (hP _ _ (by simp))
      · exact failsOnly_joinedTableFrom rest _

theorem failsOnly_readAgainst (relation : ArrayRelation) (left right : Operand) :
    FailsOnly P (relation.readAgainst left right) := by
  rw [ArrayRelation.readAgainst.eq_def]
  split
  · exact .ok _
  · exact .ok _
  · exact .error (hP _ _ (by simp))

variable {scope : Scope}

theorem failsOnly_rowPosition : FailsOnly P (rowPosition scope) := by
  cases scope with
  | row table => exact .ok _
  | feature tables => exact .error (hP _ _ (by simp))

/-- A function fails as its first argument does. -/
theorem failsOnly_applyFunction (function : ScalarFunction) {args : List Operand}
    (hargs : ∀ arg ∈ args.head?, FailsOnly P (s.scalar scope arg)) :
    FailsOnly P (s.applyFunction scope function (s.firstScalar scope args)) := by
  cases args with
  | nil =>
    rw [firstScalar]
    cases function with
    | position => exact failsOnly_rowPosition hP
    | _ => exact .error (hP _ _ (by simp))
  | cons arg rest =>
    have harg := hargs arg rfl
    rw [firstScalar]
    cases function with
    | upper => exact harg.map _
    | lower => exact harg.map _
    | caseInsensitive =>
      cases arg with
      | literal value =>
        cases value with
        | text text => exact .ok _
        | _ => exact harg.map _
      | _ => exact harg.map _
    | accentInsensitive =>
      simp only [applyFunction]
      split
      · exact harg.map _
      · exact .error (hP _ _ (by simp))
    | position => exact failsOnly_rowPosition hP

mutual
/-- An operand fails as the columns of its properties do. -/
theorem failsOnly_scalar : ∀ {o : Operand},
    (∀ property ∈ o.properties, FailsOnly P (s.column scope property)) →
      FailsOnly P (s.scalar scope o)
  | .property name, h => h name List.mem_cons_self
  | .literal _, _ => .ok _
  | .geometry _, _ => .ok _
  | .temporal (.instant _), _ => .ok _
  | .temporal (.date _), _ => .ok _
  | .temporal (.interval _ _), _ => .ok _
  | .interval start stop, h => by
    rw [Operand.properties] at h
    obtain ⟨hstart, hstop⟩ := List.forall_mem_append.1 h
    rw [scalar]
    refine (failsOnly_timeRange hstart).bind fun first _ => ?_
    exact (failsOnly_timeRange hstop).bind fun last _ => .ok _
  | .array _, _ => .ok _
  | .apply function [], _ => failsOnly_applyFunction hP function (by simp)
  | .apply function (arg :: rest), h => by
    rw [Operand.properties, Operand.propertiesOfList] at h
    have harg := failsOnly_scalar (List.forall_mem_append.1 h).1
    rw [scalar]
    exact failsOnly_applyFunction hP function (by simpa using harg)

theorem failsOnly_timeRange : ∀ {o : Operand},
    (∀ property ∈ o.properties, FailsOnly P (s.column scope property)) →
      FailsOnly P (s.timeRange scope o)
  | .property name, h => (h name List.mem_cons_self).map _
  | .literal _, _ => .error (hP _ _ (by simp))
  | .geometry _, _ => .error (hP _ _ (by simp))
  | .temporal _, _ => .ok _
  | .interval start stop, h => by
    rw [Operand.properties] at h
    obtain ⟨hstart, hstop⟩ := List.forall_mem_append.1 h
    rw [timeRange]
    refine (failsOnly_timeRange hstart).bind fun first _ => ?_
    exact (failsOnly_timeRange hstop).bind fun last _ => .ok _
  | .array _, _ => .error (hP _ _ (by simp))
  | .apply function [], _ => (failsOnly_applyFunction hP function (by simp)).map _
  | .apply function (arg :: rest), h => by
    rw [Operand.properties, Operand.propertiesOfList] at h
    have harg := failsOnly_scalar (List.forall_mem_append.1 h).1
    rw [timeRange]
    exact (failsOnly_applyFunction hP function (by simpa using harg)).map _
end

/-- A test fails as the columns of its properties do. -/
theorem failsOnly_test (negated : Bool) {p : Predicate}
    (h : ∀ property ∈ p.properties, FailsOnly P (s.column scope property)) :
    FailsOnly P (s.test scope negated p) := by
  rw [Predicate.properties, Operand.propertiesOfList_eq_flatMap, List.forall_mem_flatMap] at h
  have hscalar : ∀ o ∈ p.operands, FailsOnly P (s.scalar scope o) :=
    fun o ho => failsOnly_scalar hP (h o ho)
  cases p with
  | compare op left right =>
    exact (hscalar left (by simp [Predicate.operands])).bind fun _ _ =>
      (hscalar right (by simp [Predicate.operands])).bind fun _ _ => .ok _
  | like value pattern =>
    exact (hscalar value (by simp [Predicate.operands])).bind fun _ _ =>
      (hscalar pattern (by simp [Predicate.operands])).bind fun _ _ => .ok _
  | oneOf value list =>
    refine (FailsOnly.mapM fun member hmember =>
      hscalar member (by simp [Predicate.operands, hmember])).bind fun _ _ => ?_
    exact (hscalar value (by simp [Predicate.operands])).bind fun _ _ => .ok _
  | isNull value => exact (hscalar value (by simp [Predicate.operands])).bind fun _ _ => .ok _
  | between value lower upper =>
    exact (hscalar value (by simp [Predicate.operands])).bind fun _ _ =>
      (hscalar lower (by simp [Predicate.operands])).bind fun _ _ =>
        (hscalar upper (by simp [Predicate.operands])).bind fun _ _ => .ok _
  | spatial relation left right =>
    exact (hscalar left (by simp [Predicate.operands])).bind fun _ _ =>
      (hscalar right (by simp [Predicate.operands])).bind fun _ _ => .ok _
  | temporal relation left right =>
    -- the ends of ranges are asked for, not the operands themselves
    have hrange : ∀ o ∈ [left, right], FailsOnly P (s.timeRange scope o) :=
      fun o ho => failsOnly_timeRange hP (h o ho)
    exact (hrange left (by simp)).bind fun _ _ => (hrange right (by simp)).bind fun _ _ => .ok _

end Faults

end Storage

end FeatureStore
