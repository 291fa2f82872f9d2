import FeatureStore.Proofs.Sql.RowNumbers

/-!
# Positions in filters on features

A filter on features that asks for the position of a row is refused
(`exists_mapping_of_asksPosition`), since every way in which a filter cannot be lowered is a fault
of the mapping (`isMapping_featureCondition`). So no condition on features reads a position,
neither in the select around it nor in the selects of its memberships
(`isPositionless_of_featureCondition`).
-/

set_option autoImplicit false

namespace FeatureStore

/-! ## Conditions on features -/

/-- What a select keeps reads positions of these tables. -/
def Selection.positions : Selection → List Alias
  | .rows test => test.positions
  | .elements column _ _ => column.positions

/-- An atom reads no position, neither in the select around it nor in one of its own. -/
def FeatureAtom.IsPositionless : FeatureAtom → Prop
  | .test t => t.positions = []
  | .member m => m.selection.positions = [] ∧ ∀ j ∈ m.joins, j.filter = none

namespace Storage

variable {s : Storage}

/-- A membership reads no position if what its select keeps does not. -/
theorem isPositionless_membership {table : Table} {select : Scope → Except Error Selection}
    {c : FeatureCondition} (h : s.membership table select = .ok c) :
    ∃ tables selection, select (.feature tables) = .ok selection ∧
      (selection.positions = [] → ∃ atom : FeatureAtom, c = .atom atom ∧ atom.IsPositionless) := by
  obtain ⟨joins, hjoins, h⟩ := bind_eq_ok.1 h
  obtain ⟨selection, hselection, h⟩ := bind_eq_ok.1 h
  obtain rfl := pure_eq_ok.1 h
  exact ⟨_, selection, hselection, fun hpositions =>
    ⟨_, rfl, hpositions, filter_of_mem_joins_keysOnly hjoins⟩⟩

/-- The condition of a predicate on features is one atom, and nothing in it asks for a position. -/
theorem isPositionless_featurePredicate {negated : Bool} {p : Predicate} {c : FeatureCondition}
    (h : s.featurePredicate negated p = .ok c) :
    p.asksPosition = false ∧ ∃ atom : FeatureAtom, c = .atom atom ∧ atom.IsPositionless := by
  obtain ⟨found, -, h⟩ := bind_eq_ok.1 h
  cases found with
  | none =>
    obtain ⟨t, ht, h⟩ := bind_eq_ok.1 h
    obtain rfl := pure_eq_ok.1 h
    exact ⟨asksPosition_of_test ht, _, rfl, positions_test_feature ht⟩
  | some table =>
    obtain ⟨tables, selection, hselection, hatom⟩ := isPositionless_membership h
    obtain ⟨t, ht, rfl⟩ := map_eq_ok.1 hselection
    exact ⟨asksPosition_of_test ht, hatom (positions_test_feature ht)⟩

theorem asksPosition_of_members {o : Operand} {values : List Value}
    (h : o.members? = some values) : o.asksPosition = false := by
  cases o with
  | literal value => rfl
  | array values => rfl
  | _ => simp [Operand.members?] at h

/-- Of the sides of an array relation that can be read, one is an array of literals. -/
theorem asksPosition_of_readAgainst {relation turned : ArrayRelation} {left right value : Operand}
    {values : List Value} (h : relation.readAgainst left right = .ok (value, values, turned)) :
    (left.asksPosition || right.asksPosition) = value.asksPosition := by
  rw [ArrayRelation.readAgainst.eq_def] at h
  split at h
  · obtain ⟨rfl, -⟩ := Prod.mk.inj (Except.ok.inj h)
    rfl
  · obtain ⟨rfl, -⟩ := Prod.mk.inj (Except.ok.inj h)
    exact Bool.or_false _
  · simp at h

/-- The condition of an array relation on features is a truth value or one atom, and nothing in it
asks for a position. -/
theorem isPositionless_featureArray {relation : ArrayRelation} {left right : Operand}
    {c : FeatureCondition} (h : s.featureArray relation left right = .ok c) :
    (left.asksPosition || right.asksPosition) = false ∧
      ((∃ value, c = .constant value) ∨
        ∃ atom : FeatureAtom, c = .atom atom ∧ atom.IsPositionless) := by
  rw [featureArray] at h
  split at h
  · rename_i first second hfirst hsecond
    rw [asksPosition_of_members hfirst, asksPosition_of_members hsecond]
    exact ⟨rfl, .inl ⟨_, (Except.ok.inj h).symm⟩⟩
  · obtain ⟨⟨value, values, turned⟩, hread, h⟩ := bind_eq_ok.1 h
    rw [asksPosition_of_readAgainst hread]
    dsimp only at h
    split at h
    · exact absurd h throw_ne_ok
    · obtain ⟨found, -, h⟩ := bind_eq_ok.1 h
      obtain ⟨tables, selection, hselection, hatom⟩ := isPositionless_membership h
      obtain ⟨e, he, rfl⟩ := map_eq_ok.1 hselection
      exact ⟨asksPosition_of_scalar he, .inr (hatom (positions_scalar_feature he))⟩

theorem isPositionless_leaf {leaf : Filter} (hleaf : leaf.IsLeaf) {c : FeatureCondition}
    (h : s.featureCondition leaf = .ok c) : leaf.leafAsksPosition = false ∧
      ((∃ value, c = .constant value) ∨
        ∃ atom : FeatureAtom, c = .atom atom ∧ atom.IsPositionless) := by
  cases hleaf with
  | outsideList value list =>
    exact (isPositionless_featurePredicate (p := .oneOf value list) h).imp_right .inr
  | test p => exact (isPositionless_featurePredicate (p := p) h).imp_right .inr
  | array relation left right =>
    rw [Filter.leafAsksPosition]
    · simpa [Filter.operands] using isPositionless_featureArray h
    · simp
  | constant value => exact ⟨rfl, .inl ⟨value, (Except.ok.inj h).symm⟩⟩

/-- A filter on features of which a condition is made asks for no position. -/
theorem asksPosition_of_featureCondition {filter : Filter} {c : FeatureCondition}
    (h : s.featureCondition filter = .ok c) : filter.asksPosition = false := by
  rw [Filter.asksPosition, List.any_eq_false]
  intro leaf hleaf
  -- a condition is made of every leaf on the way to that of the filter
  obtain ⟨hleaf, d, hd⟩ := Filter.exists_lower_of_mem_leaves h leaf hleaf
  rw [(isPositionless_leaf hleaf hd).1]
  exact Bool.false_ne_true

/-- No atom of a condition on features reads a position. -/
theorem isPositionless_of_featureCondition {filter : Filter} {c : FeatureCondition}
    (h : s.featureCondition filter = .ok c) : ∀ atom ∈ c.atoms, atom.IsPositionless := by
  refine Filter.forall_atoms_of_lower ?_ h ?_
  · intro c hc
    rw [FeatureCondition.negated.eq_def]
    split
    · rename_i m
      obtain ⟨hselection, hjoins⟩ := hc (.member m) List.mem_cons_self
      exact List.forall_mem_singleton.2 ⟨hselection, hjoins⟩
    · exact hc
  · intro leaf hleaf d hd
    obtain ⟨hleaf, -⟩ := Filter.exists_lower_of_mem_leaves h leaf hleaf
    rcases (isPositionless_leaf hleaf hd).2 with ⟨value, rfl⟩ | ⟨atom, rfl, hatom⟩
    · exact fun _ ha => absurd ha List.not_mem_nil
    · exact List.forall_mem_singleton.2 hatom

end Storage

/-! ## Faults of the mapping -/

/-- A fault of the mapping. -/
def Error.IsMapping (e : Error) : Prop := ∃ path fault, e = .mapping path fault

namespace Storage

variable {s : Storage}

theorem isMapping_of_fault : HoldsOfFaults Error.IsMapping := fun path fault _ => ⟨path, fault, rfl⟩

theorem isMapping_column (scope : Scope) (property : String) :
    FailsOnly Error.IsMapping (s.column scope property) := by
  cases scope with
  | row table => exact .ok _
  | feature tables =>
    refine (failsOnly_resolve isMapping_of_fault property).bind fun found _ => ?_
    dsimp only
    split
    · exact .ok _
    · exact .error ⟨_, _, rfl⟩

/-- A membership fails as its selection does, since joins on keys are always there. -/
theorem failsOnly_membership {P : Error → Prop} {table : Table}
    {select : Scope → Except Error Selection} (hselect : ∀ scope, FailsOnly P (select scope)) :
    FailsOnly P (s.membership table select) := by
  obtain ⟨joins, hjoins⟩ :=
    exists_joins_keysOnly s table.relations none (aliasChain 1 table.relations)
  rw [membership]
  refine FailsOnly.bind ?_ fun _ _ => ?_
  · rw [show JoinOptions.keysOnly = ⟨false, none⟩ from rfl, hjoins]
    exact .ok joins
  · exact (hselect _).bind fun _ _ => .ok _

theorem isMapping_featurePredicate (negated : Bool) (p : Predicate) :
    FailsOnly Error.IsMapping (s.featurePredicate negated p) := by
  have htest : ∀ scope, FailsOnly Error.IsMapping (s.test scope negated p) := fun scope =>
    failsOnly_test isMapping_of_fault negated fun property _ => isMapping_column scope property
  rw [featurePredicate]
  refine (failsOnly_joinedTableFrom isMapping_of_fault _ none).bind fun found _ => ?_
  cases found with
  | none => exact (htest _).bind fun _ _ => .ok _
  | some table => exact failsOnly_membership fun scope => (htest scope).map _

theorem isMapping_featureArray (relation : ArrayRelation) (left right : Operand) :
    FailsOnly Error.IsMapping (s.featureArray relation left right) := by
  rw [featureArray]
  split
  · exact .ok _
  · refine (failsOnly_readAgainst isMapping_of_fault relation left right).bind fun read _ => ?_
    obtain ⟨value, values, turned⟩ := read
    dsimp only
    split
    · exact .error ⟨_, _, rfl⟩
    · refine (failsOnly_joinedTableFrom isMapping_of_fault _ none).bind fun found _ => ?_
      refine failsOnly_membership fun scope => FailsOnly.map ?_ _
      exact failsOnly_scalar isMapping_of_fault fun property _ => isMapping_column scope property

/-- A filter on features that cannot be lowered is at fault over the mapping. -/
theorem isMapping_featureCondition (filter : Filter) :
    FailsOnly Error.IsMapping (s.featureCondition filter) := by
  intro e he
  obtain ⟨leaf, -, hleaf, he⟩ := Filter.exists_leaf_of_lower_eq_error he
  cases hleaf with
  | outsideList value list => exact isMapping_featurePredicate true (.oneOf value list) e he
  | test p => exact isMapping_featurePredicate false p e he
  | array relation left right => exact isMapping_featureArray relation left right e he
  | constant value => exact absurd he (by simp [Filter.lower])

/-- A filter on features that asks for a position is refused. -/
theorem exists_mapping_of_asksPosition {filter : Filter} (h : filter.asksPosition = true) :
    ∃ path fault, s.featureCondition filter = .error (.mapping path fault) := by
  cases hc : s.featureCondition filter with
  | ok c =>
    rw [asksPosition_of_featureCondition hc] at h
    exact absurd h Bool.false_ne_true
  | error e =>
    obtain ⟨path, fault, rfl⟩ := isMapping_featureCondition filter e hc
    exact ⟨path, fault, rfl⟩

end Storage

end FeatureStore
