import FeatureStore.Proofs.Sql.AlikeTests
import FeatureStore.Proofs.Sql.Structure

/-!
# Filters that differ in their texts

Compiling goes the same way for two filters that differ only in texts (`together_featureCondition`),
as long as every relation between arrays is one between a property and literals
(`Filter.ReadsArrays`): two arrays of literals are compared at once, and that depends on their
members. The conditions have the same shape then, a negation included, and only the contents of
quoted texts differ in what their texts are read as (`together_filterText`).
-/

set_option autoImplicit false

namespace FeatureStore

/-! ## Memberships -/

section Memberships

variable {s : Storage} {R C : String → String → Prop}

/-- The clause of a join on keys has no literals. -/
theorem Join.alike_sql {j : Join} (h : j.HasNames) : Sql.Alike C (j.sql s) (j.sql s) := by
  obtain ⟨⟨hfilter, hnumbered⟩, hsourceName, hsourceField, htable, htargetName, htargetField⟩ := h
  have hkind : IsPlainText (j.kind.keyword ++ "JOIN ").toList := by
    cases j.kind <;> decide
  have hsource : Sql.Alike C (Sql.column j.source.name j.source.field) _ :=
    .column hsourceName hsourceField
  have htarget : Sql.Alike C (Sql.column j.target.name j.target.field) _ :=
    .column htargetName htargetField
  have hequals : (Piece.text "=").IsPlain := Piece.isPlain_text (by decide)
  have hopen : (Piece.text " ON (").IsPlain := Piece.isPlain_text (by decide)
  have hclose : (Piece.text ")").IsPlain := Piece.isPlain_text (by decide)
  have hcondition := ((hsource.join hequals htarget).concat hclose).cons hopen
  have hname := hcondition.cons (Piece.isPlain_alias htargetName)
  have htext : j.sql s = .text (j.kind.keyword ++ "JOIN ") :: .text j.target.table :: .text " " ::
      .alias j.target.name :: .text " ON (" :: (Sql.column j.source.name j.source.field ++
        .text "=" :: Sql.column j.target.name j.target.field ++ [.text ")"]) := by
    rw [sql, targetSql, hfilter, hnumbered]
    simp [Sql.ofText]
  rw [htext]
  exact .cons (Piece.isPlain_text hkind) (.cons (Piece.isPlain_text (isPlainText_name htable))
    (.cons (Piece.isPlain_text (by decide)) hname))

/-- Two selections are written alike. -/
def Selection.Alike (s : Storage) (R : String → String → Prop) (sortKey : String)
    (selection selection' : Selection) : Prop :=
  Sql.Alike (Content R) (selection.sql s sortKey) (selection'.sql s sortKey)

theorem Selection.alike_elements {sortKey : String} (hkey : IsName sortKey) {e e' : Scalar}
    (he : e.Alike s R e') {vs ws : List Value} (h : List.Forall₂ (Value.Alike R) vs ws)
    (complete : Bool) :
    Selection.Alike s R sortKey (.elements e vs complete) (.elements e' ws complete) := by
  have hin : (Piece.text " IN ").IsPlain := Piece.isPlain_text (by decide)
  have hby : (Piece.text " GROUP BY ").IsPlain := Piece.isPlain_text (by decide)
  have hgroup := (he.join hin (alike_listSql h)).join hby (.column (Alias.isNamed_slot 1 0) hkey)
  have hlength : IsPlainText (") = " ++ toString vs.length).toList := by
    rw [String.toList_append]
    exact .append (by decide) (isPlainText_natText _).2
  rw [Selection.Alike, sql, sql, ← h.length_eq]
  cases complete with
  | false => simpa [innerRoot] using hgroup
  | true =>
    exact hgroup.join (Piece.isPlain_text (by decide)) (he.concat (Piece.isPlain_text hlength))

/-- Two atoms differ only in literals: the tests, or what the selects of memberships keep. -/
inductive FeatureAtom.Alike (s : Storage) (R : String → String → Prop) :
    FeatureAtom → FeatureAtom → Prop
  | test {t t' : Test} : t.Alike s R t' → Alike s R (.test t) (.test t')
  | member {m : Membership} {selection : Selection} : IsName m.table → IsName m.sortKey →
    (∀ j ∈ m.joins, j.HasNames) → m.selection.Alike s R m.sortKey selection →
      Alike s R (.member m) (.member { m with selection })

theorem Membership.alike_selectSql {m : Membership} {selection : Selection} (htable : IsName m.table)
    (hkey : IsName m.sortKey) (hjoins : ∀ j ∈ m.joins, j.HasNames)
    (h : m.selection.Alike s R m.sortKey selection) :
    Sql.Alike (Content R) (m.selectSql s) (Membership.selectSql s { m with selection }) := by
  have hblank : (Piece.text " ").IsPlain := Piece.isPlain_text (by decide)
  have hclauses : Sql.Alike (Content R)
      (if m.joins.isEmpty then [] else Join.listSql s m.joins ++ Sql.ofText " ")
      (if m.joins.isEmpty then [] else Join.listSql s m.joins ++ Sql.ofText " ") := by
    split
    · exact .nil
    · refine .concat (.separated (by decide) ?_) hblank
      rw [List.forall₂_map_left_iff, List.forall₂_map_right_iff, List.forall₂_same]
      exact fun j hj => j.alike_sql (hjoins j hj)
  have hfrom : IsPlainText (" FROM " ++ m.table ++ " ").toList := by
    rw [String.toList_append, String.toList_append]
    exact .append (.append (by decide) (isPlainText_name htable).2) (by decide)
  have hkeys : Sql.Alike (Content R) (Sql.column innerRoot m.sortKey) _ :=
    .column (Alias.isNamed_slot 1 0) hkey
  have hroot : (Piece.alias innerRoot).IsPlain := Piece.isPlain_alias (Alias.isNamed_slot 1 0)
  exact .join (.join (hkeys.cons (Piece.isPlain_text (by decide))) (Piece.isPlain_text hfrom)
    ((hclauses.cons hblank).cons hroot)) (Piece.isPlain_text (by decide)) h

/-- Atoms that are alike are written alike. -/
theorem FeatureAtom.Alike.sql {a b : FeatureAtom} (h : a.Alike s R b) :
    Sql.Alike (Content R) (a.sql s) (b.sql s) := by
  cases h with
  | test h => exact h
  | @member m selection htable hkey hjoins h =>
    have hword : IsPlainText (if m.isNegated then " NOT IN " else " IN ").toList := by
      cases m.isNegated <;> decide
    exact .join (.column (Alias.isNamed_slot 0 0) hkey) (Piece.isPlain_text hword)
      (.parenthesized (m.alike_selectSql htable hkey hjoins h))

end Memberships

/-! ## Conditions -/

/-- Two conditions of the same shape with related atoms. -/
inductive Condition.Alike {α : Type} (A : α → α → Prop) : Condition α → Condition α → Prop
  | atom {a b : α} : A a b → Alike A (.atom a) (.atom b)
  | constant (value : Bool) : Alike A (.constant value) (.constant value)
  | all {cs ds : List (Condition α)} : List.Forall₂ (Alike A) cs ds → Alike A (.all cs) (.all ds)
  | any {cs ds : List (Condition α)} : List.Forall₂ (Alike A) cs ds → Alike A (.any cs) (.any ds)
  | negation {c d : Condition α} : Alike A c d → Alike A (.negation c) (.negation d)

section Conditions

variable {α : Type} {A : α → α → Prop} {C : String → String → Prop} {atomSql : α → Sql}

theorem Condition.alike_conjunction {cs ds : List (Condition α)}
    (h : List.Forall₂ (Condition.Alike A) cs ds) :
    Condition.Alike A (conjunction cs) (conjunction ds) := by
  match h with
  | .nil => exact .constant true
  | .cons h .nil => exact h
  | .cons h (.cons h' hrest) => exact .all (.cons h (.cons h' hrest))

theorem Condition.alike_disjunction {cs ds : List (Condition α)}
    (h : List.Forall₂ (Condition.Alike A) cs ds) :
    Condition.Alike A (disjunction cs) (disjunction ds) := by
  match h with
  | .nil => exact .constant false
  | .cons h .nil => exact h
  | .cons h (.cons h' hrest) => exact .any (.cons h (.cons h' hrest))

mutual
/-- Conditions of the same shape are written alike if their atoms are. -/
theorem Condition.Alike.sql (hatoms : ∀ a b, A a b → Sql.Alike C (atomSql a) (atomSql b)) :
    ∀ {c d : Condition α}, c.Alike A d → Sql.Alike C (c.sql atomSql) (d.sql atomSql)
  | .atom a, _, h => by
    cases h with
    | atom hab => exact hatoms _ _ hab
  | .constant value, _, h => by
    cases h
    exact .piece (Piece.isPlain_text (by cases value <;> decide))
  | .all cs, _, h => by
    cases h with
    | all hall => exact .parenthesized (.separated (by decide) (alike_conditions hatoms hall))
  | .any cs, _, h => by
    cases h with
    | any hany => exact .parenthesized (.separated (by decide) (alike_conditions hatoms hany))
  | .negation c, _, h => by
    cases h with
    | negation h => exact .around (h.sql hatoms) (by decide) (by decide)

theorem alike_conditions (hatoms : ∀ a b, A a b → Sql.Alike C (atomSql a) (atomSql b)) :
    ∀ {cs ds : List (Condition α)}, List.Forall₂ (Condition.Alike A) cs ds →
      List.Forall₂ (Sql.Alike C) (Condition.listSql atomSql cs) (Condition.listSql atomSql ds)
  | [], _, h => by
    cases h
    exact .nil
  | c :: cs, _, h => by
    cases h with
    | cons hfirst hrest => exact .cons (hfirst.sql hatoms) (alike_conditions hatoms hrest)
end

end Conditions

section Lowering

variable {α : Type} {A : α → α → Prop} {R : String → String → Prop}
  {predicate : Bool → Predicate → Except Error (Condition α)}
  {array : ArrayRelation → Operand → Operand → Except Error (Condition α)}
  {negate : Condition α → Condition α}

theorem Filter.Alike.isList_eq {f g : Filter} (h : f.Alike R g) : g.isList = f.isList := by
  cases h with
  | test hp => cases hp <;> rfl
  | _ => rfl

/-- The condition of a filter goes the same way as that of another one, where leaves do. -/
structure Filter.LowersAlike (R : String → String → Prop) (A : α → α → Prop)
    (predicate : Bool → Predicate → Except Error (Condition α))
    (array : ArrayRelation → Operand → Operand → Except Error (Condition α))
    (negate : Condition α → Condition α) : Prop where
  predicate : ∀ negated p q, p.Alike R q →
    Together (Condition.Alike A) (predicate negated p) (predicate negated q)
  array : ∀ relation left right left' right', left.Alike R left' → right.Alike R right' →
    (left.property?.isSome ∧ right.isArray ∨ left.isArray ∧ right.property?.isSome) →
      Together (Condition.Alike A) (array relation left right) (array relation left' right')
  negate : ∀ c d, c.Alike A d → (negate c).Alike A (negate d)

mutual
/-- Filters that are alike have no condition, or conditions of the same shape. -/
theorem Filter.LowersAlike.together (hleaf : Filter.LowersAlike R A predicate array negate) :
    ∀ {f g : Filter}, f.Alike R g → f.ReadsArrays →
      Together (Condition.Alike A) (f.lower predicate array negate)
        (g.lower predicate array negate)
  | .all args, _, h, hreads => by
    cases h with
    | all hargs =>
      exact (hleaf.together_list hargs hreads).map fun _ _ => Condition.alike_conjunction
  | .any args, _, h, hreads => by
    cases h with
    | any hargs =>
      exact (hleaf.together_list hargs hreads).map fun _ _ => Condition.alike_disjunction
  | .negation arg, _, h, hreads => by
    cases h with
    | @negation _ arg' harg =>
      cases hlist : arg.isList with
      | false =>
        rw [Filter.ReadsArrays, Filter.leaves_negation hlist] at hreads
        rw [Filter.lower_negation hlist, Filter.lower_negation (harg.isList_eq.trans hlist)]
        exact (hleaf.together harg hreads).map hleaf.negate
      | true =>
        cases harg with
        | test hp =>
          cases hp with
          | oneOf hvalue hall => exact hleaf.predicate true _ _ (.oneOf hvalue hall)
          | _ => simp [Filter.isList] at hlist
        | _ => simp [Filter.isList] at hlist
  | .test p, _, h, _ => by
    cases h with
    | test hp => exact hleaf.predicate false _ _ hp
  | .array relation left right, _, h, hreads => by
    cases h with
    | array _ hleft hright =>
      exact hleaf.array relation _ _ _ _ hleft hright
        (hreads relation left right List.mem_cons_self)
  | .constant value, _, h, _ => by
    cases h
    exact .ok (.constant value)

theorem Filter.LowersAlike.together_list (hleaf : Filter.LowersAlike R A predicate array negate) :
    ∀ {fs gs : List Filter}, List.Forall₂ (Filter.Alike R) fs gs →
      (∀ relation left right, .array relation left right ∈ Filter.leavesOfList fs →
        left.property?.isSome ∧ right.isArray ∨ left.isArray ∧ right.property?.isSome) →
      Together (List.Forall₂ (Condition.Alike A)) (Filter.lowerList predicate array negate fs)
        (Filter.lowerList predicate array negate gs)
  | [], _, h, _ => by
    cases h
    exact .ok .nil
  | f :: fs, _, h, hreads => by
    cases h with
    | cons hfirst hrest =>
      have hone := hleaf.together hfirst fun relation left right hmem =>
        hreads relation left right (List.mem_append_left _ hmem)
      have hothers := hleaf.together_list hrest fun relation left right hmem =>
        hreads relation left right (List.mem_append_right _ hmem)
      exact hone.bind fun c d hcd => hothers.bind fun cs ds hall => .ok (.cons hcd hall)
end

end Lowering

/-! ## Conditions on features -/

section Features

variable {s : Storage} {R : String → String → Prop}

/-- A negation goes the same way for conditions of the same shape. -/
theorem FeatureCondition.alike_negated {c d : FeatureCondition}
    (h : c.Alike (FeatureAtom.Alike s R) d) :
    Condition.Alike (FeatureAtom.Alike s R) (FeatureCondition.negated c)
      (FeatureCondition.negated d) := by
  cases h with
  | atom hab =>
    cases hab with
    | test ht => exact .negation (.atom (.test ht))
    | @member m selection htable hkey hjoins h =>
      exact .atom (.member (m := { m with isNegated := !m.isNegated }) htable hkey hjoins h)
  | constant value => exact .negation (.constant value)
  | all h => exact .negation (.all h)
  | any h => exact .negation (.any h)
  | negation h => exact .negation (.negation h)

/-- The memberships in a table differ in what their selects keep. -/
theorem together_membership (htree : s.tree.IsDerived) (hs : s.HasKeyNames) {table : Table}
    (htable : table ∈ s.tree.tables) {select select' : Scope → Except Error Selection}
    (hselect : ∀ tables : List (String × Alias), (∀ entry ∈ tables, entry.2.IsNamed) →
      Together (Selection.Alike s R s.root.sortKey) (select (.feature tables))
        (select' (.feature tables))) :
    Together (Condition.Alike (FeatureAtom.Alike s R)) (s.membership table select)
      (s.membership table select') := by
  obtain ⟨m, name, -, hjoins, hmembership⟩ := exists_membership htree htable
  have hmade := hjoins m.selection
  rw [hmembership, hmembership]
  refine (hselect _ (Storage.isNamed_of_mem_boundInside hmade.isNamed)).map fun _ _ h => ?_
  refine .atom (.member (m := { m with selection := _ }) ?_ ?_ ?_ ?_)
  · exact hmade.table_eq ▸ (htree.hasNames _ s.mem_tables_root).name
  · exact hmade.sortKey_eq ▸ hs.sortKey
  · exact hmade.hasNames (htree.hasNames table htable).relations
  · rw [show m.sortKey = s.root.sortKey from hmade.sortKey_eq]
    exact h

theorem together_featurePredicate (htree : s.tree.IsDerived) (hs : s.HasKeyNames)
    (negated : Bool) {p q : Predicate} (h : p.Alike R q) :
    Together (Condition.Alike (FeatureAtom.Alike s R)) (s.featurePredicate negated p)
      (s.featurePredicate negated q) := by
  have hproperties : q.properties = p.properties := propertiesOfList_eq h.operands
  have htest : ∀ {tables : List (String × Alias)}, (∀ entry ∈ tables, entry.2.IsNamed) →
      Together (Test.Alike s R) (s.test (.feature tables) negated p)
        (s.test (.feature tables) negated q) := fun htables =>
    together_test (Storage.namesColumn_feature htree hs htables) (Storage.namesRows_feature hs _)
      negated h
  rw [Storage.featurePredicate, Storage.featurePredicate, hproperties]
  refine Together.bind_same fun found hfound => ?_
  cases found with
  | none =>
    exact (htest Storage.isNamed_of_mem_boundOutside).bind fun t t' ht => .ok (.atom (.test ht))
  | some table =>
    refine together_membership htree hs (Storage.mem_tables_of_joinedTable htree hfound) ?_
    exact fun tables htables => (htest htables).map fun _ _ ht => ht

/-- The condition of a relation between a property, or functions of one, and an array. -/
def Storage.readArray (s : Storage) (relation : ArrayRelation) (value : Operand)
    (values : List Value) : Except Error FeatureCondition := do
  if relation != .overlaps && relation != .contains then
    throw (.mapping value.subject (.unsupportedArrayOperator relation.shown))
  let table := (← s.joinedTable [value.subject]).getD s.root
  s.membership table fun scope =>
    (s.scalar scope value).map (.elements · values (relation == .contains))

theorem featureArray_left (relation : ArrayRelation) {value : Operand}
    (h : value.property?.isSome) (values : List Value) :
    s.featureArray relation value (.array values) = s.readArray relation value values := by
  cases value with
  | property name => rfl
  | apply function args => rfl
  | _ => simp [Operand.property?] at h

theorem featureArray_right (relation : ArrayRelation) {value : Operand}
    (h : value.property?.isSome) (values : List Value) :
    s.featureArray relation (.array values) value =
      s.readArray relation.swapped value values := by
  cases value with
  | property name => rfl
  | apply function args => rfl
  | _ => simp [Operand.property?] at h

/-- A property is compared with arrays of literals that are alike in the same way. -/
theorem together_readArray (htree : s.tree.IsDerived) (hs : s.HasKeyNames)
    (relation : ArrayRelation) {o o' : Operand} (ho : o.Alike R o')
    (hproperty : o.property?.isSome) {vs ws : List Value}
    (hvalues : List.Forall₂ (Value.Alike R) vs ws) :
    Together (Condition.Alike (FeatureAtom.Alike s R)) (s.readArray relation o vs)
      (s.readArray relation o' ws) := by
  obtain ⟨name, hname⟩ := Option.isSome_iff_exists.1 hproperty
  rw [Storage.readArray, Storage.readArray, Operand.subject_eq hname,
    Operand.subject_eq (ho.property?_eq.trans hname)]
  by_cases hother : (relation != .overlaps && relation != .contains) = true
  · rw [if_pos hother, if_pos hother]
    exact .error _ _
  rw [if_neg hother, if_neg hother]
  refine Together.bind_same fun found hfound => ?_
  have htable : found.getD s.root ∈ s.tree.tables := by
    cases found with
    | none => exact s.mem_tables_root
    | some table => exact Storage.mem_tables_of_joinedTable htree hfound
  refine together_membership htree hs htable fun tables htables => ?_
  have hscalar := together_scalar (Storage.namesColumn_feature htree hs htables)
    (Storage.namesRows_feature hs tables) ho
  exact hscalar.map fun _ _ he => Selection.alike_elements hs.sortKey he hvalues _

theorem together_featureArray (htree : s.tree.IsDerived) (hs : s.HasKeyNames)
    (relation : ArrayRelation) {left right left' right' : Operand} (hleft : left.Alike R left')
    (hright : right.Alike R right')
    (hreads : left.property?.isSome ∧ right.isArray ∨ left.isArray ∧ right.property?.isSome) :
    Together (Condition.Alike (FeatureAtom.Alike s R)) (s.featureArray relation left right)
      (s.featureArray relation left' right') := by
  rcases hreads with ⟨hproperty, harray⟩ | ⟨harray, hproperty⟩
  · cases hright with
    | array hvalues =>
      rw [featureArray_left relation hproperty,
        featureArray_left relation (by rwa [hleft.property?_eq])]
      exact together_readArray htree hs relation hleft hproperty hvalues
    | _ => simp [Operand.isArray] at harray
  · cases hleft with
    | array hvalues =>
      rw [featureArray_right relation hproperty,
        featureArray_right relation (by rwa [hright.property?_eq])]
      exact together_readArray htree hs relation.swapped hright hproperty hvalues
    | _ => simp [Operand.isArray] at harray

/-- Filters that are alike have no condition, or conditions that differ in literals alone. -/
theorem together_featureCondition (htree : s.tree.IsDerived) (hs : s.HasKeyNames) {f g : Filter}
    (h : f.Alike R g) (hreads : f.ReadsArrays) :
    Together (Condition.Alike (FeatureAtom.Alike s R)) (s.featureCondition f)
      (s.featureCondition g) := by
  have hleaf : Filter.LowersAlike R (FeatureAtom.Alike s R) s.featurePredicate s.featureArray
      FeatureCondition.negated :=
    ⟨fun negated _ _ => together_featurePredicate htree hs negated,
      fun relation _ _ _ _ => together_featureArray htree hs relation,
      fun _ _ => FeatureCondition.alike_negated⟩
  exact hleaf.together h hreads

/-- Filters that are alike have no text, or texts that are read as the same items except for the
contents of quoted texts. -/
theorem together_filterText (htree : s.tree.IsDerived) (hs : s.HasKeyNames) {f g : Filter}
    (h : f.Alike R g) (hreads : f.ReadsArrays) (level : Nat) :
    Together (fun a b => ∃ as bs, itemsOf a.toList = some as ∧ itemsOf b.toList = some bs ∧
      List.Forall₂ (Item.Alike (Content R)) as bs) (s.filterText f level)
        (s.filterText g level) := by
  have hconditions := together_featureCondition htree hs h hreads
  rw [Storage.filterText, Storage.filterText]
  cases hc : s.featureCondition f with
  | error e =>
    rw [hc] at hconditions
    generalize s.featureCondition g = other at hconditions
    cases hconditions
    exact .error _ _
  | ok c =>
    -- the first text can be read, and a lexer goes through the second one in step
    have hstates : Condition.States _ level _ c _ := Storage.states_featureCondition htree hs hc
    obtain ⟨as, _, hspells, -, -⟩ := hstates.text
    rw [hc] at hconditions
    generalize s.featureCondition g = other at hconditions
    cases hconditions with
    | ok hcd =>
      have hatoms : ∀ a b, FeatureAtom.Alike s R a b → Sql.Alike (Content R) (a.sql s) (b.sql s) :=
        fun _ _ hab => hab.sql
      have halike := hcd.sql hatoms
      obtain ⟨bs, hbs, hitems⟩ := halike.exists_itemsOf hspells.itemsOf_eq
      exact .ok ⟨as, bs, hspells.itemsOf_eq, hbs, hitems⟩

end Features

end FeatureStore
