import FeatureStore.Proofs.Sql.Naming
import FeatureStore.Proofs.Sql.Reading

/-!
# The boolean structure of conditions

The text of a condition is read back by the precedence of its operators (`readText`). If the names
in it are identifiers, it is a conjunction without an OR outside parentheses, and it holds exactly
if the filter does, where every leaf holds if its own text does (`keepsStructure_of_hasNames`).
Combinations stand in parentheses and negations in front of them, so the parts of a condition are
never torn apart (`Says.and`, `Offers.group`, `Offers.negated`); a single argument of a combination
stands for itself, as does a conjunction that is joined with another one. The keys of the root table
are not checked when they are read, and a sort key with an OR takes a membership apart
(`not_keepsStructure_or`).
-/

set_option autoImplicit false

namespace FeatureStore

/-! ## What a text says -/

/-- What a text says holds. A text that cannot be read does not hold. -/
def textHolds (truth : List Item → Bool) (text : String) : Bool :=
  ((readText text).map (holdsParts truth)).getD false

/-- A truth value under every assignment of truth values to atoms. -/
abbrev TruthFunction := (List Item → Bool) → Bool

/-- The text is a conjunction with a value. -/
def Says (text : List Char) (value : TruthFunction) : Prop :=
  ∃ items parts, Spells text items ∧ ReadsAll items parts ∧
    ∀ truth, parts.all (Condition.holds truth) = value truth

/-- The text is a disjunction of conjunctions with a value. -/
def Offers (text : List Char) (value : TruthFunction) : Prop :=
  ∃ items parts, Spells text items ∧ readParts (annotate items) = some parts ∧
    ∀ truth, holdsParts truth parts = value truth

section Texts

variable {a b : List Char} {v w : TruthFunction}

theorem holdsParts_singleton (truth : List Item → Bool) (parts : List Reading) :
    holdsParts truth [parts] = parts.all (Condition.holds truth) := by
  rw [holdsParts, List.any_cons, List.any_nil, Bool.or_false]

theorem holds_ofParts (truth : List Item → Bool) (parts : List (List Reading)) :
    (ofParts parts).holds truth = holdsParts truth parts := by
  rw [ofParts, Condition.holds, Condition.anyHolds_eq_any, List.any_map, holdsParts]
  congr 1
  funext conjunction
  rw [Function.comp_apply, Condition.holds, Condition.allHold_eq_all]

/-- A text that is a conjunction has no OR outside parentheses, and holds as it says. -/
theorem Says.readText_eq {text : String} (h : Says text.toList v) :
    ∃ parts, readText text = some [parts] ∧ ∀ truth, textHolds truth text = v truth := by
  obtain ⟨items, parts, hspells, hparts, hvalue⟩ := h
  have hread : readText text = some [parts] := by
    rw [readText, hspells.itemsOf_eq]
    exact hparts.readParts_eq
  refine ⟨parts, hread, fun truth => ?_⟩
  rw [textHolds, hread, ← hvalue]
  exact holdsParts_singleton truth parts

/-- A text says one thing. -/
theorem Says.unique (hv : Says a v) (hw : Says a w) : v = w := by
  rw [← String.toList_ofList (l := a)] at hv hw
  obtain ⟨_, -, hv⟩ := hv.readText_eq
  obtain ⟨_, -, hw⟩ := hw.readText_eq
  exact funext fun truth => (hv truth).symm.trans (hw truth)

theorem says_of_isConjunction {level : Nat} {sql : Sql} (h : IsConjunction (sql.chars level)) :
    Says (sql.chars level) fun truth => textHolds truth (sql.render level) := by
  obtain ⟨items, parts, hspells, hparts⟩ := h
  have htext : Says (sql.render level).toList fun truth => parts.all (Condition.holds truth) :=
    ⟨items, parts, hspells, hparts, fun _ => rfl⟩
  obtain ⟨_, -, hholds⟩ := htext.readText_eq
  exact ⟨items, parts, hspells, hparts, fun truth => (hholds truth).symm⟩

theorem Says.and (ha : Says a v) (hb : Says b w) :
    Says (a ++ " AND ".toList ++ b) fun truth => v truth && w truth := by
  obtain ⟨as, aparts, ha, haparts, hv⟩ := ha
  obtain ⟨bs, bparts, hb, hbparts, hw⟩ := hb
  refine ⟨_, aparts ++ bparts,
    (ha.divided (divides_word (a := "AND".toList) (by decide))).append hb, ?_, fun truth => ?_⟩
  · simpa [Item.ofKeyword] using haparts.append hbparts
  · rw [List.all_append, hv, hw]

theorem Says.offers (h : Says a v) : Offers a v := by
  obtain ⟨items, parts, hspells, hparts, hv⟩ := h
  exact ⟨items, [parts], hspells, hparts.readParts_eq,
    fun truth => (holdsParts_singleton truth parts).trans (hv truth)⟩

theorem Says.or (ha : Says a v) (hb : Offers b w) :
    Offers (a ++ " OR ".toList ++ b) fun truth => v truth || w truth := by
  obtain ⟨as, aparts, ha, haparts, hv⟩ := ha
  obtain ⟨bs, bparts, hb, hbparts, hw⟩ := hb
  refine ⟨_, aparts :: bparts,
    (ha.divided (divides_word (a := "OR".toList) (by decide))).append hb, ?_, fun truth => ?_⟩
  · simpa [Item.ofKeyword] using haparts.readParts_append hbparts
  · dsimp only
    rw [← hv, ← hw]
    rfl

/-- Parentheses make a conjunction of any text. -/
theorem Offers.group (h : Offers a v) : Says ('(' :: a ++ [')']) v := by
  obtain ⟨items, parts, hspells, hparts, hv⟩ := h
  refine ⟨_, _, (spellsEnded_group hspells).spells, readsAll_group hparts, fun truth => ?_⟩
  rw [List.all_cons, List.all_nil, Bool.and_true, holds_ofParts, hv]

/-- A negation in front of parentheses negates all that they enclose. -/
theorem Offers.negated (h : Offers a v) :
    Says ("NOT ".toList ++ ('(' :: a ++ [')'])) fun truth => !v truth := by
  obtain ⟨items, parts, hspells, hparts, hv⟩ := h
  refine ⟨_, _, spells_not hspells, readsAll_not_group hparts, fun truth => ?_⟩
  rw [List.all_cons, List.all_nil, Bool.and_true, Condition.holds, holds_ofParts, hv]

theorem says_constant (value : Bool) :
    Says (Condition.constantText value).toList fun _ => value := by
  cases value with
  | false =>
    refine ⟨[.word ['1'], .sign '=', .word ['0']], [.constant false], ?_, ?_, fun _ => rfl⟩
    · exact fun l hl => by
        obtain ⟨outer, items, phase⟩ := l
        obtain rfl : phase = .blank := hl
        exact ⟨_, rfl, rfl⟩
    · exact .single (coheres_of_allQuiet (by decide)) rfl
  | true =>
    refine ⟨[.word ['1'], .sign '=', .word ['1']], [.constant true], ?_, ?_, fun _ => rfl⟩
    · exact fun l hl => by
        obtain ⟨outer, items, phase⟩ := l
        obtain rfl : phase = .blank := hl
        exact ⟨_, rfl, rfl⟩
    · exact .single (coheres_of_allQuiet (by decide)) rfl

end Texts

/-! ## Combinations -/

section Combinations

variable {level : Nat} {parts : List Sql} {values : List TruthFunction}

/-- Conjunctions with AND between them. -/
theorem says_separated (hne : parts ≠ [])
    (h : List.Forall₂ (fun part value => Says (part.chars level) value) parts values) :
    Says ((Sql.separated " AND " parts).chars level) fun truth => values.all fun v => v truth := by
  induction h with
  | nil => exact absurd rfl hne
  | @cons part value parts values hpart hrest ih =>
    cases hrest with
    | nil => simpa [Sql.separated] using hpart
    | cons hother hothers =>
      have hall := hpart.and (ih (List.cons_ne_nil _ _))
      rw [Sql.separated_cons_cons, Sql.chars_append, Sql.chars_text, ← List.append_assoc]
      exact hall

/-- Conjunctions with OR between them. -/
theorem offers_separated (hne : parts ≠ [])
    (h : List.Forall₂ (fun part value => Says (part.chars level) value) parts values) :
    Offers ((Sql.separated " OR " parts).chars level) fun truth => values.any fun v => v truth := by
  induction h with
  | nil => exact absurd rfl hne
  | @cons part value parts values hpart hrest ih =>
    cases hrest with
    | nil => simpa [Sql.separated] using hpart.offers
    | cons hother hothers =>
      have hany := hpart.or (ih (List.cons_ne_nil _ _))
      rw [Sql.separated_cons_cons, Sql.chars_append, Sql.chars_text, ← List.append_assoc]
      exact hany

variable {α : Type} {atomSql : α → Sql} {cs : List (Condition α)}

theorem Condition.listSql_eq_map (cs : List (Condition α)) :
    Condition.listSql atomSql cs = cs.map (Condition.sql atomSql) := by
  induction cs with
  | nil => rfl
  | cons c cs ih => rw [listSql, ih, List.map_cons]

/-- All conditions of a list hold; a single one stands without parentheses. -/
theorem says_conjunction
    (h : List.Forall₂ (fun c v => Says ((c.sql atomSql).chars level) v) cs values) :
    Says (((Condition.conjunction cs).sql atomSql).chars level) fun truth =>
      values.all fun v => v truth := by
  match cs, values, h with
  | [], [], .nil => exact says_constant true
  | [c], [v], .cons hc .nil => simpa [Condition.conjunction] using hc
  | c :: d :: cs, values, h =>
    have hparts : List.Forall₂ (fun part v => Says (Sql.chars level part) v)
        ((c :: d :: cs).map (Condition.sql atomSql)) values := List.forall₂_map_left_iff.2 h
    have htext := says_separated (List.cons_ne_nil _ _) hparts
    rw [Condition.conjunction, Condition.sql, Condition.listSql_eq_map, Sql.chars_parenthesized]
    · exact htext.offers.group
    all_goals simp

/-- Some condition of a list holds; a single one stands without parentheses. -/
theorem says_disjunction
    (h : List.Forall₂ (fun c v => Says ((c.sql atomSql).chars level) v) cs values) :
    Says (((Condition.disjunction cs).sql atomSql).chars level) fun truth =>
      values.any fun v => v truth := by
  match cs, values, h with
  | [], [], .nil => exact says_constant false
  | [c], [v], .cons hc .nil => simpa [Condition.disjunction] using hc
  | c :: d :: cs, values, h =>
    have hparts : List.Forall₂ (fun part v => Says (Sql.chars level part) v)
        ((c :: d :: cs).map (Condition.sql atomSql)) values := List.forall₂_map_left_iff.2 h
    have hoffers := offers_separated (List.cons_ne_nil _ _) hparts
    rw [Condition.disjunction, Condition.sql, Condition.listSql_eq_map, Sql.chars_parenthesized]
    · exact hoffers.group
    all_goals simp

theorem says_negation {c : Condition α} {v : TruthFunction}
    (h : Says ((c.sql atomSql).chars level) v) :
    Says (((Condition.negation c).sql atomSql).chars level) fun truth => !v truth := by
  rw [Condition.sql, Sql.chars_around]
  exact h.offers.negated

end Combinations

/-! ## Filters -/

section Lowering

variable {α : Type} {predicate : Bool → Predicate → Except Error (Condition α)}
  {array : ArrayRelation → Operand → Operand → Except Error (Condition α)}
  {negate : Condition α → Condition α} {atomSql : α → Sql} {level : Nat} {named : α → Prop}

/-- The atoms of the condition are named as they should be, and its text has a value. -/
structure Condition.States (atomSql : α → Sql) (level : Nat) (named : α → Prop)
    (c : Condition α) (value : TruthFunction) : Prop where
  atoms : ∀ a ∈ c.atoms, named a
  text : Says ((c.sql atomSql).chars level) value

/-- The conditions of a list state what its filters do, if that of every filter does once its leaves
are stated. -/
theorem states_members {stated : Filter → Prop} {value : Filter → TruthFunction}
    {args : List Filter} {cs : List (Condition α)}
    (h : List.Forall₂ (fun filter c => (∀ leaf ∈ filter.leaves, stated leaf) →
      c.States atomSql level named (value filter)) args cs)
    (hleaves : ∀ leaf ∈ Filter.leavesOfList args, stated leaf) :
    (∀ a ∈ Condition.atomsOfList cs, named a) ∧
      List.Forall₂ (fun c v => Says ((c.sql atomSql).chars level) v) cs (args.map value) := by
  induction h with
  | nil => exact ⟨by simp [Condition.atomsOfList], .nil⟩
  | cons harg _ ih =>
    rw [Filter.leavesOfList] at hleaves
    obtain ⟨hfirst, hrest⟩ := List.forall_mem_append.1 hleaves
    obtain ⟨hatoms, htext⟩ := harg hfirst
    obtain ⟨hothers, hall⟩ := ih hrest
    exact ⟨List.forall_mem_append.2 ⟨hatoms, hothers⟩, .cons htext hall⟩

/-- The condition of a filter states what the filter does, if those of its leaves do and a negation
states the opposite. -/
theorem states_of_lower {value : Filter → TruthFunction}
    (hnegate : ∀ (c : Condition α) (v : TruthFunction), c.States atomSql level named v →
      (negate c).States atomSql level named fun truth => !v truth)
    {filter : Filter} {c : Condition α} (h : filter.lower predicate array negate = .ok c)
    (hleaves : ∀ leaf ∈ filter.leaves, ∀ d, leaf.lower predicate array negate = .ok d →
      d.States atomSql level named (value leaf)) :
    c.States atomSql level named fun truth => filter.holds fun leaf => value leaf truth := by
  have kept : Filter.KeptByLowering predicate array negate fun filter c =>
      (∀ leaf ∈ filter.leaves, ∀ d, leaf.lower predicate array negate = .ok d →
        d.States atomSql level named (value leaf)) →
      c.States atomSql level named fun truth => filter.holds fun leaf => value leaf truth := by
    constructor
    · intro filter c hleaf hc hleaves
      rw [hleaf.leaves_eq] at hleaves
      simp only [hleaf.holds_eq]
      exact hleaves filter List.mem_cons_self c hc
    · intro args cs hargs hleaves
      obtain ⟨hatoms, hall⟩ := states_members hargs hleaves
      refine ⟨by rwa [Condition.atoms_conjunction], ?_⟩
      simpa [Filter.holds, Filter.allHold_eq_all, Function.comp_def] using says_conjunction hall
    · intro args cs hargs hleaves
      obtain ⟨hatoms, hall⟩ := states_members hargs hleaves
      refine ⟨by rwa [Condition.atoms_disjunction], ?_⟩
      simpa [Filter.holds, Filter.anyHolds_eq_any, Function.comp_def] using says_disjunction hall
    · intro arg c hno hkept hleaves
      rw [Filter.leaves_negation hno] at hleaves
      simp only [Filter.holds_negation hno]
      exact hnegate c _ (hkept hleaves)
  exact kept.of_lower filter h hleaves

theorem states_negation {c : Condition α} {v : TruthFunction}
    (h : c.States atomSql level named v) :
    (Condition.negation c).States atomSql level named fun truth => !v truth :=
  ⟨h.atoms, says_negation h.text⟩

/-- What a condition of a leaf states: a truth value, or what its own text says. -/
theorem states_leaf {d : Condition α}
    (h : (∃ value, d = .constant value) ∨
      ∃ a, d = .atom a ∧ named a ∧ IsConjunction ((atomSql a).chars level)) :
    d.States atomSql level named fun truth => textHolds truth ((d.sql atomSql).render level) := by
  rcases h with ⟨value, rfl⟩ | ⟨a, rfl, hnamed, hconjunction⟩
  · have htext := says_constant value
    refine ⟨by simp [Condition.atoms], says_of_isConjunction ?_⟩
    obtain ⟨items, parts, hspells, hparts, -⟩ := htext
    rw [Condition.sql, Sql.chars_ofText]
    exact ⟨items, parts, hspells, hparts⟩
  · exact ⟨List.forall_mem_singleton.2 hnamed, says_of_isConjunction hconjunction⟩

end Lowering

namespace Filter

mutual
/-- The names in the leaves of a filter are those in the filter. -/
theorem mem_properties_of_mem_leaves : ∀ {filter leaf : Filter} {p : String},
    leaf ∈ filter.leaves → p ∈ leaf.properties → p ∈ filter.properties
  | .all args, leaf, p, hleaf, hp => by
    rw [leaves] at hleaf
    rw [properties]
    exact mem_properties_of_mem_leavesOfList hleaf hp
  | .any args, leaf, p, hleaf, hp => by
    rw [leaves] at hleaf
    rw [properties]
    exact mem_properties_of_mem_leavesOfList hleaf hp
  | .negation arg, leaf, p, hleaf, hp => by
    -- a negated list is a leaf itself
    cases hlist : arg.isList with
    | true =>
      rw [(isLeaf_negation hlist).leaves_eq] at hleaf
      rwa [List.mem_singleton.1 hleaf] at hp
    | false =>
      rw [leaves_negation hlist] at hleaf
      rw [properties]
      exact mem_properties_of_mem_leaves hleaf hp
  | .test q, leaf, p, hleaf, hp => by rwa [List.mem_singleton.1 hleaf] at hp
  | .array relation left right, leaf, p, hleaf, hp => by rwa [List.mem_singleton.1 hleaf] at hp
  | .constant value, leaf, p, hleaf, hp => by rwa [List.mem_singleton.1 hleaf] at hp

theorem mem_properties_of_mem_leavesOfList : ∀ {args : List Filter} {leaf : Filter} {p : String},
    leaf ∈ leavesOfList args → p ∈ leaf.properties → p ∈ propertiesOfList args
  | [], leaf, p, hleaf, _ => by simp [leavesOfList] at hleaf
  | arg :: rest, leaf, p, hleaf, hp => by
    rw [leavesOfList] at hleaf
    rw [propertiesOfList]
    rcases List.mem_append.1 hleaf with hleaf | hleaf
    · exact List.mem_append_left _ (mem_properties_of_mem_leaves hleaf hp)
    · exact List.mem_append_right _ (mem_properties_of_mem_leavesOfList hleaf hp)
end

end Filter

/-- The truth value of the text that a filter has by itself. -/
def ownHolds (compile : Filter → Except Error String) (truth : List Item → Bool)
    (filter : Filter) : Bool :=
  match compile filter with
  | .ok text => textHolds truth text
  | .error _ => false

/-- The text of a filter keeps its boolean structure. -/
structure KeepsStructure (compile : Filter → Except Error String) (filter : Filter)
    (text : String) : Prop where
  /-- No OR stands outside parentheses. -/
  isConjunction : ∃ parts, readText text = some [parts]
  /-- Every leaf has a text of its own, and no OR stands outside parentheses there either. -/
  leaves : ∀ leaf ∈ filter.leaves, ∃ own parts, compile leaf = .ok own ∧ readText own = some [parts]
  /-- The text holds exactly if the filter does. -/
  holds : ∀ truth, textHolds truth text = filter.holds (ownHolds compile truth)

theorem ownHolds_of_compile (compile : Filter → Except Error String) {filter : Filter}
    {text : String} (h : compile filter = .ok text) :
    (fun truth => ownHolds compile truth filter) = fun truth => textHolds truth text := by
  funext truth
  rw [ownHolds, h]

/-- A text keeps the structure of a filter if it says what the filter does, and those of the leaves
say anything at all. -/
theorem keepsStructure_of_text {compile : Filter → Except Error String} {filter : Filter}
    {text : String} (htext : Says text.toList fun truth => filter.holds (ownHolds compile truth))
    (hleaves : ∀ leaf ∈ filter.leaves, ∃ own v, compile leaf = .ok own ∧ Says own.toList v) :
    KeepsStructure compile filter text := by
  obtain ⟨parts, hparts, hholds⟩ := htext.readText_eq
  refine ⟨⟨parts, hparts⟩, fun leaf hleaf => ?_, hholds⟩
  obtain ⟨own, v, hown, hv⟩ := hleaves leaf hleaf
  obtain ⟨ownParts, hownParts, -⟩ := hv.readText_eq
  exact ⟨own, ownParts, hown, hownParts⟩

/-- An optional filter holds, if there is one. -/
def givenHolds (compile : Filter → Except Error String) (given : Option Filter) : TruthFunction :=
  fun truth => given.all fun filter => filter.holds (ownHolds compile truth)

/-- What the text of an optional condition says. -/
theorem says_of_mapM {α : Type} (compile : Filter → Except Error String)
    {lower : Filter → Except Error (Condition α)} (text : Condition α → List Char)
    {given : Option Filter} {found : Option (Condition α)} (h : given.mapM lower = .ok found)
    (hsome : ∀ filter ∈ given, ∀ c, lower filter = .ok c →
      Says (text c) fun truth => filter.holds (ownHolds compile truth)) :
    (found = none ↔ given = none) ∧
      (found = none → ∀ truth, givenHolds compile given truth = true) ∧
      ∀ c ∈ found, Says (text c) (givenHolds compile given) := by
  cases given with
  | none =>
    obtain rfl := Except.ok.inj h
    exact ⟨by simp, fun _ _ => rfl, by simp⟩
  | some filter =>
    obtain ⟨c, hc, rfl⟩ := map_eq_ok.1 h
    refine ⟨by simp, by simp, fun d hd => ?_⟩
    obtain rfl := Option.some.inj hd
    exact hsome filter rfl c hc

namespace Storage

variable {s : Storage} {level : Nat}

/-- The text of a filter on rows that stand under an alias, in a statement at a level. -/
def rowText (s : Storage) (table : Alias) (level : Nat) (filter : Filter) : Except Error String :=
  (s.rowCondition table filter).map fun condition => (s.rowConditionSql condition).render level

/-- The negation of a membership is the opposite membership, and any other condition is negated in
front of parentheses. -/
theorem states_negated {c : FeatureCondition} {v : TruthFunction}
    (h : c.States (FeatureAtom.sql s) level FeatureAtom.HasNames v) :
    (FeatureCondition.negated c).States (FeatureAtom.sql s) level FeatureAtom.HasNames
      fun truth => !v truth := by
  rw [FeatureCondition.negated.eq_def]
  split
  · -- a membership is negated in place: both forms are read as one atom, so what it says is turned
    rename_i m
    have hm : m.HasNames := h.atoms (.member m) (List.mem_singleton_self _)
    refine ⟨List.forall_mem_singleton.2 ⟨hm.table, hm.sortKey, hm.joins, hm.selection⟩, ?_⟩
    obtain ⟨items, others, atom, hitems, hothers, hin, hnotIn⟩ :=
      Membership.exists_readsAll_in s level hm
    have hisIn : Says ((Membership.sql s { m with isNegated := false }).chars level)
        fun truth => truth atom := ⟨items, _, hitems, hin, fun truth => Bool.and_true _⟩
    have hisNot : Says ((Membership.sql s { m with isNegated := true }).chars level)
        fun truth => !truth atom := ⟨others, _, hothers, hnotIn, fun truth => Bool.and_true _⟩
    have hv := h.text
    cases hnegated : m.isNegated with
    | false =>
      have heq : m = { m with isNegated := false } := by rw [← hnegated]
      rw [heq] at hv
      rw [hv.unique hisIn]
      exact hisNot
    | true =>
      have heq : m = { m with isNegated := true } := by rw [← hnegated]
      rw [heq] at hv
      rw [hv.unique hisNot]
      simp only [Bool.not_not]
      exact hisIn
  · exact states_negation h

/-- What the text of a leaf on features says. -/
theorem states_featureLeaf (htree : s.tree.IsDerived) (hs : s.HasKeyNames) {leaf : Filter}
    (hleaf : leaf.IsLeaf) {d : FeatureCondition} (hd : s.featureCondition leaf = .ok d) :
    d.States (FeatureAtom.sql s) level FeatureAtom.HasNames fun truth =>
      ownHolds (s.filterText · level) truth leaf := by
  rw [ownHolds_of_compile (s.filterText · level) (map_eq_ok.2 ⟨d, hd, rfl⟩)]
  refine states_leaf ?_
  rcases named_leaf htree hs hleaf hd with ⟨value, rfl⟩ | ⟨atom, rfl, hnames⟩
  · exact .inl ⟨value, rfl⟩
  · exact .inr ⟨atom, rfl, hnames, atom.isConjunction_sql hnames⟩

/-- What the text of a filter on features says. -/
theorem states_featureCondition (htree : s.tree.IsDerived) (hs : s.HasKeyNames) {filter : Filter}
    {c : FeatureCondition} (h : s.featureCondition filter = .ok c) :
    c.States (FeatureAtom.sql s) level FeatureAtom.HasNames fun truth =>
      filter.holds (ownHolds (s.filterText · level) truth) :=
  states_of_lower (fun _ _ => states_negated) h fun leaf hmem _ hd =>
    states_featureLeaf htree hs (Filter.exists_lower_of_mem_leaves h leaf hmem).1 hd

theorem keepsStructure_filterText (htree : s.tree.IsDerived) (hs : s.HasNames) {filter : Filter}
    {text : String} (h : s.filterText filter level = .ok text) :
    KeepsStructure (s.filterText · level) filter text := by
  obtain ⟨c, hc, rfl⟩ := map_eq_ok.1 h
  refine keepsStructure_of_text (states_featureCondition htree hs.keyNames hc).text
    fun leaf hmem => ?_
  obtain ⟨hleaf, d, hd⟩ := Filter.exists_lower_of_mem_leaves hc leaf hmem
  exact ⟨_, _, map_eq_ok.2 ⟨d, hd, rfl⟩, (states_featureLeaf htree hs.keyNames hleaf hd).text⟩

/-- The condition of a leaf on rows is a truth value or one test, called by identifiers. -/
theorem named_rowLeaf (hs : s.HasNames) {table : Alias} (htable : table.IsNamed) {leaf : Filter}
    (hleaf : leaf.IsLeaf) (hnames : ∀ p ∈ leaf.properties, IsName p) {d : RowCondition}
    (hd : s.rowCondition table leaf = .ok d) :
    (∃ value, d = .constant value) ∨ ∃ t : Test, d = .atom t ∧ t.HasNames := by
  rcases Storage.rowCondition_leaf_cases hleaf hd with
    ⟨negated, p, t, hshape, ht, rfl⟩ | ⟨-, value, rfl⟩
  · have hp : ∀ q ∈ p.properties, IsName q := by
      rcases hshape with rfl | rfl <;> exact hnames
    exact .inr ⟨t, rfl, hasNames_test (namesRows_row hs.keyNames htable)
      (fun q hq => namesColumn_row htable (hp q hq)) ht⟩
  · exact .inl ⟨value, rfl⟩

variable (level) in
/-- What the text of a leaf on rows says. -/
theorem states_rowLeaf (hs : s.HasNames) {table : Alias} (htable : table.IsNamed) {leaf : Filter}
    (hleaf : leaf.IsLeaf) (hnames : ∀ p ∈ leaf.properties, IsName p) {d : RowCondition}
    (hd : s.rowCondition table leaf = .ok d) :
    d.States s.testSql level Test.HasNames fun truth =>
      ownHolds (s.rowText table level) truth leaf := by
  rw [ownHolds_of_compile (s.rowText table level) (map_eq_ok.2 ⟨d, hd, rfl⟩)]
  refine states_leaf ?_
  rcases named_rowLeaf hs htable hleaf hnames hd with ⟨value, rfl⟩ | ⟨t, rfl, htest⟩
  · exact .inl ⟨value, rfl⟩
  · have htext : IsConjunction ((s.testSql t).chars level) :=
      t.isConjunction_sql s.dialect s.srid htest
    exact .inr ⟨t, rfl, htest, htext⟩

/-- What the text of a filter on rows says. -/
theorem states_rowCondition (hs : s.HasNames) {table : Alias} (htable : table.IsNamed)
    {filter : Filter} (hnames : ∀ p ∈ filter.properties, IsName p) {c : RowCondition}
    (h : s.rowCondition table filter = .ok c) :
    c.States s.testSql level Test.HasNames fun truth =>
      filter.holds (ownHolds (s.rowText table level) truth) := by
  refine states_of_lower (fun c v => states_negation) h fun leaf hmem d hd => ?_
  exact states_rowLeaf level hs htable (Filter.exists_lower_of_mem_leaves h leaf hmem).1
    (fun p hp => hnames p (Filter.mem_properties_of_mem_leaves hmem hp)) hd

theorem keepsStructure_rowText (hs : s.HasNames) {table : Alias} (htable : table.IsNamed)
    {filter : Filter} (hnames : ∀ p ∈ filter.properties, IsName p) {text : String}
    (h : s.rowText table level filter = .ok text) :
    KeepsStructure (s.rowText table level) filter text := by
  obtain ⟨c, hc, rfl⟩ := map_eq_ok.1 h
  refine keepsStructure_of_text (states_rowCondition hs htable hnames hc).text fun leaf hmem => ?_
  obtain ⟨hleaf, d, hd⟩ := Filter.exists_lower_of_mem_leaves hc leaf hmem
  have hstates := states_rowLeaf level hs htable hleaf
    (fun p hp => hnames p (Filter.mem_properties_of_mem_leaves hmem hp)) hd
  exact ⟨_, _, map_eq_ok.2 ⟨d, hd, rfl⟩, hstates.text⟩

/-- The text of a restriction is the conjunction of its conditions without parentheses, and there is
none only without conditions. -/
theorem says_restrictionText (htree : s.tree.IsDerived) (hs : s.HasNames) {given : Option Filter}
    {found : Option String} (h : s.restrictionText given level = .ok found) :
    (found = none ↔ s.root.filter = none ∧ given = none) ∧
      ∀ text ∈ found, Says text.toList fun truth =>
        givenHolds (s.rowText outerRoot level) s.root.filter truth &&
          givenHolds (s.filterText · level) given truth := by
  obtain ⟨r, hr, rfl⟩ := map_eq_ok.1 h
  obtain ⟨row, hrow, hr⟩ := bind_eq_ok.1 hr
  obtain ⟨feature, hfeature, hr⟩ := bind_eq_ok.1 hr
  obtain rfl := pure_eq_ok.1 hr
  obtain ⟨hrowNone, hrowTrue, hrowSome⟩ := says_of_mapM (s.rowText outerRoot level)
    (fun c => (s.rowConditionSql c).chars level) hrow fun filter hfilter c hc =>
      (states_rowCondition hs (Alias.isNamed_slot 0 0) (hs.2.2.1 filter hfilter) hc).text
  obtain ⟨hfeatureNone, hfeatureTrue, hfeatureSome⟩ := says_of_mapM (s.filterText · level)
    (fun c => (s.featureConditionSql c).chars level) hfeature fun filter _ c hc =>
      (states_featureCondition htree hs.keyNames hc).text
  rw [← hrowNone, ← hfeatureNone]
  -- where a condition is missing, what it would say is true
  cases row with
  | none =>
    cases feature with
    | none => exact ⟨by simp [Restriction.sql?], by simp [Restriction.sql?]⟩
    | some c =>
      refine ⟨by simp [Restriction.sql?], fun text htext => ?_⟩
      obtain rfl := Option.some.inj htext
      simp only [hrowTrue rfl, Bool.true_and]
      exact hfeatureSome c rfl
  | some d =>
    cases feature with
    | none =>
      refine ⟨by simp [Restriction.sql?], fun text htext => ?_⟩
      obtain rfl := Option.some.inj htext
      simp only [hfeatureTrue rfl, Bool.and_true]
      exact hrowSome d rfl
    | some c =>
      refine ⟨by simp [Restriction.sql?], fun text htext => ?_⟩
      obtain rfl := Option.some.inj htext
      have hboth := (hrowSome d rfl).and (hfeatureSome c rfl)
      rw [List.append_assoc, ← Sql.chars_text, ← Sql.chars_append] at hboth
      exact hboth

end Storage

/-- If the names that are not checked when they are read are identifiers, the texts of filters keep
their boolean structure: filters on features at every level, filters on rows under every alias, and
the restriction of a select, which is the conjunction of the condition on root rows and that of the
reader. -/
theorem keepsStructure_of_hasNames {mapping : FeatureMapping} {s : Storage}
    (h : TableTree.ofMapping mapping = .ok s.tree) (hs : s.HasNames) :
    (∀ filter level text, s.filterText filter level = .ok text →
      KeepsStructure (s.filterText · level) filter text) ∧
    (∀ filter table text, IsName table → (∀ p ∈ filter.properties, IsName p) →
      s.rowFilterText filter table = .ok text →
        KeepsStructure (s.rowFilterText · table) filter text) ∧
    ∀ given level found, s.restrictionText given level = .ok found →
      (found = none ↔ s.root.filter = none ∧ given = none) ∧
        ∀ text ∈ found, (∃ parts, readText text = some [parts]) ∧
          ∀ truth, textHolds truth text =
            (givenHolds (s.rowText outerRoot level) s.root.filter truth &&
              givenHolds (s.filterText · level) given truth) := by
  have htree := TableTree.isDerived_of_ofMapping h
  refine ⟨fun filter level text htext => Storage.keepsStructure_filterText htree hs htext, ?_, ?_⟩
  · intro filter table text htable hnames htext
    have hnamed : (Alias.named table).IsNamed := fun _ => htable
    exact Storage.keepsStructure_rowText hs hnamed hnames htext
  · intro given level found hfound
    obtain ⟨hnone, hsome⟩ := Storage.says_restrictionText htree hs hfound
    refine ⟨hnone, fun text htext => ?_⟩
    obtain ⟨parts, hparts, hholds⟩ := (hsome text htext).readText_eq
    exact ⟨⟨parts, hparts⟩, hholds⟩

/-- A negated alternative, one part of which is a range and an excluded list, behind a condition on
root rows. -/
theorem keepsStructure_of_hasNames_cities :
    let mapping : FeatureMapping := ⟨"parcels", "parcel\x7bfilter=\x7b\"op\":\"is_null\"," ++
        "\"value\":\x7b\"property\":\"deleted\"\x7d\x7d\x7d", [⟨"name", "name", .value, none⟩,
      ⟨"city", "[id=parcel_id]address/city", .value, none⟩]⟩
    let filter : Filter := .negation (.any [Filter.compare .eq "city" (.text "Bonn"),
      .all [Filter.between "name" (.int 1) (.int 2),
        .negation (Filter.oneOf "name" [.text "OR ("])]])
    let text := "NOT ((A.id IN (SELECT AA.id FROM parcel AA JOIN address AB " ++
      "ON (AA.id=AB.parcel_id) WHERE AB.city = 'Bonn') OR " ++
        "(A.name BETWEEN 1 AND 2 AND A.name NOT IN ('OR ('))))"
    ∃ s : Storage, TableTree.ofMapping mapping = .ok s.tree ∧ s.HasNames ∧
      s.filterText filter 0 = .ok text ∧ KeepsStructure (s.filterText · 0) filter text ∧
      s.restrictionText (some filter) 0 = .ok (some ("A.deleted IS NULL AND " ++ text)) ∧
      ∀ truth, textHolds truth ("A.deleted IS NULL AND " ++ text) =
        (givenHolds (s.rowText outerRoot 0) s.root.filter truth &&
          givenHolds (s.filterText · 0) (some filter) truth) := by
  intro mapping filter text
  have hrun : (do
      let tree ← TableTree.ofMapping mapping
      let s := Storage.plain tree .postgis
      let own ← s.filterText filter 0
      let all ← s.restrictionText (some filter) 0
      return (decide s.HasNames, own, all) :
        Except Error (Bool × String × Option String)).toOption =
        some (true, text, some ("A.deleted IS NULL AND " ++ text)) := by
    decide +kernel
  obtain ⟨tree, htree, hrun⟩ := bind_eq_ok.1 (toOption_eq_some.1 hrun)
  obtain ⟨own, hown, hrun⟩ := bind_eq_ok.1 hrun
  obtain ⟨all, hall, hrun⟩ := bind_eq_ok.1 hrun
  obtain ⟨hnames, htext⟩ := Prod.mk.inj (pure_eq_ok.1 hrun)
  obtain ⟨rfl, rfl⟩ := Prod.mk.inj htext
  have hs := of_decide_eq_true hnames
  obtain ⟨hfeature, -, hrestriction⟩ :=
    @keepsStructure_of_hasNames mapping (Storage.plain tree .postgis) htree hs
  exact ⟨Storage.plain tree .postgis, htree, hs, hown, hfeature filter 0 text hown, hall,
    ((hrestriction (some filter) 0 _ hall).2 _ rfl).2⟩

/-- A sort key may be any text, and one with an OR takes a membership apart. -/
theorem not_keepsStructure_or :
    let mapping : FeatureMapping := ⟨"parcels", "parcel\x7bsortKey=code OR id\x7d",
      [⟨"city", "[id=parcel_id]address/city", .value, none⟩]⟩
    let filter := Filter.compare .eq "city" (.text "Bonn")
    let text := "A.code OR id IN (SELECT AA.code OR id FROM parcel AA JOIN address AB " ++
      "ON (AA.id=AB.parcel_id) WHERE AB.city = 'Bonn')"
    ∃ s : Storage, TableTree.ofMapping mapping = .ok s.tree ∧ s.filterText filter 0 = .ok text ∧
      ¬ KeepsStructure (s.filterText · 0) filter text := by
  intro mapping filter text
  have hrun : (do
      let tree ← TableTree.ofMapping mapping
      (Storage.plain tree .postgis).filterText filter 0 : Except Error String).toOption =
        some text := by
    decide +kernel
  have hparts : (readText text).map List.length = some 2 := by decide +kernel
  obtain ⟨tree, htree, htext⟩ := bind_eq_ok.1 (toOption_eq_some.1 hrun)
  refine ⟨Storage.plain tree .postgis, htree, htext, fun hkeeps => ?_⟩
  obtain ⟨parts, hread⟩ := hkeeps.isConjunction
  rw [hread] at hparts
  simp at hparts

end FeatureStore
