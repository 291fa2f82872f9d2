import FeatureStore.Proofs.Sql.Lowered
import Mathlib.Tactic

/-!
# Aliases that texts name

The aliases in the text of an expression are those of the tables it reads, and an expression that
is lowered in a scope reads tables of that scope only (`Storage.tables_subset_of_scalar`). So the
text of a condition on the rows of one table names that table and no other
(`Storage.namesOnly_rowCondition`).
-/

set_option autoImplicit false

namespace FeatureStore

/-! ## Pieces -/

namespace Sql

variable {names : List Alias}

/-- All aliases in a text are among some. -/
def NamesOnly (names : List Alias) (sql : Sql) : Prop :=
  ∀ name, Piece.alias name ∈ sql → name ∈ names

@[simp] theorem namesOnly_nil : NamesOnly names [] := fun _ h => absurd h List.not_mem_nil

@[simp] theorem namesOnly_append {a b : Sql} :
    NamesOnly names (a ++ b) ↔ NamesOnly names a ∧ NamesOnly names b := by
  simp only [NamesOnly, List.mem_append, or_imp, forall_and]

@[simp] theorem namesOnly_alias {name : Alias} {sql : Sql} :
    NamesOnly names (.alias name :: sql) ↔ name ∈ names ∧ NamesOnly names sql := by
  simp only [NamesOnly, List.mem_cons, Piece.alias.injEq, or_imp, forall_and, forall_eq]

@[simp] theorem namesOnly_text {text : String} {sql : Sql} :
    NamesOnly names (.text text :: sql) ↔ NamesOnly names sql := by
  simp [NamesOnly]

@[simp] theorem namesOnly_quoted {text : String} {sql : Sql} :
    NamesOnly names (.quoted text :: sql) ↔ NamesOnly names sql := by
  simp [NamesOnly]

@[simp] theorem namesOnly_value {value : Value} {sql : Sql} :
    NamesOnly names (value.sql :: sql) ↔ NamesOnly names sql := by
  cases value <;> simp [Value.sql]

@[simp] theorem namesOnly_ofText (text : String) : NamesOnly names (ofText text) := by
  simp [ofText]

@[simp] theorem namesOnly_column {table : Alias} {name : String} :
    NamesOnly names (column table name) ↔ table ∈ names := by
  simp [column]

@[simp] theorem namesOnly_around {before behind : String} {sql : Sql} :
    NamesOnly names (around before sql behind) ↔ NamesOnly names sql := by
  simp [around]

@[simp] theorem namesOnly_parenthesized {sql : Sql} :
    NamesOnly names (parenthesized sql) ↔ NamesOnly names sql := namesOnly_around

theorem namesOnly_separated (sep : String) : ∀ {parts : List Sql},
    (∀ part ∈ parts, NamesOnly names part) → NamesOnly names (separated sep parts)
  | [], _ => namesOnly_nil
  | [part], h => h part List.mem_cons_self
  | part :: other :: parts, h => by
    obtain ⟨hpart, hparts⟩ := List.forall_mem_cons.1 h
    rw [separated, namesOnly_append, namesOnly_text]
    · exact ⟨hpart, namesOnly_separated sep hparts⟩
    · exact List.cons_ne_nil other parts

end Sql

/-! ## Expressions and tests -/

section Expressions

variable {names : List Alias} {dialect : Dialect} {srid : Nat}

theorem namesOnly_timeLiteral (text : String) :
    Sql.NamesOnly names (dialect.timeLiteral (.quoted text)) := by
  cases dialect <;> simp [Dialect.timeLiteral]

theorem namesOnly_dateLiteral (text : String) :
    Sql.NamesOnly names (dialect.dateLiteral (.quoted text)) := by
  cases dialect <;> simp [Dialect.dateLiteral]

/-- The text of an expression names the tables that the expression reads. -/
theorem Scalar.namesOnly_sql {e : Scalar} (h : e.tables ⊆ names) :
    Sql.NamesOnly names (e.sql dialect srid) := by
  induction e with
  | column table name => simpa [sql, tables] using h
  | position table => simpa [sql, tables] using h
  | literal value => simp [sql]
  | geometry value => simp [sql, Dialect.geometryLiteral]
  | instant value => exact namesOnly_timeLiteral _
  | date value => exact namesOnly_dateLiteral _
  | earliest => exact namesOnly_timeLiteral _
  | latest => exact namesOnly_timeLiteral _
  | period start stop ihstart ihstop =>
    obtain ⟨hstart, hstop⟩ := List.append_subset.1 h
    simp [sql, ihstart hstart, ihstop hstop]
  | list values =>
    rw [sql, Value.listSql, Sql.namesOnly_parenthesized]
    refine Sql.namesOnly_separated _ fun part hpart => ?_
    obtain ⟨value, -, rfl⟩ := List.mem_map.1 hpart
    simp
  | upper arg ih => simpa [sql] using ih h
  | lower arg ih => simpa [sql] using ih h
  | collated arg collation ih => simpa [sql] using ih h

/-- Both ends of a range read only some tables. -/
def TimeRange.Within (names : List Alias) (r : TimeRange) : Prop :=
  r.start.tables ⊆ names ∧ r.stop.tables ⊆ names

theorem TimeRange.within_ofLiteral (literal : TemporalLiteral) :
    (TimeRange.ofLiteral literal).Within names := by
  constructor
  · cases h : literal.range.start <;> simp [ofLiteral, h, startOf, Scalar.tables]
  · cases h : literal.range.stop <;> simp [ofLiteral, h, stopOf, Scalar.tables]

/-- The text of a test on moments names the tables of what it compares. -/
theorem TimeTest.namesOnly_sql {test : TimeTest} (h : ∀ e ∈ test.scalars, e.tables ⊆ names) :
    Sql.NamesOnly names (test.sql dialect srid) := by
  have hscalar : ∀ e ∈ test.scalars, Sql.NamesOnly names (e.sql dialect srid) :=
    fun e he => Scalar.namesOnly_sql (h e he)
  induction test with
  | compare op left right =>
    simp [sql, hscalar left (by simp [scalars]), hscalar right (by simp [scalars])]
  | both first second hfirst hsecond =>
    obtain ⟨h₁, h₂⟩ := List.forall_mem_append.1 h
    obtain ⟨hs₁, hs₂⟩ := List.forall_mem_append.1 hscalar
    simp [sql, hfirst h₁ hs₁, hsecond h₂ hs₂]
  | negation test ih => simpa [sql] using ih h hscalar
  | overlaps l r =>
    simp only [scalars, List.forall_mem_cons] at hscalar
    obtain ⟨hlstart, hlstop, hrstart, hrstop, -⟩ := hscalar
    simp [sql, hlstart, hlstop, hrstart, hrstop]

/-- The text of a test names the tables of the expressions that it is about. -/
theorem Test.namesOnly_sql {test : Test} (h : ∀ e ∈ test.scalars, e.tables ⊆ names) :
    Sql.NamesOnly names (test.sql dialect srid) := by
  have hscalar : ∀ e ∈ test.scalars, Sql.NamesOnly names (e.sql dialect srid) :=
    fun e he => Scalar.namesOnly_sql (h e he)
  cases test with
  | temporal test => exact test.namesOnly_sql h
  | oneOf value list negated =>
    obtain ⟨hvalue, hlist⟩ := List.forall_mem_cons.1 hscalar
    simp [sql, hvalue, Sql.namesOnly_separated ", " (List.forall_mem_map.2 hlist)]
  | like value pattern =>
    simp only [scalars, List.forall_mem_cons] at hscalar
    cases dialect <;> simp [sql, Dialect.castText, hscalar.1, hscalar.2.1]
  | compare | isNull | between | spatial =>
    simp only [scalars, List.forall_mem_cons] at hscalar
    simp [sql, hscalar]

mutual
/-- The text of a condition names the tables that its atoms do. -/
theorem Condition.namesOnly_sql {α : Type} {atomSql : α → Sql} : ∀ {c : Condition α},
    (∀ a ∈ c.atoms, Sql.NamesOnly names (atomSql a)) → Sql.NamesOnly names (c.sql atomSql)
  | .atom a, h => h a List.mem_cons_self
  | .constant value, _ => Sql.namesOnly_ofText _
  | .all parts, h => by
    rw [sql, Sql.namesOnly_parenthesized]
    exact Sql.namesOnly_separated _ (namesOnly_listSql h)
  | .any parts, h => by
    rw [sql, Sql.namesOnly_parenthesized]
    exact Sql.namesOnly_separated _ (namesOnly_listSql h)
  | .negation part, h => by
    rw [sql, Sql.namesOnly_around]
    exact namesOnly_sql h

theorem Condition.namesOnly_listSql {α : Type} {atomSql : α → Sql} :
    ∀ {parts : List (Condition α)}, (∀ a ∈ atomsOfList parts, Sql.NamesOnly names (atomSql a)) →
      ∀ sql ∈ listSql atomSql parts, Sql.NamesOnly names sql
  | [], _ => by simp [listSql]
  | part :: rest, h => by
    rw [atomsOfList] at h
    obtain ⟨hpart, hrest⟩ := List.forall_mem_append.1 h
    exact List.forall_mem_cons.2 ⟨namesOnly_sql hpart, namesOnly_listSql hrest⟩
end

end Expressions

/-- A relation between two ranges compares their ends. -/
theorem TimeTest.mem_scalars_relate {hasOverlaps : Bool} {relation : TemporalRelation}
    {l r : TimeRange} {e : Scalar} (h : e ∈ (relate hasOverlaps relation l r).scalars) :
    e ∈ [l.start, l.stop, r.start, r.stop] := by
  cases relation
  all_goals
    simp only [relate, meets, reaches, endsBefore, endsWithin, scalars] at h
    repeat' split at h
  all_goals
    simp only [scalars, List.cons_append, List.nil_append, List.mem_cons, List.not_mem_nil,
      or_false] at h ⊢
    tauto

/-- What is true of the ends of two ranges is true of what a relation between them compares. -/
theorem TimeTest.forall_mem_scalars_relate (p : Scalar → Prop) {l r : TimeRange}
    (hl : p l.start ∧ p l.stop) (hr : p r.start ∧ p r.stop) (hasOverlaps : Bool)
    (relation : TemporalRelation) : ∀ e ∈ (relate hasOverlaps relation l r).scalars, p e := by
  intro e he
  have hmem := mem_scalars_relate he
  simp only [List.mem_cons, List.not_mem_nil, or_false] at hmem
  rcases hmem with rfl | rfl | rfl | rfl
  exacts [hl.1, hl.2, hr.1, hr.2]

/-! ## Scopes -/

/-- The aliases of the tables that a scope offers. -/
def Scope.aliases : Scope → List Alias
  | .feature tables => tables.map Prod.snd
  | .row table => [table]

namespace Storage

variable {s : Storage} {scope : Scope}

theorem tables_subset_of_column {property : String} {e : Scalar}
    (h : s.column scope property = .ok e) : e.tables ⊆ scope.aliases := by
  cases scope with
  | row table =>
    obtain rfl := Except.ok.inj h
    exact List.Subset.refl _
  | feature tables =>
    obtain ⟨⟨table, column⟩, -, h⟩ := bind_eq_ok.1 h
    dsimp only at h
    split at h
    · rename_i name hname
      obtain rfl := pure_eq_ok.1 h
      obtain ⟨before, behind, rfl, -⟩ := List.lookup_eq_some_iff.1 hname
      simp [Scalar.tables, Scope.aliases]
    · exact absurd h throw_ne_ok

theorem tables_subset_of_rowPosition {e : Scalar} (h : rowPosition scope = .ok e) :
    e.tables ⊆ scope.aliases := by
  cases scope with
  | row table =>
    obtain rfl := Except.ok.inj h
    exact List.Subset.refl _
  | feature tables => simp [rowPosition] at h

/-- A function reads what its argument reads. -/
theorem tables_subset_of_applyFunction {function : ScalarFunction} {args : List Operand}
    (hargs : ∀ arg ∈ args, ∀ e, s.scalar scope arg = .ok e → e.tables ⊆ scope.aliases)
    {e : Scalar} (h : s.applyFunction scope function (s.firstScalar scope args) = .ok e) :
    e.tables ⊆ scope.aliases := by
  rcases applyFunction_eq_ok h with ⟨-, hposition⟩ |
    ⟨-, arg, rest, rfl, ⟨text, -, rfl⟩ | ⟨inner, hinner, hmade⟩⟩
  · exact tables_subset_of_rowPosition hposition
  · exact List.nil_subset _
  · have hsub := hargs arg List.mem_cons_self inner hinner
    rcases hmade with rfl | rfl | ⟨collation, -, rfl⟩ <;> exact hsub

mutual
/-- An operand reads tables of its scope only. -/
theorem tables_subset_of_scalar : ∀ {operand : Operand} {e : Scalar},
    s.scalar scope operand = .ok e → e.tables ⊆ scope.aliases
  | .property name, _, h => tables_subset_of_column h
  | .literal value, _, h => by
    obtain rfl := Except.ok.inj h
    exact List.nil_subset _
  | .geometry value, _, h => by
    obtain rfl := Except.ok.inj h
    exact List.nil_subset _
  | .temporal (.instant value), _, h => by
    obtain rfl := Except.ok.inj h
    exact List.nil_subset _
  | .temporal (.date value), _, h => by
    obtain rfl := Except.ok.inj h
    exact List.nil_subset _
  | .temporal (.interval start stop), _, h => by
    obtain rfl := Except.ok.inj h
    exact List.append_subset.2 (TimeRange.within_ofLiteral _)
  | .interval start stop, _, h => by
    obtain ⟨first, hfirst, h⟩ := bind_eq_ok.1 h
    obtain ⟨last, hlast, h⟩ := bind_eq_ok.1 h
    obtain rfl := pure_eq_ok.1 h
    exact List.append_subset.2 ⟨(within_of_timeRange hfirst).1, (within_of_timeRange hlast).2⟩
  | .array values, _, h => by
    obtain rfl := Except.ok.inj h
    exact List.nil_subset _
  | .apply function args, _, h => tables_subset_of_applyFunction (tables_subset_of_scalars args) h

/-- The range of time of an operand has its ends in tables of the scope. -/
theorem within_of_timeRange : ∀ {operand : Operand} {r : TimeRange},
    s.timeRange scope operand = .ok r → r.Within scope.aliases
  | .property name, _, h => by
    obtain ⟨e, he, rfl⟩ := map_eq_ok.1 h
    exact ⟨tables_subset_of_column he, tables_subset_of_column he⟩
  | .temporal literal, _, h => by
    obtain rfl := Except.ok.inj h
    exact TimeRange.within_ofLiteral literal
  | .interval start stop, _, h => by
    obtain ⟨first, hfirst, h⟩ := bind_eq_ok.1 h
    obtain ⟨last, hlast, h⟩ := bind_eq_ok.1 h
    obtain rfl := pure_eq_ok.1 h
    exact ⟨(within_of_timeRange hfirst).1, (within_of_timeRange hlast).2⟩
  | .apply function args, _, h => by
    obtain ⟨e, he, rfl⟩ := map_eq_ok.1 h
    have hsub := tables_subset_of_applyFunction (tables_subset_of_scalars args) he
    exact ⟨hsub, hsub⟩
  | .literal _, _, h => by simp [timeRange] at h
  | .geometry _, _, h => by simp [timeRange] at h
  | .array _, _, h => by simp [timeRange] at h

theorem tables_subset_of_scalars : ∀ (args : List Operand), ∀ arg ∈ args, ∀ e,
    s.scalar scope arg = .ok e → e.tables ⊆ scope.aliases
  | [] => by simp
  | arg :: rest =>
    List.forall_mem_cons.2 ⟨fun _ h => tables_subset_of_scalar h, tables_subset_of_scalars rest⟩
end

/-- What a test is about is read from tables of its scope. -/
theorem tables_subset_of_test {negated : Bool} {p : Predicate} {t : Test}
    (h : s.test scope negated p = .ok t) : ∀ e ∈ t.scalars, e.tables ⊆ scope.aliases := by
  rcases test_cases h with ⟨-, hscalars⟩ | ⟨relation, left, right, l, r, rfl, hl, hr, rfl⟩
  · intro e he
    obtain ⟨o, -, ho⟩ := exists_left_of_forall₂ hscalars he
    exact tables_subset_of_scalar ho
  · exact TimeTest.forall_mem_scalars_relate (fun e => e.tables ⊆ scope.aliases)
      (within_of_timeRange hl) (within_of_timeRange hr) _ _

/-- The text of a test names tables of its scope only. -/
theorem namesOnly_test {negated : Bool} {p : Predicate} {t : Test}
    (h : s.test scope negated p = .ok t) (dialect : Dialect) (srid : Nat) :
    Sql.NamesOnly scope.aliases (t.sql dialect srid) := Test.namesOnly_sql (tables_subset_of_test h)

/-- The text of a condition on the rows of one table names that table only. -/
theorem namesOnly_rowCondition {table : Alias} {filter : Filter} {condition : RowCondition}
    (h : s.rowCondition table filter = .ok condition) (s' : Storage) :
    Sql.NamesOnly [table] (s'.rowConditionSql condition) := by
  refine Condition.namesOnly_sql fun t ht => ?_
  obtain ⟨negated, p, htest⟩ := exists_test_of_mem_atoms h t ht
  exact namesOnly_test htest _ _

end Storage

end FeatureStore
