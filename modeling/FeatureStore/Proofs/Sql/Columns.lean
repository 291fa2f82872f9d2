import FeatureStore.Proofs.Sql.Lowered

/-!
# Columns that texts name

The pieces of a text name columns under the aliases of their tables, one behind the other
(`Sql.Cites`). The text of an expression names the columns that it is made of, a test those of its
expressions from left to right (`Test.cites_sql`), and a condition those of its atoms
(`Condition.cites_sql`). Which properties they ought to stand for is told by the filter alone: the
text of an operand reads some of its properties in order (`Operand.reads`), and leaves out those in
places that it does not show (`Operand.drops`). A property of a leaf is one or the other
(`Filter.IsLeaf.mem_properties_iff`). In a scope the two meet: a test names one column for every
property that its predicate reads, in the same order (`Storage.forall₂_columns_test`).
-/

set_option autoImplicit false

namespace FeatureStore

/-! ## What is read of a filter -/

/-- An end of a range of time. -/
inductive RangeEnd where
  | start
  | stop

namespace Operand

mutual
/-- The properties that the text of an operand reads, from left to right. A function is one of its
first argument, and an interval goes from the start of its first operand to the end of its last. -/
def reads : Operand → List String
  | .property name => [name]
  | .interval start stop => start.readsAt .start ++ stop.readsAt .stop
  | .apply _ args => readsOfFirst args
  | .literal _ => []
  | .geometry _ => []
  | .temporal _ => []
  | .array _ => []

/-- The properties that the text of one end of an operand reads, as a range of time. -/
def readsAt : Operand → RangeEnd → List String
  | .property name, _ => [name]
  | .interval start _, .start => start.readsAt .start
  | .interval _ stop, .stop => stop.readsAt .stop
  | .apply _ args, _ => readsOfFirst args
  | .literal _, _ => []
  | .geometry _, _ => []
  | .temporal _, _ => []
  | .array _, _ => []

/-- The properties that the text of the first operand of a list reads. -/
def readsOfFirst : List Operand → List String
  | [] => []
  | arg :: _ => arg.reads
end

mutual
/-- The properties that the text of an operand leaves out: those in arguments of a function behind
the first one, and those at the inner ends of intervals. -/
def drops : Operand → List String
  | .property _ => []
  | .interval start stop => start.dropsAt .start ++ stop.dropsAt .stop
  | .apply _ args => dropsOfFirst args
  | .literal _ => []
  | .geometry _ => []
  | .temporal _ => []
  | .array _ => []

/-- The properties that the text of one end of an operand leaves out. -/
def dropsAt : Operand → RangeEnd → List String
  | .property _, _ => []
  | .interval start stop, .start => start.dropsAt .start ++ stop.properties
  | .interval start stop, .stop => start.properties ++ stop.dropsAt .stop
  | .apply _ args, _ => dropsOfFirst args
  | .literal _, _ => []
  | .geometry _, _ => []
  | .temporal _, _ => []
  | .array _, _ => []

/-- The properties that the text of the first operand of a list leaves out of all of them. -/
def dropsOfFirst : List Operand → List String
  | [] => []
  | arg :: rest => arg.drops ++ propertiesOfList rest
end

variable {property : String}

mutual
/-- Every property of an operand stands in its text or is left out of it. -/
theorem mem_properties_iff : ∀ {o : Operand},
    property ∈ o.properties ↔ property ∈ o.reads ∨ property ∈ o.drops
  | .property name => by simp [properties, reads, drops]
  | .interval start stop => by
    have hstart := mem_properties_iff_at (o := start) .start
    have hstop := mem_properties_iff_at (o := stop) .stop
    rw [properties, reads, drops, List.mem_append, List.mem_append, List.mem_append, hstart, hstop]
    exact or_or_or_comm
  | .apply _ args => by
    rw [properties, reads, drops]
    exact mem_propertiesOfList_iff
  | .literal _ => by simp [properties, reads, drops]
  | .geometry _ => by simp [properties, reads, drops]
  | .temporal _ => by simp [properties, reads, drops]
  | .array _ => by simp [properties, reads, drops]

theorem mem_properties_iff_at : ∀ {o : Operand} (e : RangeEnd),
    property ∈ o.properties ↔ property ∈ o.readsAt e ∨ property ∈ o.dropsAt e
  | .property name, e => by simp [properties, readsAt, dropsAt]
  | .interval start stop, .start => by
    rw [properties, readsAt, dropsAt, List.mem_append, List.mem_append,
      mem_properties_iff_at (o := start) .start]
    exact or_assoc
  | .interval start stop, .stop => by
    rw [properties, readsAt, dropsAt, List.mem_append, List.mem_append,
      mem_properties_iff_at (o := stop) .stop]
    exact or_left_comm
  | .apply _ args, e => by
    rw [properties, readsAt, dropsAt]
    exact mem_propertiesOfList_iff
  | .literal _, e => by simp [properties, readsAt, dropsAt]
  | .geometry _, e => by simp [properties, readsAt, dropsAt]
  | .temporal _, e => by simp [properties, readsAt, dropsAt]
  | .array _, e => by simp [properties, readsAt, dropsAt]

theorem mem_propertiesOfList_iff : ∀ {args : List Operand},
    property ∈ propertiesOfList args ↔ property ∈ readsOfFirst args ∨ property ∈ dropsOfFirst args
  | [] => by simp [propertiesOfList, readsOfFirst, dropsOfFirst]
  | arg :: rest => by
    rw [propertiesOfList, readsOfFirst, dropsOfFirst, List.mem_append, List.mem_append,
      mem_properties_iff (o := arg)]
    exact or_assoc
end

/-- The whole of an operand reads what its ends do. -/
theorem mem_reads_iff {o : Operand} :
    property ∈ o.reads ↔ property ∈ o.readsAt .start ∨ property ∈ o.readsAt .stop := by
  cases o with
  | property name => simp [reads, readsAt]
  | interval start stop => simp [reads, readsAt]
  | apply function args => simp [reads, readsAt]
  | literal value => simp [reads, readsAt]
  | geometry value => simp [reads, readsAt]
  | temporal value => simp [reads, readsAt]
  | array values => simp [reads, readsAt]

end Operand

/-- What a relation between two ranges compares of the ends of both, from left to right. -/
def TemporalRelation.arranged {α : Type} (hasOverlaps : Bool) (relation : TemporalRelation)
    (left right : RangeEnd → List α) : List α :=
  match relation with
  | .before => left .stop ++ right .start
  | .after => right .stop ++ left .start
  | .during => left .start ++ right .start ++ (left .stop ++ right .stop)
  | .equals => left .start ++ right .start ++ (left .stop ++ right .stop)
  | .disjoint => right .start ++ left .stop ++ (left .start ++ right .stop)
  | .intersects =>
    if hasOverlaps then left .start ++ left .stop ++ (right .start ++ right .stop)
    else right .start ++ left .stop ++ (left .start ++ right .stop)

theorem TemporalRelation.mem_arranged_iff {α : Type} {hasOverlaps : Bool}
    {relation : TemporalRelation} (hbefore : relation ≠ .before) (hafter : relation ≠ .after)
    {left right : RangeEnd → List α} {a : α} : a ∈ relation.arranged hasOverlaps left right ↔
      (a ∈ left .start ∨ a ∈ left .stop) ∨ a ∈ right .start ∨ a ∈ right .stop := by
  cases relation with
  | before => contradiction
  | after => contradiction
  | during =>
    simp only [arranged, List.mem_append]
    exact or_or_or_comm
  | equals =>
    simp only [arranged, List.mem_append]
    exact or_or_or_comm
  | disjoint =>
    simp only [arranged, List.mem_append]
    tauto
  | intersects =>
    cases hasOverlaps with
    | true => simp only [arranged, if_true, List.mem_append]
    | false =>
      simp only [arranged, Bool.false_eq_true, if_false, List.mem_append]
      tauto

namespace Predicate

/-- The properties that the text of a predicate reads, from left to right. -/
def reads (hasOverlaps : Bool) : Predicate → List String
  | .temporal relation left right => relation.arranged hasOverlaps left.readsAt right.readsAt
  | p => p.operands.flatMap Operand.reads

/-- The properties that the text of a predicate leaves out. One range before or after another is
compared with it at one end alone. -/
def drops : Predicate → List String
  | .temporal .before left right => left.dropsAt .stop ++ right.dropsAt .start
  | .temporal .after left right => left.dropsAt .start ++ right.dropsAt .stop
  | p => p.operands.flatMap Operand.drops

/-- Every property of a predicate stands in its text or is left out of it. -/
theorem mem_properties_iff (hasOverlaps : Bool) {p : Predicate} {property : String} :
    property ∈ p.properties ↔ property ∈ p.reads hasOverlaps ∨ property ∈ p.drops := by
  have hoperands : property ∈ p.properties ↔ property ∈ p.operands.flatMap Operand.reads ∨
      property ∈ p.operands.flatMap Operand.drops := by
    rw [properties, Operand.propertiesOfList_eq_flatMap]
    simp only [List.mem_flatMap, Operand.mem_properties_iff, and_or_left, exists_or]
  cases p with
  | temporal relation left right =>
    have hproperties : property ∈ (temporal relation left right).properties ↔
        property ∈ left.properties ∨ property ∈ right.properties := by
      simp [properties, operands, Operand.propertiesOfList]
    by_cases hbefore : relation = .before
    · subst hbefore
      rw [hproperties, left.mem_properties_iff_at .stop, right.mem_properties_iff_at .start]
      simp only [reads, drops, TemporalRelation.arranged, List.mem_append]
      exact or_or_or_comm
    by_cases hafter : relation = .after
    · subst hafter
      rw [hproperties, left.mem_properties_iff_at .start, right.mem_properties_iff_at .stop]
      simp only [reads, drops, TemporalRelation.arranged, List.mem_append]
      rw [or_or_or_comm, or_comm (a := property ∈ left.readsAt .start)]
    -- all other relations compare both ends of both ranges
    have hdrops : (temporal relation left right).drops = [left, right].flatMap Operand.drops := by
      cases relation <;> first | rfl | contradiction
    rw [hoperands, hdrops, reads, TemporalRelation.mem_arranged_iff hbefore hafter]
    simp only [operands, List.flatMap_cons, List.flatMap_nil, List.append_nil, List.mem_append,
      Operand.mem_reads_iff]
  | _ => exact hoperands

end Predicate

/-- The properties that the text of a leaf of a filter reads, from left to right. -/
def Filter.reads (hasOverlaps : Bool) : Filter → List String
  | .test p => p.reads hasOverlaps
  | .negation (.test p) => p.reads hasOverlaps
  | .array _ left right => left.reads ++ right.reads
  | _ => []

/-- The properties that the text of a leaf of a filter leaves out. -/
def Filter.drops : Filter → List String
  | .test p => p.drops
  | .negation (.test p) => p.drops
  | .array _ left right => left.drops ++ right.drops
  | _ => []

/-- Every property of a leaf stands in its text or is left out of it. -/
theorem Filter.IsLeaf.mem_properties_iff (hasOverlaps : Bool) {leaf : Filter} (h : leaf.IsLeaf)
    {property : String} :
    property ∈ leaf.properties ↔ property ∈ leaf.reads hasOverlaps ∨ property ∈ leaf.drops := by
  cases h with
  | outsideList value list => exact Predicate.mem_properties_iff hasOverlaps
  | test p => exact Predicate.mem_properties_iff hasOverlaps
  | array relation left right =>
    rw [properties, reads, drops, List.mem_append, List.mem_append, List.mem_append,
      Operand.mem_properties_iff, Operand.mem_properties_iff]
    exact or_or_or_comm
  | constant value => simp [properties, reads, drops]

/-! ## What a text names -/

/-- A text names some columns under the aliases of their tables, in this order. Behind every alias
in it there is either a column, or a blank where a table is given the alias. -/
inductive Sql.Cites : Sql → List (Alias × String) → Prop
  | nil : Cites [] []
  | piece {piece : Piece} {sql : Sql} {columns : List (Alias × String)} :
    (∀ table, piece ≠ .alias table) → Cites sql columns → Cites (piece :: sql) columns
  | column (table : Alias) (name : String) {sql : Sql} {columns : List (Alias × String)} :
    Cites sql columns →
      Cites (.alias table :: .text ("." ++ name) :: sql) ((table, name) :: columns)
  | table (name : Alias) (content : String) {sql : Sql} {columns : List (Alias × String)} :
    Cites sql columns → Cites (.alias name :: .text (" " ++ content) :: sql) columns

namespace Sql.Cites

variable {a b : Sql} {xs ys : List (Alias × String)}

theorem append (ha : Cites a xs) (hb : Cites b ys) : Cites (a ++ b) (xs ++ ys) := by
  induction ha with
  | nil => exact hb
  | piece hno _ ih => exact .piece hno ih
  | column table name _ ih => exact .column table name ih
  | table name content _ ih => exact .table name content ih

theorem text {content : String} (h : Cites a xs) : Cites (.text content :: a) xs :=
  .piece (by simp) h

theorem quoted {content : String} (h : Cites a xs) : Cites (.quoted content :: a) xs :=
  .piece (by simp) h

theorem value (v : Value) : Cites [v.sql] [] := by
  cases v <;> exact .piece (by simp [Value.sql]) .nil

theorem ofText (content : String) : Cites (Sql.ofText content) [] := .text .nil

/-- Fixed text behind a text. -/
theorem append_ofText (h : Cites a xs) (content : String) : Cites (a ++ Sql.ofText content) xs := by
  have hall := h.append (ofText content)
  rwa [List.append_nil] at hall

theorem around {before behind : String} (h : Cites a xs) :
    Cites (Sql.around before a behind) xs := .text (h.append_ofText behind)

theorem parenthesized (h : Cites a xs) : Cites (Sql.parenthesized a) xs := h.around

/-- Parts with a separator between each two. -/
theorem separated (sep : String) : ∀ {parts : List Sql} {columns : List (List (Alias × String))},
    List.Forall₂ Cites parts columns → Cites (Sql.separated sep parts) columns.flatten
  | _, _, .nil => .nil
  | [part], [columns], .cons h .nil => by simpa [Sql.separated] using h
  | part :: other :: parts, _ :: _ :: _, .cons h hrest => by
    rw [Sql.separated, List.flatten_cons]
    · exact h.append (.text (separated sep hrest))
    · exact List.cons_ne_nil other parts

theorem separated_map {α : Type} (sep : String) {write : α → Sql}
    {columns : α → List (Alias × String)} {l : List α} (h : ∀ a ∈ l, Cites (write a) (columns a)) :
    Cites (Sql.separated sep (l.map write)) (l.flatMap columns) := by
  refine separated sep ?_
  rw [List.forall₂_map_left_iff, List.forall₂_map_right_iff, List.forall₂_same]
  exact h

theorem listSql (values : List Value) : Cites (Value.listSql values) [] := by
  have hvalues : Cites (Sql.separated ", " (values.map fun v => [v.sql]))
      (values.flatMap fun _ => []) := separated_map ", " fun v _ => value v
  rw [List.flatMap_eq_nil_iff.2 fun _ _ => rfl] at hvalues
  exact hvalues.parenthesized

end Sql.Cites

section Expressions

variable {dialect : Dialect} {srid : Nat}

theorem cites_timeLiteral (text : String) :
    Sql.Cites (dialect.timeLiteral (.quoted text)) [] := by
  cases dialect with
  | postgis => exact .text (.quoted .nil)
  | geopackage => exact Sql.Cites.around (.quoted .nil)

theorem cites_dateLiteral (text : String) :
    Sql.Cites (dialect.dateLiteral (.quoted text)) [] := by
  cases dialect with
  | postgis => exact .text (.quoted .nil)
  | geopackage => exact Sql.Cites.around (.quoted .nil)

theorem cites_castText {sql : Sql} {columns : List (Alias × String)} (h : sql.Cites columns) :
    Sql.Cites (dialect.castText sql) columns := by
  cases dialect with
  | postgis => exact h.append_ofText _
  | geopackage => exact h.around

/-- The columns of an expression, from left to right. -/
def Scalar.columns : Scalar → List (Alias × String)
  | .column table name => [(table, name)]
  | .position table => [(table, positionColumn)]
  | .period start stop => start.columns ++ stop.columns
  | .upper arg => arg.columns
  | .lower arg => arg.columns
  | .collated arg _ => arg.columns
  | .literal _ => []
  | .geometry _ => []
  | .instant _ => []
  | .date _ => []
  | .earliest => []
  | .latest => []
  | .list _ => []

/-- The text of an expression names its columns. -/
theorem Scalar.cites_sql (e : Scalar) : (e.sql dialect srid).Cites e.columns := by
  induction e with
  | column table name => exact .column table name .nil
  | position table => exact .column table positionColumn .nil
  | literal value => exact .value value
  | geometry value => exact .text (.quoted (.text .nil))
  | instant value => exact cites_timeLiteral _
  | date value => exact cites_dateLiteral _
  | earliest => exact cites_timeLiteral _
  | latest => exact cites_timeLiteral _
  | period start stop ihstart ihstop => exact (ihstart.append (.text ihstop)).parenthesized
  | list values => exact .listSql values
  | upper arg ih => exact ih.around
  | lower arg ih => exact ih.around
  | collated arg collation ih => exact ih.append_ofText _

/-- The text of a test on moments names the columns of what it compares. -/
theorem TimeTest.cites_sql (test : TimeTest) :
    (test.sql dialect srid).Cites (test.scalars.flatMap Scalar.columns) := by
  induction test with
  | compare op left right =>
    simpa [scalars, sql] using left.cites_sql.append (.text right.cites_sql)
  | both first second hfirst hsecond =>
    rw [scalars, List.flatMap_append]
    exact hfirst.append (.text hsecond)
  | negation test ih => exact ih.around
  | overlaps l r =>
    have hpair : ∀ range : TimeRange, Sql.Cites (Sql.parenthesized (range.start.sql dialect srid ++
        .text ", " :: range.stop.sql dialect srid)) (range.start.columns ++ range.stop.columns) :=
      fun range => (range.start.cites_sql.append (.text range.stop.cites_sql)).parenthesized
    simpa [scalars, sql] using (hpair l).append (.text (hpair r))

/-- The columns of a test, from left to right. -/
def Test.columns (t : Test) : List (Alias × String) := t.scalars.flatMap Scalar.columns

/-- The text of a test names the columns of its expressions. -/
theorem Test.cites_sql (t : Test) : (t.sql dialect srid).Cites t.columns := by
  cases t with
  | compare op left right =>
    simpa [columns, scalars, sql] using left.cites_sql.append (.text right.cites_sql)
  | like value pattern =>
    simpa [columns, scalars, sql] using
      (cites_castText value.cites_sql).append (.text pattern.cites_sql)
  | oneOf value list negated =>
    have hlist : Sql.Cites (Sql.separated ", " (list.map (Scalar.sql dialect srid)))
        (list.flatMap Scalar.columns) := .separated_map ", " fun e _ => e.cites_sql
    exact value.cites_sql.append (.text hlist.parenthesized)
  | isNull value =>
    simpa [columns, scalars, sql] using value.cites_sql.append_ofText " IS NULL"
  | between value lower upper =>
    simpa [columns, scalars, sql] using
      value.cites_sql.append (.text (lower.cites_sql.append (.text upper.cites_sql)))
  | spatial relation left right =>
    simpa [columns, scalars, sql] using
      (left.cites_sql.append (.text right.cites_sql)).around
  | temporal test => exact test.cites_sql

end Expressions

namespace Condition

variable {α : Type} {atomSql : α → Sql} {columns : α → List (Alias × String)}

mutual
/-- The text of a condition names the columns of its atoms, from left to right. -/
theorem cites_sql : ∀ {c : Condition α}, (∀ a ∈ c.atoms, (atomSql a).Cites (columns a)) →
    (c.sql atomSql).Cites (c.atoms.flatMap columns)
  | .atom a, h => by simpa [sql, atoms] using h a List.mem_cons_self
  | .constant value, _ => .ofText _
  | .all parts, h => by
    rw [sql, atoms]
    exact (cites_listSql " AND " h).parenthesized
  | .any parts, h => by
    rw [sql, atoms]
    exact (cites_listSql " OR " h).parenthesized
  | .negation part, h => by
    rw [sql]
    exact (cites_sql (c := part) h).around

theorem cites_listSql (sep : String) : ∀ {parts : List (Condition α)},
    (∀ a ∈ atomsOfList parts, (atomSql a).Cites (columns a)) →
      (Sql.separated sep (listSql atomSql parts)).Cites ((atomsOfList parts).flatMap columns)
  | [], _ => .nil
  | [part], h => by
    rw [atomsOfList, atomsOfList, List.append_nil] at h ⊢
    exact cites_sql h
  | part :: other :: parts, h => by
    obtain ⟨hpart, hrest⟩ := List.forall_mem_append.1 h
    rw [atomsOfList, List.flatMap_append, listSql, listSql, Sql.separated]
    · exact (cites_sql hpart).append (.text (cites_listSql sep hrest))
    · exact List.cons_ne_nil _ _
end

end Condition

/-! ## What expressions name -/

/-- One end of a range of time. -/
def TimeRange.endOf (r : TimeRange) : RangeEnd → Scalar
  | .start => r.start
  | .stop => r.stop

@[simp] theorem TimeRange.endOf_point (moment : Scalar) (e : RangeEnd) :
    (point moment).endOf e = moment := by
  cases e <;> rfl

theorem TimeRange.columns_ofLiteral (literal : TemporalLiteral) (e : RangeEnd) :
    ((ofLiteral literal).endOf e).columns = [] := by
  cases e with
  | start => cases h : literal.range.start <;> simp [ofLiteral, endOf, h, startOf, Scalar.columns]
  | stop => cases h : literal.range.stop <;> simp [ofLiteral, endOf, h, stopOf, Scalar.columns]

/-- The test that a relation stands for names the columns of the ends that the relation compares. -/
theorem TimeTest.columns_relate (hasOverlaps : Bool) (relation : TemporalRelation)
    (l r : TimeRange) : (relate hasOverlaps relation l r).scalars.flatMap Scalar.columns =
      relation.arranged hasOverlaps (fun e => (l.endOf e).columns)
        fun e => (r.endOf e).columns := by
  cases relation with
  | after => simp [relate, endsBefore, scalars, TemporalRelation.arranged, TimeRange.endOf]
  | before => simp [relate, endsBefore, scalars, TemporalRelation.arranged, TimeRange.endOf]
  | during =>
    have hends : (endsWithin l r).scalars = [l.stop, r.stop] := by
      rw [endsWithin]
      split <;> rfl
    simp [relate, scalars, hends, TemporalRelation.arranged, TimeRange.endOf]
  | disjoint => simp [relate, meets, reaches, scalars, TemporalRelation.arranged, TimeRange.endOf]
  | equals => simp [relate, scalars, TemporalRelation.arranged, TimeRange.endOf]
  | intersects =>
    cases hasOverlaps with
    | true => simp [relate, scalars, TemporalRelation.arranged, TimeRange.endOf]
    | false => simp [relate, meets, reaches, scalars, TemporalRelation.arranged, TimeRange.endOf]

theorem TemporalRelation.forall₂_arranged {α β : Type} {R : α → β → Prop} (hasOverlaps : Bool)
    (relation : TemporalRelation) {l r : RangeEnd → List α} {l' r' : RangeEnd → List β}
    (hl : ∀ e, List.Forall₂ R (l e) (l' e)) (hr : ∀ e, List.Forall₂ R (r e) (r' e)) :
    List.Forall₂ R (relation.arranged hasOverlaps l r) (relation.arranged hasOverlaps l' r') := by
  cases relation with
  | after => exact List.rel_append (hr .stop) (hl .start)
  | before => exact List.rel_append (hl .stop) (hr .start)
  | during =>
    exact List.rel_append (List.rel_append (hl .start) (hr .start))
      (List.rel_append (hl .stop) (hr .stop))
  | equals =>
    exact List.rel_append (List.rel_append (hl .start) (hr .start))
      (List.rel_append (hl .stop) (hr .stop))
  | disjoint =>
    exact List.rel_append (List.rel_append (hr .start) (hl .stop))
      (List.rel_append (hl .start) (hr .stop))
  | intersects =>
    cases hasOverlaps with
    | true =>
      exact List.rel_append (List.rel_append (hl .start) (hl .stop))
        (List.rel_append (hr .start) (hr .stop))
    | false =>
      exact List.rel_append (List.rel_append (hr .start) (hl .stop))
        (List.rel_append (hl .start) (hr .stop))

theorem Predicate.IsTimeless.reads_eq {p : Predicate} (h : p.IsTimeless) (hasOverlaps : Bool) :
    p.reads hasOverlaps = p.operands.flatMap Operand.reads := by
  cases p with
  | temporal relation left right => exact absurd rfl (h relation left right)
  | _ => rfl

namespace Storage

section Scoped

variable {s : Storage} {tables : List (String × Alias)} {R : String → Alias × String → Prop}

/-- Every column that a property is read from in a scope is related to it. -/
def ReadsBy (s : Storage) (tables : List (String × Alias)) (R : String → Alias × String → Prop) :
    Prop :=
  ∀ property e, s.column (.feature tables) property = .ok e → List.Forall₂ R [property] e.columns

/-- A function names the columns of its first argument. -/
theorem forall₂_columns_applyFunction {function : ScalarFunction} {args : List Operand}
    (hargs : ∀ arg ∈ args.head?, ∀ e, s.scalar (.feature tables) arg = .ok e →
      List.Forall₂ R arg.reads e.columns) {e : Scalar}
    (h : s.applyFunction (.feature tables) function (s.firstScalar (.feature tables) args) =
      .ok e) : List.Forall₂ R (Operand.readsOfFirst args) e.columns := by
  rcases applyFunction_eq_ok h with ⟨-, hposition⟩ | ⟨-, arg, rest, rfl, hcases⟩
  · simp [rowPosition] at hposition
  · rcases hcases with ⟨text, rfl, rfl⟩ | ⟨inner, hinner, rfl | rfl | ⟨collation, -, rfl⟩⟩
    · exact .nil
    · exact hargs arg rfl inner hinner
    · exact hargs arg rfl inner hinner
    · exact hargs arg rfl inner hinner

variable (hreads : s.ReadsBy tables R)

include hreads

mutual
/-- The expression of an operand names the columns of the properties that the operand reads. -/
theorem forall₂_columns_scalar : ∀ {o : Operand} {e : Scalar},
    s.scalar (.feature tables) o = .ok e → List.Forall₂ R o.reads e.columns
  | .property name, e, h => hreads name e h
  | .literal value, e, h => by
    obtain rfl := Except.ok.inj h
    exact .nil
  | .geometry value, e, h => by
    obtain rfl := Except.ok.inj h
    exact .nil
  | .temporal (.instant value), e, h => by
    obtain rfl := Except.ok.inj h
    exact .nil
  | .temporal (.date value), e, h => by
    obtain rfl := Except.ok.inj h
    exact .nil
  | .temporal (.interval start stop), e, h => by
    -- both ends are moments of the literal, open ones the first or the last of all
    obtain rfl := Except.ok.inj h
    have hstart : (TimeRange.ofLiteral (.interval start stop)).start.columns = [] :=
      TimeRange.columns_ofLiteral _ .start
    have hstop : (TimeRange.ofLiteral (.interval start stop)).stop.columns = [] :=
      TimeRange.columns_ofLiteral _ .stop
    rw [TimeRange.toScalar, Scalar.columns, hstart, hstop]
    exact .nil
  | .interval start stop, e, h => by
    obtain ⟨first, hfirst, h⟩ := bind_eq_ok.1 h
    obtain ⟨last, hlast, h⟩ := bind_eq_ok.1 h
    obtain rfl := pure_eq_ok.1 h
    exact List.rel_append (forall₂_columns_timeRange hfirst .start)
      (forall₂_columns_timeRange hlast .stop)
  | .array values, e, h => by
    obtain rfl := Except.ok.inj h
    exact .nil
  | .apply function [], e, h => forall₂_columns_applyFunction (by simp) h
  | .apply function (arg :: rest), e, h => by
    have harg : ∀ inner, s.scalar (.feature tables) arg = .ok inner →
        List.Forall₂ R arg.reads inner.columns := fun inner => forall₂_columns_scalar
    exact forall₂_columns_applyFunction (by simpa using harg) h

/-- Each end of the range of an operand names the columns of the properties that the operand reads
there. -/
theorem forall₂_columns_timeRange : ∀ {o : Operand} {r : TimeRange},
    s.timeRange (.feature tables) o = .ok r →
      ∀ e, List.Forall₂ R (o.readsAt e) (r.endOf e).columns
  | .property name, r, h, e => by
    obtain ⟨moment, hmoment, rfl⟩ := map_eq_ok.1 h
    rw [TimeRange.endOf_point]
    exact hreads name moment hmoment
  | .literal value, r, h, e => by simp [timeRange] at h
  | .geometry value, r, h, e => by simp [timeRange] at h
  | .temporal literal, r, h, e => by
    obtain rfl := Except.ok.inj h
    rw [TimeRange.columns_ofLiteral]
    cases e <;> exact .nil
  | .interval start stop, r, h, e => by
    obtain ⟨first, hfirst, h⟩ := bind_eq_ok.1 h
    obtain ⟨last, hlast, h⟩ := bind_eq_ok.1 h
    obtain rfl := pure_eq_ok.1 h
    cases e with
    | start => exact forall₂_columns_timeRange hfirst .start
    | stop => exact forall₂_columns_timeRange hlast .stop
  | .array values, r, h, e => by simp [timeRange] at h
  | .apply function [], r, h, e => by
    obtain ⟨moment, hmoment, rfl⟩ := map_eq_ok.1 h
    rw [TimeRange.endOf_point]
    exact forall₂_columns_applyFunction (by simp) hmoment
  | .apply function (arg :: rest), r, h, e => by
    obtain ⟨moment, hmoment, rfl⟩ := map_eq_ok.1 h
    have harg : ∀ inner, s.scalar (.feature tables) arg = .ok inner →
        List.Forall₂ R arg.reads inner.columns := fun inner => forall₂_columns_scalar
    rw [TimeRange.endOf_point]
    exact forall₂_columns_applyFunction (by simpa using harg) hmoment
end

/-- The test of a predicate names the columns of the properties that the predicate reads. -/
theorem forall₂_columns_test {negated : Bool} {p : Predicate} {t : Test}
    (h : s.test (.feature tables) negated p = .ok t) :
    List.Forall₂ R (p.reads s.dialect.hasOverlaps) t.columns := by
  rcases test_cases h with ⟨htimeless, hscalars⟩ | ⟨relation, left, right, l, r, rfl, hl, hr, rfl⟩
  · rw [htimeless.reads_eq, Test.columns]
    exact List.rel_flatMap hscalars fun _ _ hscalar => forall₂_columns_scalar hreads hscalar
  · -- both sides arrange what the ends of the two ranges read in the same way
    rw [Test.columns, Test.scalars, TimeTest.columns_relate]
    exact TemporalRelation.forall₂_arranged _ relation (forall₂_columns_timeRange hreads hl)
      (forall₂_columns_timeRange hreads hr)

end Scoped

end Storage

end FeatureStore
