import FeatureStore.Proofs.Sql.Alike
import FeatureStore.Proofs.Sql.Naming

/-!
# Predicates that differ in their texts

Two operands, predicates or filters are alike if they differ only in the contents of their text
literals. Lowering goes the same way for operands that are alike (`together_scalar`) and for
predicates (`together_test`): it fails for both, or gives tests that are written alike. What stands
between the quotes are the texts of the predicates then, in lower case where a comparison blind to
case takes a literal (`Content`).
-/

set_option autoImplicit false

namespace FeatureStore

/-! ## Filters that are alike -/

section Filters

variable (R : String → String → Prop)

/-- Two literals that differ only if they are texts, and these are related. -/
inductive Value.Alike : Value → Value → Prop
  | text {x y : String} : R x y → Alike (.text x) (.text y)
  | same {value : Value} : value.text? = none → Alike value value

/-- Two operands that differ only in texts. -/
inductive Operand.Alike : Operand → Operand → Prop
  | property (name : String) : Alike (.property name) (.property name)
  | literal {v w : Value} : v.Alike R w → Alike (.literal v) (.literal w)
  | geometry (value : Geometry) : Alike (.geometry value) (.geometry value)
  | temporal (value : TemporalLiteral) : Alike (.temporal value) (.temporal value)
  | interval {start stop start' stop' : Operand} : Alike start start' → Alike stop stop' →
    Alike (.interval start stop) (.interval start' stop')
  | array {vs ws : List Value} : List.Forall₂ (Value.Alike R) vs ws → Alike (.array vs) (.array ws)
  | apply (function : ScalarFunction) {args args' : List Operand} :
    List.Forall₂ Alike args args' → Alike (.apply function args) (.apply function args')

/-- Two predicates that differ only in texts. -/
inductive Predicate.Alike : Predicate → Predicate → Prop
  | compare (op : Comparison) {left right left' right' : Operand} : left.Alike R left' →
    right.Alike R right' → Alike (.compare op left right) (.compare op left' right')
  | like {value pattern value' pattern' : Operand} : value.Alike R value' →
    pattern.Alike R pattern' → Alike (.like value pattern) (.like value' pattern')
  | oneOf {value value' : Operand} {list list' : List Operand} : value.Alike R value' →
    List.Forall₂ (Operand.Alike R) list list' → Alike (.oneOf value list) (.oneOf value' list')
  | isNull {value value' : Operand} : value.Alike R value' → Alike (.isNull value) (.isNull value')
  | between {value lower upper value' lower' upper' : Operand} : value.Alike R value' →
    lower.Alike R lower' → upper.Alike R upper' →
      Alike (.between value lower upper) (.between value' lower' upper')
  | spatial (relation : SpatialRelation) {left right left' right' : Operand} : left.Alike R left' →
    right.Alike R right' → Alike (.spatial relation left right) (.spatial relation left' right')
  | temporal (relation : TemporalRelation) {left right left' right' : Operand} :
    left.Alike R left' → right.Alike R right' →
      Alike (.temporal relation left right) (.temporal relation left' right')

/-- Two filters that differ only in texts. -/
inductive Filter.Alike : Filter → Filter → Prop
  | all {args args' : List Filter} : List.Forall₂ Alike args args' → Alike (.all args) (.all args')
  | any {args args' : List Filter} : List.Forall₂ Alike args args' → Alike (.any args) (.any args')
  | negation {arg arg' : Filter} : Alike arg arg' → Alike (.negation arg) (.negation arg')
  | test {p q : Predicate} : p.Alike R q → Alike (.test p) (.test q)
  | array (relation : ArrayRelation) {left right left' right' : Operand} : left.Alike R left' →
    right.Alike R right' → Alike (.array relation left right) (.array relation left' right')
  | constant (value : Bool) : Alike (.constant value) (.constant value)

end Filters

namespace Operand

mutual
/-- The property that an operand is, or that the innermost of a chain of functions is applied to
first. -/
def property? : Operand → Option String
  | .property name => some name
  | .apply _ args => propertyOfFirst? args
  | _ => none

/-- The property that the first operand of a list reads. -/
def propertyOfFirst? : List Operand → Option String
  | [] => none
  | operand :: _ => operand.property?
end

/-- An array of literals. -/
def isArray : Operand → Bool
  | .array _ => true
  | _ => false

end Operand

/-- Every relation between arrays in the filter is one between a property, or functions of one, and
an array of literals. -/
def Filter.ReadsArrays (filter : Filter) : Prop :=
  ∀ relation left right, .array relation left right ∈ filter.leaves →
    left.property?.isSome ∧ right.isArray ∨ left.isArray ∧ right.property?.isSome

section Names

variable {R : String → String → Prop}

mutual
/-- Operands that are alike read the same properties. -/
theorem Operand.Alike.properties_eq : ∀ {o o' : Operand}, o.Alike R o' →
    o'.properties = o.properties
  | .property _, _, h => by cases h; rfl
  | .literal _, _, h => by cases h; rfl
  | .geometry _, _, h => by cases h; rfl
  | .temporal _, _, h => by cases h; rfl
  | .interval start stop, _, h => by
    cases h with
    | interval hstart hstop =>
      rw [Operand.properties, Operand.properties, hstart.properties_eq, hstop.properties_eq]
  | .array _, _, h => by cases h; rfl
  | .apply function args, _, h => by
    cases h with
    | apply _ hargs =>
      rw [Operand.properties, Operand.properties]
      exact propertiesOfList_eq hargs

theorem propertiesOfList_eq : ∀ {os os' : List Operand}, List.Forall₂ (Operand.Alike R) os os' →
    Operand.propertiesOfList os' = Operand.propertiesOfList os
  | [], _, h => by cases h; rfl
  | o :: os, _, h => by
    cases h with
    | cons ho hos =>
      rw [Operand.propertiesOfList, Operand.propertiesOfList, ho.properties_eq,
        propertiesOfList_eq hos]
end

mutual
theorem Operand.Alike.property?_eq : ∀ {o o' : Operand}, o.Alike R o' →
    o'.property? = o.property?
  | .property _, _, h => by cases h; rfl
  | .literal _, _, h => by cases h; rfl
  | .geometry _, _, h => by cases h; rfl
  | .temporal _, _, h => by cases h; rfl
  | .interval _ _, _, h => by cases h; rfl
  | .array _, _, h => by cases h; rfl
  | .apply function args, _, h => by
    cases h with
    | apply _ hargs =>
      rw [Operand.property?, Operand.property?]
      exact propertyOfFirst?_eq hargs

theorem propertyOfFirst?_eq : ∀ {os os' : List Operand}, List.Forall₂ (Operand.Alike R) os os' →
    Operand.propertyOfFirst? os' = Operand.propertyOfFirst? os
  | [], _, h => by cases h; rfl
  | o :: os, _, h => by
    cases h with
    | cons ho hos => exact ho.property?_eq
end

mutual
/-- A message calls an operand by the property that it reads. -/
theorem Operand.subject_eq : ∀ {o : Operand} {name : String}, o.property? = some name →
    o.subject = name
  | .property _, _, h => Option.some.inj h
  | .apply _ args, _, h => subjectOfFirst_eq h
  | .literal _, _, h => by simp [Operand.property?] at h
  | .geometry _, _, h => by simp [Operand.property?] at h
  | .temporal _, _, h => by simp [Operand.property?] at h
  | .interval _ _, _, h => by simp [Operand.property?] at h
  | .array _, _, h => by simp [Operand.property?] at h

theorem subjectOfFirst_eq : ∀ {os : List Operand} {name : String},
    Operand.propertyOfFirst? os = some name → Operand.subjectOfFirst os = name
  | [], _, h => by simp [Operand.propertyOfFirst?] at h
  | o :: _, _, h => Operand.subject_eq h
end

theorem Predicate.Alike.operands {p q : Predicate} (h : p.Alike R q) :
    List.Forall₂ (Operand.Alike R) p.operands q.operands := by
  cases h with
  | compare _ hleft hright => exact .cons hleft (.cons hright .nil)
  | like hvalue hpattern => exact .cons hvalue (.cons hpattern .nil)
  | oneOf hvalue hlist => exact .cons hvalue hlist
  | isNull hvalue => exact .cons hvalue .nil
  | between hvalue hlower hupper => exact .cons hvalue (.cons hlower (.cons hupper .nil))
  | spatial _ hleft hright => exact .cons hleft (.cons hright .nil)
  | temporal _ hleft hright => exact .cons hleft (.cons hright .nil)

end Names

/-! ## Literals -/

/-- The contents of two quoted texts: texts of the filters, such texts in lower case, or the one text
that a literal of another kind is written as. -/
inductive Content (R : String → String → Prop) : String → String → Prop
  | text {x y : String} : R x y → Content R x y
  | lowered {x y : String} : R x y → Content R (lowercase x) (lowercase y)
  | instant (value : Instant) : Content R value.text value.text
  | date (value : Date) : Content R value.text value.text
  | geometry (value : Geometry) : Content R value.wellKnown value.wellKnown
  | earliest (dialect : Dialect) : Content R dialect.earliest dialect.earliest
  | latest (dialect : Dialect) : Content R dialect.latest dialect.latest

section Literals

variable {R C : String → String → Prop} {x y : String}

theorem Dialect.alike_timeLiteral (dialect : Dialect) (h : C x y) :
    Sql.Alike C (dialect.timeLiteral (.quoted x)) (dialect.timeLiteral (.quoted y)) := by
  cases dialect with
  | postgis => exact .cons (Piece.isPlain_text (by decide)) (.quoted h)
  | geopackage => exact .around (.quoted h) (by decide) (by decide)

theorem Dialect.alike_dateLiteral (dialect : Dialect) (h : C x y) :
    Sql.Alike C (dialect.dateLiteral (.quoted x)) (dialect.dateLiteral (.quoted y)) := by
  cases dialect with
  | postgis => exact .cons (Piece.isPlain_text (by decide)) (.quoted h)
  | geopackage => exact .around (.quoted h) (by decide) (by decide)

theorem Dialect.alike_geometryLiteral (srid : Nat) (h : C x y) :
    Sql.Alike C (Dialect.geometryLiteral (.quoted x) srid)
      (Dialect.geometryLiteral (.quoted y) srid) := by
  have hsrid : IsPlainText ("," ++ toString srid ++ ")").toList := by
    rw [String.toList_append, String.toList_append]
    exact .append (.append (by decide) (isPlainText_natText srid).2) (by decide)
  exact .cons (Piece.isPlain_text (by decide)) (.concat (.quoted h) (Piece.isPlain_text hsrid))

theorem Dialect.alike_castText (dialect : Dialect) {a b : Sql} (h : Sql.Alike C a b) :
    Sql.Alike C (dialect.castText a) (dialect.castText b) := by
  cases dialect with
  | postgis => exact h.concat (Piece.isPlain_text (by decide))
  | geopackage => exact h.around (by decide) (by decide)

theorem Value.Alike.sql {v w : Value} (h : v.Alike R w) :
    Sql.Alike (Content R) [v.sql] [w.sql] := by
  cases h with
  | text h => exact .quoted (.text h)
  | same h =>
    cases v with
    | null => exact .piece (Piece.isPlain_text (by decide))
    | bool b => exact .piece (Piece.isPlain_text (by cases b <;> decide))
    | int n => exact .piece (Piece.isPlain_text (isPlainText_intText _))
    | float x => exact .piece (Piece.isPlain_text (isPlainText_plainText x))
    | text s => simp [Value.text?] at h

theorem alike_listSql {vs ws : List Value} (h : List.Forall₂ (Value.Alike R) vs ws) :
    Sql.Alike (Content R) (Value.listSql vs) (Value.listSql ws) := by
  refine .parenthesized (.separated (by decide) ?_)
  rw [List.forall₂_map_left_iff, List.forall₂_map_right_iff]
  exact h.imp fun _ _ hvw => hvw.sql

end Literals

/-! ## Expressions -/

section Expressions

variable {s : Storage} {R : String → String → Prop} {tables : List (String × Alias)}

/-- Two expressions are written alike. -/
def Scalar.Alike (s : Storage) (R : String → String → Prop) (e e' : Scalar) : Prop :=
  Sql.Alike (Content R) (e.sql s.dialect s.srid) (e'.sql s.dialect s.srid)

/-- Two ranges of time with ends that are written alike. -/
structure TimeRange.Alike (s : Storage) (R : String → String → Prop) (r r' : TimeRange) : Prop where
  start : r.start.Alike s R r'.start
  stop : r.stop.Alike s R r'.stop
  exclusive : r'.exclusive = r.exclusive

theorem Scalar.Alike.upper {e e' : Scalar} (h : e.Alike s R e') :
    Scalar.Alike s R (.upper e) (.upper e') := h.around (by decide) (by decide)

theorem Scalar.Alike.lower {e e' : Scalar} (h : e.Alike s R e') :
    Scalar.Alike s R (.lower e) (.lower e') := h.around (by decide) (by decide)

theorem Scalar.Alike.collated {e e' : Scalar} (h : e.Alike s R e') {collation : String}
    (hcollation : '"' ∉ collation.toList) :
    Scalar.Alike s R (.collated e collation) (.collated e' collation) := by
  have htext : (" COLLATE \"" ++ collation ++ "\"").toList =
      " COLLATE ".toList ++ ('"' :: collation.toList ++ ['"']) := by
    simp [String.toList_append]
  refine h.concat (Piece.isPlain_text ?_)
  rw [htext]
  exact .append (by decide) (isUnquoted_doubleQuoted hcollation)

theorem Scalar.Alike.period {r r' : TimeRange} (h : r.Alike s R r') :
    Scalar.Alike s R r.toScalar r'.toScalar :=
  .parenthesized (.join h.start (Piece.isPlain_text (by decide)) h.stop)

theorem TimeRange.Alike.point {e e' : Scalar} (h : e.Alike s R e') :
    TimeRange.Alike s R (.point e) (.point e') := ⟨h, h, rfl⟩

theorem TimeRange.Alike.spanning {r r' q q' : TimeRange} (hr : r.Alike s R r')
    (hq : q.Alike s R q') : TimeRange.Alike s R (r.spanning q) (r'.spanning q') :=
  ⟨hr.start, hq.stop, hq.exclusive⟩

/-- A literal range is written in one way. -/
theorem TimeRange.alike_ofLiteral (literal : TemporalLiteral) :
    TimeRange.Alike s R (ofLiteral literal) (ofLiteral literal) := by
  refine ⟨?_, ?_, rfl⟩
  · cases h : literal.range.start with
    | unbounded =>
      simp only [ofLiteral, h]
      exact s.dialect.alike_timeLiteral (.earliest _)
    | instant t =>
      simp only [ofLiteral, h]
      exact s.dialect.alike_timeLiteral (.instant t)
    | date d =>
      simp only [ofLiteral, h]
      exact s.dialect.alike_dateLiteral (.date d)
  · cases h : literal.range.stop with
    | unbounded =>
      simp only [ofLiteral, h]
      exact s.dialect.alike_timeLiteral (.latest _)
    | instant t =>
      simp only [ofLiteral, h]
      exact s.dialect.alike_timeLiteral (.instant t)
    | date d =>
      simp only [ofLiteral, h]
      exact s.dialect.alike_dateLiteral (.date d)

/-- A property is read from the same column for both. -/
theorem together_column {property : String} (hnames : s.NamesColumn (.feature tables) property) :
    Together (Scalar.Alike s R) (s.column (.feature tables) property)
      (s.column (.feature tables) property) := by
  cases hcolumn : s.column (.feature tables) property with
  | error e => exact .error e e
  | ok e =>
    have hcall := hnames e hcolumn
    obtain ⟨⟨table, name⟩, -, he⟩ := bind_eq_ok.1 hcolumn
    dsimp only at he
    split at he
    · obtain rfl := pure_eq_ok.1 he
      exact .ok (.column hcall.1 hcall.2)
    · exact absurd he throw_ne_ok

/-- A function of operands that go together goes together as well. -/
theorem together_applyFunction (hrows : s.NamesRows (.feature tables)) (function : ScalarFunction)
    {args args' : List Operand}
    (h : List.Forall₂ (fun o o' => o.Alike R o' ∧
      Together (Scalar.Alike s R) (s.scalar (.feature tables) o) (s.scalar (.feature tables) o'))
        args args') :
    Together (Scalar.Alike s R)
      (s.applyFunction (.feature tables) function (s.firstScalar (.feature tables) args))
      (s.applyFunction (.feature tables) function (s.firstScalar (.feature tables) args')) := by
  cases h with
  | nil =>
    rw [Storage.firstScalar]
    cases function <;> exact .error _ _
  | @cons o o' os os' hfirst hrest =>
    obtain ⟨halike, hscalar⟩ := hfirst
    rw [Storage.firstScalar, Storage.firstScalar]
    cases function with
    | position => exact .error _ _
    | upper => exact hscalar.map fun _ _ h => h.upper
    | lower => exact hscalar.map fun _ _ h => h.lower
    | caseInsensitive =>
      -- only here is the operand itself looked at: a text is lowered in advance
      have hlower := hscalar.map fun _ _ h => h.lower
      cases halike with
      | @literal v _ hvalue =>
        cases hvalue with
        | text hxy => exact .ok (.quoted (.lowered hxy))
        | same hvalue =>
          cases v with
          | text x => simp [Value.text?] at hvalue
          | _ => exact hlower
      | _ => exact hlower
    | accentInsensitive =>
      simp only [Storage.applyFunction]
      cases hcollation : s.collation with
      | none => exact .error _ _
      | some collation =>
        exact hscalar.map fun _ _ h => h.collated (hrows.collation collation hcollation)

mutual
/-- Operands that are alike have no expression, or expressions that are written alike. -/
theorem together_scalar (hnames : ∀ property, s.NamesColumn (.feature tables) property)
    (hrows : s.NamesRows (.feature tables)) : ∀ {o o' : Operand}, o.Alike R o' →
      Together (Scalar.Alike s R) (s.scalar (.feature tables) o) (s.scalar (.feature tables) o')
  | .property name, _, h => by
    cases h
    exact together_column (hnames name)
  | .literal v, _, h => by
    cases h with
    | literal hvalue => exact .ok hvalue.sql
  | .geometry value, _, h => by
    cases h
    exact .ok (Dialect.alike_geometryLiteral s.srid (.geometry _))
  | .temporal value, _, h => by
    cases h
    cases value with
    | instant t => exact .ok (s.dialect.alike_timeLiteral (.instant t))
    | date d => exact .ok (s.dialect.alike_dateLiteral (.date d))
    | interval start stop => exact .ok (Scalar.Alike.period (TimeRange.alike_ofLiteral _))
  | .interval start stop, _, h => by
    cases h with
    | interval hstart hstop =>
      refine (together_timeRange hnames hrows hstart).bind fun r r' hr => ?_
      refine (together_timeRange hnames hrows hstop).bind fun q q' hq => ?_
      exact .ok (Scalar.Alike.period (hr.spanning hq))
  | .array vs, _, h => by
    cases h with
    | array hvalues => exact .ok (alike_listSql hvalues)
  | .apply function args, _, h => by
    cases h with
    | apply _ hargs => exact together_applyFunction hrows function (together_args hnames hrows hargs)

/-- Operands that are alike have no range of time, or ranges with ends that are written alike. -/
theorem together_timeRange (hnames : ∀ property, s.NamesColumn (.feature tables) property)
    (hrows : s.NamesRows (.feature tables)) : ∀ {o o' : Operand}, o.Alike R o' →
      Together (TimeRange.Alike s R) (s.timeRange (.feature tables) o)
        (s.timeRange (.feature tables) o')
  | .property name, _, h => by
    cases h
    exact (together_column (hnames name)).map fun _ _ h => .point h
  | .literal v, _, h => by
    cases h
    exact .error _ _
  | .geometry value, _, h => by
    cases h
    exact .error _ _
  | .temporal value, _, h => by
    cases h
    exact .ok (TimeRange.alike_ofLiteral value)
  | .interval start stop, _, h => by
    cases h with
    | interval hstart hstop =>
      refine (together_timeRange hnames hrows hstart).bind fun r r' hr => ?_
      refine (together_timeRange hnames hrows hstop).bind fun q q' hq => ?_
      exact .ok (hr.spanning hq)
  | .array vs, _, h => by
    cases h
    exact .error _ _
  | .apply function args, _, h => by
    cases h with
    | apply _ hargs =>
      have happly := together_applyFunction hrows function (together_args hnames hrows hargs)
      exact happly.map fun _ _ h => .point h

theorem together_args (hnames : ∀ property, s.NamesColumn (.feature tables) property)
    (hrows : s.NamesRows (.feature tables)) : ∀ {args args' : List Operand},
      List.Forall₂ (Operand.Alike R) args args' →
        List.Forall₂ (fun o o' => o.Alike R o' ∧
          Together (Scalar.Alike s R) (s.scalar (.feature tables) o)
            (s.scalar (.feature tables) o')) args args'
  | [], _, h => by
    cases h
    exact .nil
  | arg :: rest, _, h => by
    cases h with
    | cons harg hrest =>
      exact .cons ⟨harg, together_scalar hnames hrows harg⟩ (together_args hnames hrows hrest)
end

end Expressions

/-! ## Tests -/

section Tests

variable {s : Storage} {R : String → String → Prop} {tables : List (String × Alias)}

/-- Two tests are written alike. -/
def Test.Alike (s : Storage) (R : String → String → Prop) (t t' : Test) : Prop :=
  Sql.Alike (Content R) (s.testSql t) (s.testSql t')

/-- Two tests on moments are written alike. -/
def TimeTest.Alike (s : Storage) (R : String → String → Prop) (t t' : TimeTest) : Prop :=
  Sql.Alike (Content R) (t.sql s.dialect s.srid) (t'.sql s.dialect s.srid)

theorem isPlainText_symbol (op : Comparison) : IsPlainText (" " ++ op.symbol ++ " ").toList := by
  cases op <;> decide

theorem TimeTest.alike_compare (op : Comparison) {e e' f f' : Scalar} (he : e.Alike s R e')
    (hf : f.Alike s R f') : TimeTest.Alike s R (.compare op e f) (.compare op e' f') :=
  .join he (Piece.isPlain_text (isPlainText_symbol op)) hf

theorem TimeTest.Alike.both {t t' u u' : TimeTest} (ht : t.Alike s R t') (hu : u.Alike s R u') :
    TimeTest.Alike s R (.both t u) (.both t' u') :=
  .join ht (Piece.isPlain_text (by decide)) hu

theorem TimeTest.Alike.negation {t t' : TimeTest} (ht : t.Alike s R t') :
    TimeTest.Alike s R (.negation t) (.negation t') := .around ht (by decide) (by decide)

theorem TimeTest.alike_overlaps {l l' r r' : TimeRange} (hl : l.Alike s R l')
    (hr : r.Alike s R r') : TimeTest.Alike s R (.overlaps l r) (.overlaps l' r') := by
  have hcomma : (Piece.text ", ").IsPlain := Piece.isPlain_text (by decide)
  exact .join (.parenthesized (.join hl.start hcomma hl.stop)) (Piece.isPlain_text (by decide))
    (.parenthesized (.join hr.start hcomma hr.stop))

theorem TimeTest.alike_reaches {r r' : TimeRange} (hr : r.Alike s R r') {e e' : Scalar}
    (he : e.Alike s R e') : TimeTest.Alike s R (reaches r e) (reaches r' e') := by
  rw [reaches, reaches, hr.exclusive]
  exact alike_compare _ he hr.stop

theorem TimeTest.alike_meets {l l' r r' : TimeRange} (hl : l.Alike s R l') (hr : r.Alike s R r') :
    TimeTest.Alike s R (meets l r) (meets l' r') :=
  (alike_reaches hl hr.start).both (alike_reaches hr hl.start)

theorem TimeTest.alike_endsBefore {r r' : TimeRange} (hr : r.Alike s R r') {e e' : Scalar}
    (he : e.Alike s R e') : TimeTest.Alike s R (endsBefore r e) (endsBefore r' e') := by
  rw [endsBefore, endsBefore, hr.exclusive]
  exact alike_compare _ hr.stop he

/-- What a relation compares depends on the kinds of the ranges alone. -/
theorem TimeTest.alike_relate (hasOverlaps : Bool) (relation : TemporalRelation)
    {l l' r r' : TimeRange} (hl : l.Alike s R l') (hr : r.Alike s R r') :
    TimeTest.Alike s R (relate hasOverlaps relation l r) (relate hasOverlaps relation l' r') := by
  cases relation with
  | after => exact alike_endsBefore hr hl.start
  | before => exact alike_endsBefore hl hr.start
  | during =>
    refine (alike_compare .ge hl.start hr.start).both ?_
    rw [endsWithin, endsWithin, hl.exclusive]
    split
    · exact alike_compare .le hl.stop hr.stop
    · exact alike_reaches hr hl.stop
  | disjoint => exact (alike_meets hl hr).negation
  | equals =>
    refine (alike_compare .eq hl.start hr.start).both ?_
    rw [hl.exclusive, hr.exclusive]
    exact alike_compare _ hl.stop hr.stop
  | intersects =>
    cases hasOverlaps with
    | false => exact alike_meets hl hr
    | true => exact alike_overlaps hl hr

/-- Predicates that are alike have no test, or tests that are written alike. -/
theorem together_test (hnames : ∀ property, s.NamesColumn (.feature tables) property)
    (hrows : s.NamesRows (.feature tables)) (negated : Bool) {p q : Predicate} (h : p.Alike R q) :
    Together (Test.Alike s R) (s.test (.feature tables) negated p)
      (s.test (.feature tables) negated q) := by
  have hscalar : ∀ {o o' : Operand}, o.Alike R o' → Together (Scalar.Alike s R)
      (s.scalar (.feature tables) o) (s.scalar (.feature tables) o') := together_scalar hnames hrows
  cases h with
  | compare op hleft hright =>
    refine (hscalar hleft).bind fun e e' he => (hscalar hright).bind fun f f' hf => .ok ?_
    exact .join he (Piece.isPlain_text (isPlainText_symbol op)) hf
  | like hvalue hpattern =>
    refine (hscalar hvalue).bind fun e e' he => (hscalar hpattern).bind fun f f' hf => .ok ?_
    exact .join (s.dialect.alike_castText he) (Piece.isPlain_text (by decide)) hf
  | oneOf hvalue hlist =>
    refine (Together.mapM (fun _ _ h => hscalar h) hlist).bind fun es es' hes => ?_
    refine (hscalar hvalue).bind fun e e' he => .ok ?_
    have hword : IsPlainText (if negated then " NOT IN " else " IN ").toList := by
      cases negated <;> decide
    refine .join he (Piece.isPlain_text hword) (.parenthesized (.separated (by decide) ?_))
    rw [List.forall₂_map_left_iff, List.forall₂_map_right_iff]
    exact hes
  | isNull hvalue =>
    exact (hscalar hvalue).bind fun e e' he => .ok (.concat he (Piece.isPlain_text (by decide)))
  | between hvalue hlower hupper =>
    refine (hscalar hvalue).bind fun e e' he => ?_
    refine (hscalar hlower).bind fun f f' hf => (hscalar hupper).bind fun g g' hg => .ok ?_
    exact .join (.join he (Piece.isPlain_text (by decide)) hf) (Piece.isPlain_text (by decide)) hg
  | spatial relation hleft hright =>
    refine (hscalar hleft).bind fun e e' he => (hscalar hright).bind fun f f' hf => .ok ?_
    have hfunction : IsPlainText (Dialect.spatialFunction relation ++ "(").toList := by
      cases relation <;> decide
    exact .around (.join he (Piece.isPlain_text (by decide)) hf) hfunction (by decide)
  | temporal relation hleft hright =>
    refine (together_timeRange hnames hrows hleft).bind fun l l' hl => ?_
    refine (together_timeRange hnames hrows hright).bind fun r r' hr => .ok ?_
    exact TimeTest.alike_relate _ relation hl hr

end Tests

end FeatureStore
