import FeatureStore.Proofs.Sql.RowNumbers

/-!
# Renamed tables

What becomes of an expression, a test and a join when the tables that it reads get other aliases
(`Scalar.rename`, `Test.rename`, `Join.rename`). Renaming goes through to the text
(`Test.rename_sql`), and lowering goes through it: in a scope with other aliases an operand has the
same expression with these, or fails with the same error (`Storage.scalar_rename`), and so has a
predicate its test (`Storage.test_rename`) and a chain of relations its joins
(`Storage.joins_rename`). No alias is compared with another one on the way, so that different tables
may even get the same alias.
-/

set_option autoImplicit false

namespace FeatureStore

variable (f : Alias → Alias)

/-! ## Texts -/

/-- A piece with its alias renamed. -/
def Piece.rename : Piece → Piece
  | .alias name => .alias (f name)
  | piece => piece

namespace Sql

/-- A text with all aliases renamed. -/
def rename (sql : Sql) : Sql := sql.map (Piece.rename f)

@[simp] theorem rename_nil : rename f [] = [] := rfl

@[simp] theorem rename_cons (piece : Piece) (sql : Sql) :
    rename f (piece :: sql) = piece.rename f :: rename f sql := rfl

@[simp] theorem rename_append (a b : Sql) : rename f (a ++ b) = rename f a ++ rename f b :=
  List.map_append

@[simp] theorem rename_text (text : String) : (Piece.text text).rename f = .text text := rfl

@[simp] theorem rename_quoted (text : String) : (Piece.quoted text).rename f = .quoted text := rfl

@[simp] theorem rename_alias (name : Alias) : (Piece.alias name).rename f = .alias (f name) := rfl

@[simp] theorem rename_value (value : Value) : value.sql.rename f = value.sql := by
  cases value <;> rfl

@[simp] theorem rename_ofText (text : String) : rename f (ofText text) = ofText text := rfl

@[simp] theorem rename_column (table : Alias) (name : String) :
    rename f (column table name) = column (f table) name := rfl

@[simp] theorem rename_around (before behind : String) (sql : Sql) :
    rename f (around before sql behind) = around before (rename f sql) behind := by
  simp [around]

@[simp] theorem rename_parenthesized (sql : Sql) :
    rename f (parenthesized sql) = parenthesized (rename f sql) := rename_around f _ _ sql

@[simp] theorem rename_separated (sep : String) (parts : List Sql) :
    rename f (separated sep parts) = separated sep (parts.map (rename f)) := by
  induction parts with
  | nil => rfl
  | cons part parts ih =>
    cases parts with
    | nil => rfl
    | cons other parts =>
      rw [separated_cons_cons, rename_append, rename_cons, ih]
      rfl

end Sql

/-! ## Expressions and tests -/

/-- An expression on renamed tables. -/
def Scalar.rename : Scalar → Scalar
  | .column table name => .column (f table) name
  | .position table => .position (f table)
  | .period start stop => .period start.rename stop.rename
  | .upper arg => .upper arg.rename
  | .lower arg => .lower arg.rename
  | .collated arg collation => .collated arg.rename collation
  | .literal value => .literal value
  | .geometry value => .geometry value
  | .instant value => .instant value
  | .date value => .date value
  | .earliest => .earliest
  | .latest => .latest
  | .list values => .list values

/-- A range of time with ends on renamed tables. -/
def TimeRange.rename (r : TimeRange) : TimeRange := ⟨r.start.rename f, r.stop.rename f, r.exclusive⟩

/-- A test on moments of renamed tables. -/
def TimeTest.rename : TimeTest → TimeTest
  | .compare op left right => .compare op (left.rename f) (right.rename f)
  | .both first second => .both first.rename second.rename
  | .negation test => .negation test.rename
  | .overlaps left right => .overlaps (left.rename f) (right.rename f)

/-- A test on the rows of renamed tables. -/
def Test.rename : Test → Test
  | .compare op left right => .compare op (left.rename f) (right.rename f)
  | .like value pattern => .like (value.rename f) (pattern.rename f)
  | .oneOf value list negated => .oneOf (value.rename f) (list.map (Scalar.rename f)) negated
  | .isNull value => .isNull (value.rename f)
  | .between value lower upper => .between (value.rename f) (lower.rename f) (upper.rename f)
  | .spatial relation left right => .spatial relation (left.rename f) (right.rename f)
  | .temporal test => .temporal (test.rename f)

section Texts

variable (dialect : Dialect) (srid : Nat)

@[simp] theorem rename_timeLiteral (text : String) :
    Sql.rename f (dialect.timeLiteral (.quoted text)) = dialect.timeLiteral (.quoted text) := by
  cases dialect <;> rfl

@[simp] theorem rename_dateLiteral (text : String) :
    Sql.rename f (dialect.dateLiteral (.quoted text)) = dialect.dateLiteral (.quoted text) := by
  cases dialect <;> rfl

@[simp] theorem rename_castText (sql : Sql) :
    Sql.rename f (dialect.castText sql) = dialect.castText (Sql.rename f sql) := by
  cases dialect <;> simp [Dialect.castText]

@[simp] theorem rename_listSql (values : List Value) :
    Sql.rename f (Value.listSql values) = Value.listSql values := by
  rw [Value.listSql, Sql.rename_parenthesized, Sql.rename_separated, List.map_map]
  congr 2
  exact List.map_congr_left fun value _ => by simp

/-- The text of an expression on renamed tables. -/
theorem Scalar.rename_sql (e : Scalar) :
    (e.rename f).sql dialect srid = Sql.rename f (e.sql dialect srid) := by
  induction e with
  | column table name => rfl
  | position table => rfl
  | literal value => simp [rename, sql]
  | geometry value => simp [rename, sql, Dialect.geometryLiteral]
  | instant value => simp [rename, sql]
  | date value => simp [rename, sql]
  | earliest => simp [rename, sql]
  | latest => simp [rename, sql]
  | period start stop ihstart ihstop => simp [rename, sql, ihstart, ihstop]
  | list values => simp [rename, sql]
  | upper arg ih => simp [rename, sql, ih]
  | lower arg ih => simp [rename, sql, ih]
  | collated arg collation ih => simp [rename, sql, ih]

theorem TimeTest.rename_sql (t : TimeTest) :
    (t.rename f).sql dialect srid = Sql.rename f (t.sql dialect srid) := by
  induction t with
  | compare op left right => simp [rename, sql, Scalar.rename_sql]
  | both first second ihfirst ihsecond => simp [rename, sql, ihfirst, ihsecond]
  | negation test ih => simp [rename, sql, ih]
  | overlaps left right => simp [rename, sql, TimeRange.rename, Scalar.rename_sql]

/-- The text of a test on renamed tables. -/
theorem Test.rename_sql (t : Test) :
    (t.rename f).sql dialect srid = Sql.rename f (t.sql dialect srid) := by
  cases t with
  | oneOf value list negated =>
    have hlist : (list.map (Scalar.rename f)).map (Scalar.sql dialect srid) =
        (list.map (Scalar.sql dialect srid)).map (Sql.rename f) := by
      rw [List.map_map, List.map_map]
      exact List.map_congr_left fun e _ => e.rename_sql f dialect srid
    simp only [rename, sql, Scalar.rename_sql, Sql.rename_append, Sql.rename_cons,
      Sql.rename_text, Sql.rename_parenthesized, Sql.rename_separated, hlist]
  | temporal test => exact test.rename_sql f dialect srid
  | _ => simp [rename, sql, Scalar.rename_sql]

end Texts

/-- A relation between two ranges compares the same ends. -/
theorem TimeTest.relate_rename (hasOverlaps : Bool) (relation : TemporalRelation)
    (l r : TimeRange) : relate hasOverlaps relation (l.rename f) (r.rename f) =
      (relate hasOverlaps relation l r).rename f := by
  cases relation with
  | intersects => cases hasOverlaps <;> rfl
  | during =>
    obtain ⟨start, stop, exclusive⟩ := l
    cases exclusive <;> rfl
  | _ => rfl

@[simp] theorem TimeRange.rename_ofLiteral (literal : TemporalLiteral) :
    (ofLiteral literal).rename f = ofLiteral literal := by
  have hstart : ∀ bound, (startOf bound).rename f = startOf bound := by
    intro bound
    cases bound <;> rfl
  have hstop : ∀ bound, (stopOf bound).rename f = stopOf bound := by
    intro bound
    cases bound <;> rfl
  rw [ofLiteral, rename, hstart, hstop]

/-! ## Lowering -/

/-- A scope that offers the same tables under other aliases. -/
def Scope.rename : Scope → Scope
  | .feature tables => .feature (tables.map fun entry => (entry.1, f entry.2))
  | .row table => .row (f table)

/-- What is found under a key, when all values are changed. -/
theorem lookup_map_snd {α β γ : Type} [BEq α] (g : β → γ) (key : α) : ∀ entries : List (α × β),
    (entries.map fun entry => (entry.1, g entry.2)).lookup key = (entries.lookup key).map g
  | [] => rfl
  | (other, value) :: entries => by
    rw [List.map_cons, List.lookup_cons, List.lookup_cons, lookup_map_snd g key entries]
    cases key == other <;> rfl

/-- A traversal whose results are changed. -/
theorem mapM_map_right {ε α β γ : Type} (g : α → Except ε β) (h : β → γ) (l : List α) :
    l.mapM (fun a => (g a).map h) = (l.mapM g).map (List.map h) := by
  induction l with
  | nil => rfl
  | cons a l ih =>
    rw [List.mapM_cons, List.mapM_cons, ih]
    cases g a with
    | error e => rfl
    | ok b => cases l.mapM g <;> rfl

namespace Storage

variable {s : Storage} (scope : Scope)

theorem column_rename (property : String) :
    s.column (scope.rename f) property = (s.column scope property).map (Scalar.rename f) := by
  cases scope with
  | row table => rfl
  | feature tables =>
    rw [Scope.rename, column, column]
    cases s.resolve property with
    | error e => rfl
    | ok found =>
      obtain ⟨table, column⟩ := found
      simp only [bind, Except.bind, lookup_map_snd]
      cases tables.lookup table.path <;> rfl

/-- A function of an argument that goes through renaming goes through it as well. -/
theorem applyFunction_rename (function : ScalarFunction)
    (arg? : Option (Operand × Except Error Scalar)) :
    s.applyFunction (scope.rename f) function
        (arg?.map fun arg => (arg.1, arg.2.map (Scalar.rename f))) =
      (s.applyFunction scope function arg?).map (Scalar.rename f) := by
  have hposition : rowPosition (scope.rename f) = (rowPosition scope).map (Scalar.rename f) := by
    cases scope <;> rfl
  cases arg? with
  | none =>
    cases function with
    | position => exact hposition
    | _ => rfl
  | some given =>
    obtain ⟨arg, result⟩ := given
    cases function with
    | position => exact hposition
    | upper => cases result <;> rfl
    | lower => cases result <;> rfl
    | caseInsensitive =>
      -- a text is lowered at once, everything else in the statement
      cases arg with
      | literal value => cases value <;> cases result <;> rfl
      | _ => cases result <;> rfl
    | accentInsensitive =>
      simp only [applyFunction, Option.map_some]
      cases s.collation with
      | none => rfl
      | some collation => cases result <;> rfl

mutual
/-- The expression of an operand in a scope with other aliases is the same with these. -/
theorem scalar_rename : ∀ operand : Operand,
    s.scalar (scope.rename f) operand = (s.scalar scope operand).map (Scalar.rename f)
  | .property name => column_rename f scope name
  | .literal value => rfl
  | .geometry value => rfl
  | .temporal (.instant value) => rfl
  | .temporal (.date value) => rfl
  | .temporal (.interval start stop) => by
    have hends := TimeRange.rename_ofLiteral f (.interval start stop)
    exact congrArg (fun r => Except.ok (TimeRange.toScalar r)) hends.symm
  | .interval start stop => by
    rw [scalar, scalar, timeRange_rename start, timeRange_rename stop]
    cases s.timeRange scope start with
    | error e => rfl
    | ok first => cases s.timeRange scope stop <;> rfl
  | .array values => rfl
  | .apply function args => by
    rw [scalar, scalar, firstScalar_rename args, applyFunction_rename]

/-- The range of time of an operand in a scope with other aliases is the same with these. -/
theorem timeRange_rename : ∀ operand : Operand,
    s.timeRange (scope.rename f) operand = (s.timeRange scope operand).map (TimeRange.rename f)
  | .temporal literal => by
    rw [timeRange, timeRange]
    exact congrArg Except.ok (TimeRange.rename_ofLiteral f literal).symm
  | .interval start stop => by
    rw [timeRange, timeRange, timeRange_rename start, timeRange_rename stop]
    cases s.timeRange scope start with
    | error e => rfl
    | ok first => cases s.timeRange scope stop <;> rfl
  | .property name => by
    rw [timeRange, timeRange, column_rename]
    cases s.column scope name <;> rfl
  | .apply function args => by
    rw [timeRange, timeRange, firstScalar_rename args, applyFunction_rename]
    cases s.applyFunction scope function (s.firstScalar scope args) <;> rfl
  | .literal value => rfl
  | .geometry value => rfl
  | .array values => rfl

theorem firstScalar_rename : ∀ args : List Operand,
    s.firstScalar (scope.rename f) args =
      (s.firstScalar scope args).map fun arg => (arg.1, arg.2.map (Scalar.rename f))
  | [] => rfl
  | arg :: _ => by
    rw [firstScalar, firstScalar, scalar_rename arg]
    rfl
end

/-- The test of a predicate in a scope with other aliases is the same with these. -/
theorem test_rename (negated : Bool) (p : Predicate) :
    s.test (scope.rename f) negated p = (s.test scope negated p).map (Test.rename f) := by
  have hscalar : s.scalar (scope.rename f) =
      fun operand => (s.scalar scope operand).map (Scalar.rename f) :=
    funext (scalar_rename f scope)
  cases p with
  | compare op left right =>
    simp only [test, hscalar]
    cases s.scalar scope left with
    | error e => rfl
    | ok first => cases s.scalar scope right <;> rfl
  | like value pattern =>
    simp only [test, hscalar]
    cases s.scalar scope value with
    | error e => rfl
    | ok first => cases s.scalar scope pattern <;> rfl
  | oneOf value list =>
    simp only [test, hscalar, mapM_map_right]
    cases list.mapM (s.scalar scope) with
    | error e => rfl
    | ok members => cases s.scalar scope value <;> rfl
  | isNull value =>
    simp only [test, hscalar]
    cases s.scalar scope value <;> rfl
  | between value lower upper =>
    simp only [test, hscalar]
    cases s.scalar scope value with
    | error e => rfl
    | ok first =>
      cases s.scalar scope lower with
      | error e => rfl
      | ok second => cases s.scalar scope upper <;> rfl
  | spatial relation left right =>
    simp only [test, hscalar]
    cases s.scalar scope left with
    | error e => rfl
    | ok first => cases s.scalar scope right <;> rfl
  | temporal relation left right =>
    simp only [test, timeRange_rename]
    cases s.timeRange scope left with
    | error e => rfl
    | ok first =>
      cases s.timeRange scope right with
      | error e => rfl
      | ok second =>
        exact congrArg (fun t => Except.ok (Test.temporal t))
          (TimeTest.relate_rename f s.dialect.hasOverlaps relation first second)

end Storage

/-! ## Joins -/

/-- The same join of renamed tables. -/
def Join.rename (j : Join) : Join :=
  { j with
    source := ⟨j.source.table, f j.source.name, j.source.field⟩
    target := ⟨j.target.table, f j.target.name, j.target.field⟩ }

theorem Join.rename_sql (s : Storage) {j : Join} (h : j.IsPlain) :
    (j.rename f).sql s = Sql.rename f (j.sql s) := by
  have hsame : (j.rename f).filter = none := h.1
  have hnumbered : (j.rename f).isNumbered = false := h.2
  rw [sql, sql, targetSql, targetSql, h.1, h.2, hsame, hnumbered]
  simp [rename]

theorem Join.rename_listSql (s : Storage) {joins : List Join} (h : ∀ j ∈ joins, j.IsPlain) :
    Join.listSql s (joins.map (Join.rename f)) = Sql.rename f (Join.listSql s joins) := by
  rw [listSql, listSql, Sql.rename_separated, List.map_map, List.map_map]
  exact congrArg _ (List.map_congr_left fun j hj => j.rename_sql f s (h j hj))

namespace Storage

variable (s : Storage)

/-- The joins on keys along some relations are the same for other aliases. -/
theorem joins_rename (relations : List Relation) (names : List Alias) :
    s.joins .keysOnly relations (names.map f) =
      (s.joins .keysOnly relations names).map (List.map (Join.rename f)) := by
  have hfilter : ∀ r target, s.joinFilter .keysOnly r target = .ok none :=
    joinFilter_of_withFilters rfl
  induction relations generalizing names with
  | nil => rfl
  | cons r relations ih =>
    have hinner : ({ JoinOptions.keysOnly with restriction := none } : JoinOptions) =
        .keysOnly := rfl
    -- where the names run out, the joins end on both sides
    rcases names with _ | ⟨source, rest⟩
    · rfl
    cases hj : r.junction with
    | none =>
      rcases rest with _ | ⟨target, more⟩
      · simp only [List.map_cons, List.map_nil, joins, hj]
        rfl
      · have hothers := ih (target :: more)
        rw [List.map_cons] at hothers
        simp only [List.map_cons, joins, hj, hfilter, hinner, hothers]
        cases s.joins .keysOnly relations (target :: more) <;> rfl
    | some junction =>
      rcases rest with _ | ⟨middle, _ | ⟨target, more⟩⟩
      · simp only [List.map_cons, List.map_nil, joins, hj]
        rfl
      · simp only [List.map_cons, List.map_nil, joins, hj]
        rfl
      · have hothers := ih (target :: more)
        rw [List.map_cons] at hothers
        simp only [List.map_cons, joins, hj, hfilter, hinner, hothers]
        cases s.joins .keysOnly relations (target :: more) <;> rfl

/-- Joins on keys name the tables of their chain and no others. -/
theorem names_of_mem_joins {s : Storage} {relations : List Relation} {names : List Alias}
    {joins : List Join} (h : s.joins .keysOnly relations names = .ok joins) :
    ∀ j ∈ joins, j.source.name ∈ names ∧ j.target.name ∈ names := by
  classical
  -- a renaming that keeps exactly these aliases keeps the joins
  let other (name : Alias) : Alias := if name = .named "" then .slot 0 0 else .named ""
  let keep (name : Alias) : Alias := if name ∈ names then name else other name
  have hother : ∀ name, other name ≠ name := by
    intro name
    by_cases hname : name = .named ""
    · simp [other, hname]
    · simpa [other, hname] using Ne.symm hname
  have hkeep : ∀ name, keep name = name → name ∈ names := by
    intro name hname
    by_contra hmem
    exact hother name ((if_neg hmem).symm.trans hname)
  have hnames : names.map keep = names :=
    (List.map_congr_left fun name hmem => if_pos hmem).trans (List.map_id names)
  have hsame := joins_rename keep s relations names
  rw [hnames, h] at hsame
  have hall := List.map_inj_left.1 ((List.map_id joins).trans (Except.ok.inj hsame))
  intro j hj
  have hj : j = j.rename keep := hall j hj
  exact ⟨hkeep _ (congrArg (fun k : Join => k.source.name) hj).symm,
    hkeep _ (congrArg (fun k : Join => k.target.name) hj).symm⟩

/-- The joins of a sub-select have no conditions. -/
theorem isPlain_of_mem_joins {s : Storage} {relations : List Relation} {joins : List Join}
    (h : s.joins .keysOnly relations (aliasChain 1 relations) = .ok joins) :
    ∀ j ∈ joins, j.IsPlain := by
  -- they are those of a select around it, moved inward
  obtain ⟨outer, houter⟩ := exists_joins_keysOnly s relations none (aliasChain 0 relations)
  obtain ⟨rest, hrest, hlength⟩ := aliasChain_eq_cons 0 relations
  rw [hrest] at houter
  have hinner := joins_inward s hlength houter
  rw [← hrest, map_inward_aliasChain, h] at hinner
  intro j hj
  rw [Except.ok.inj hinner] at hj
  obtain ⟨other, -, rfl⟩ := List.mem_map.1 hj
  exact ⟨rfl, rfl⟩

end Storage

/-- The aliases of the tables that are no junctions. -/
theorem tableAliases_rename (relations : List Relation) (names : List Alias) :
    tableAliases relations (names.map f) = (tableAliases relations names).map f := by
  induction relations generalizing names with
  | nil => cases names <;> rfl
  | cons r relations ih =>
    cases names with
    | nil => rfl
    | cons name names =>
      rw [List.map_cons, tableAliases, tableAliases, ← List.map_drop, ih, List.map_cons]

end FeatureStore
