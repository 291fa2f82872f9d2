import FeatureStore.Proofs.Read.PageCut
import FeatureStore.Proofs.Sql.Elements
import FeatureStore.Proofs.Sql.Renaming
import FeatureStore.Proofs.Sql.Structure

/-!
# Conditions at every level

A filter is compiled once, to pieces with slots for the tables (`Storage.featureCondition`). Here it
is compiled to text at a level, with the letters of that level written wherever a table is named: in
the key of a membership, its joins, its columns and its grouping, and in the row filter of the root
table (`Storage.compileAt`, `Storage.whereAt`). Each of these takes the letters from the level in
its own way. Both give the same at every level: the pieces with the letters of the level in the
slots, or one error (`compile_uniform`). So a filter states the same inside the sub-select of a page
as around it, over tables with one letter more.
-/

set_option autoImplicit false

namespace FeatureStore

/-! ## Letters -/

/-- The alias of a table with the letters of a level. -/
def Alias.atLevel (level : Nat) (name : Alias) : Alias := .named (name.text level)

/-- With the letters of a level in the slots, a text is that at the level. -/
theorem Sql.render_rename_atLevel (level : Nat) (sql : Sql) :
    (Sql.rename (Alias.atLevel level) sql).render 0 = sql.render level := by
  rw [render, render, rename, List.map_map]
  refine congrArg String.join (List.map_congr_left fun piece _ => ?_)
  cases piece <;> rfl

/-- At a level every table has as many letters more. -/
theorem Alias.text_slot (level depth index : Nat) : (Alias.slot depth index).text level =
    String.ofList (List.replicate level 'A') ++ aliasAt depth index := by
  rw [Alias.text, aliasAt, aliasAt, ← List.replicate_append_replicate, List.append_assoc,
    String.ofList_append]

/-! ## Compiling at a level -/

/-- A condition in the text of a select. -/
inductive Fragment where
  | plain (text : String)
  /-- The key is one of those that a sub-select finds. -/
  | membership (key select : String) (isNegated : Bool)

namespace Fragment

/-- The text of a condition. -/
def text : Fragment → String
  | .plain text => text
  | .membership key select isNegated =>
    key ++ (if isNegated then " NOT IN " else " IN ") ++ "(" ++ select ++ ")"

/-- The negation of a condition. A membership is negated in its operator. -/
def negated : Fragment → Fragment
  | .plain text => .plain ("NOT (" ++ text ++ ")")
  | .membership key select isNegated => .membership key select !isNegated

/-- Conditions with a word between each two; a single one stands for itself. -/
def combined (word empty : String) : List Fragment → Fragment
  | [] => .plain empty
  | [only] => only
  | parts => .plain ("(" ++ word.intercalate (parts.map text) ++ ")")

end Fragment

namespace Filter

mutual
/-- The text of a filter, from the texts of its predicates and array relations. -/
def fragment (predicate : Bool → Predicate → Except Error Fragment)
    (array : ArrayRelation → Operand → Operand → Except Error Fragment) :
    Filter → Except Error Fragment
  | .all args => (fragments predicate array args).map (Fragment.combined " AND " "1=1")
  | .any args => (fragments predicate array args).map (Fragment.combined " OR " "1=0")
  | .negation (.test (.oneOf value list)) => predicate true (.oneOf value list)
  | .negation arg => (arg.fragment predicate array).map Fragment.negated
  | .test p => predicate false p
  | .array relation left right => array relation left right
  | .constant value => .ok (.plain (if value then "1=1" else "1=0"))

/-- The texts of a list of filters. -/
def fragments (predicate : Bool → Predicate → Except Error Fragment)
    (array : ArrayRelation → Operand → Operand → Except Error Fragment) :
    List Filter → Except Error (List Fragment)
  | [] => .ok []
  | arg :: rest => do
    let first ← arg.fragment predicate array
    let others ← fragments predicate array rest
    return first :: others
end

end Filter

namespace Storage

/-- The membership of a root row at a level among those of a sub-select one level further inside,
which keeps the rows that fulfil a condition on a table. -/
def membershipAt (s : Storage) (level : Nat) (table : Table)
    (condition : Scope → String → Except Error String) : Except Error Fragment := do
  let names := (List.range (1 + joinedCount table.relations)).map fun index =>
    Alias.named (aliasAt (level + 1) index)
  let root := aliasAt (level + 1) 0
  let joins ← s.joins .keysOnly table.relations names
  let leaf := ((tableAliases table.relations names).getLast?).getD (.named root)
  let kept ← condition (.feature [(s.root.path, .named root), (table.path, leaf)]) root
  let clauses := if joins.isEmpty then "" else (Join.listSql s joins).render 0 ++ " "
  return .membership (aliasAt level 0 ++ "." ++ s.root.sortKey)
    ("SELECT " ++ root ++ "." ++ s.root.sortKey ++ " FROM " ++ s.root.name ++ " " ++ root ++ " " ++
      clauses ++ "WHERE " ++ kept) false

/-- The text of a predicate on features at a level. -/
def predicateAt (s : Storage) (level : Nat) (negated : Bool) (p : Predicate) :
    Except Error Fragment := do
  match ← s.joinedTable p.properties with
  | none =>
    let t ← s.test (.feature [(s.root.path, .named (aliasAt level 0))]) negated p
    return .plain ((s.testSql t).render 0)
  | some table =>
    s.membershipAt level table fun scope _ =>
      (s.test scope negated p).map fun t => (s.testSql t).render 0

/-- The text of an array relation on features at a level. -/
def arrayAt (s : Storage) (level : Nat) (relation : ArrayRelation) (left right : Operand) :
    Except Error Fragment :=
  match left.members?, right.members? with
  | some first, some second => .ok (.plain (if relation.holds first second then "1=1" else "1=0"))
  | _, _ => do
    let (value, values, relation) ← relation.readAgainst left right
    if relation != .overlaps && relation != .contains then
      throw (.mapping value.subject (.unsupportedArrayOperator relation.shown))
    let table := (← s.joinedTable [value.subject]).getD s.root
    s.membershipAt level table fun scope root =>
      (s.scalar scope value).map fun e =>
        let column := (e.sql s.dialect s.srid).render 0
        let count := if relation == .contains then
          " HAVING count(distinct " ++ column ++ ") = " ++ toString values.length else ""
        column ++ " IN " ++ (Value.listSql values).render 0 ++ " GROUP BY " ++ root ++ "." ++
          s.root.sortKey ++ count

/-- The text of a filter on features in a select at a level. -/
def compileAt (s : Storage) (filter : Filter) (level : Nat) : Except Error String :=
  (filter.fragment (s.predicateAt level) (s.arrayAt level)).map Fragment.text

/-- The text of an array relation on the rows of one table, where only literals may be compared. -/
def rowArrayText (relation : ArrayRelation) (left right : Operand) : Except Error Fragment :=
  match left.members?, right.members? with
  | some first, some second => .ok (.plain (if relation.holds first second then "1=1" else "1=0"))
  | _, _ => do
    let (value, _, _) ← relation.readAgainst left right
    throw (.mapping value.subject .arrayInRowFilter)

/-- The text of a filter on the rows of one table. -/
def compileRows (s : Storage) (filter : Filter) (table : String) : Except Error String :=
  let predicate (negated : Bool) (p : Predicate) : Except Error Fragment :=
    (s.test (.row (.named table)) negated p).map fun t => .plain ((s.testSql t).render 0)
  (filter.fragment predicate rowArrayText).map Fragment.text

/-- The text of the restriction on root rows in a select at a level: the row filter of the root
table, whose letters are those of the level, and the filter of the reader. -/
def whereAt (s : Storage) (filter : Option Filter) (level : Nat) :
    Except Error (Option String) := do
  let row ← s.root.filter.mapM fun f => s.compileRows f (aliasAt level 0)
  let feature ← filter.mapM fun f => s.compileAt f level
  match row, feature with
  | some row, some feature => return some (row ++ " AND " ++ feature)
  | some row, none => return some row
  | none, feature => return feature

end Storage

/-! ## From conditions to texts -/

theorem Filter.fragment_negation {predicate : Bool → Predicate → Except Error Fragment}
    {array : ArrayRelation → Operand → Operand → Except Error Fragment} {arg : Filter}
    (h : arg.isList = false) : (negation arg).fragment predicate array =
      (arg.fragment predicate array).map Fragment.negated := by
  cases arg with
  | test p =>
    cases p with
    | oneOf value list => simp [isList] at h
    | _ => rfl
  | _ => rfl

section Combinations

variable {α : Type} {predicate : Bool → Predicate → Except Error (Condition α)}
  {array : ArrayRelation → Operand → Operand → Except Error (Condition α)}
  {negate : Condition α → Condition α} {write : Condition α → Fragment}

/-- Conditions are written by putting together what is written for their parts. -/
structure WritesParts (negate : Condition α → Condition α) (write : Condition α → Fragment) :
    Prop where
  constant : ∀ value, write (.constant value) = .plain (if value then "1=1" else "1=0")
  all : ∀ parts, write (.all parts) =
    .plain ("(" ++ " AND ".intercalate (parts.map fun c => (write c).text) ++ ")")
  any : ∀ parts, write (.any parts) =
    .plain ("(" ++ " OR ".intercalate (parts.map fun c => (write c).text) ++ ")")
  negate : ∀ c, write (negate c) = (write c).negated

namespace WritesParts

theorem conjunction (h : WritesParts negate write) (cs : List (Condition α)) :
    write (Condition.conjunction cs) = Fragment.combined " AND " "1=1" (cs.map write) := by
  match cs with
  | [] => exact h.constant true
  | [only] => rfl
  | first :: second :: rest =>
    have htexts : (first :: second :: rest).map (fun c => (write c).text) =
        ((first :: second :: rest).map write).map Fragment.text := by
      rw [List.map_map]
      rfl
    refine (h.all (first :: second :: rest)).trans ?_
    rw [htexts]
    rfl

theorem disjunction (h : WritesParts negate write) (cs : List (Condition α)) :
    write (Condition.disjunction cs) = Fragment.combined " OR " "1=0" (cs.map write) := by
  match cs with
  | [] => exact h.constant false
  | [only] => rfl
  | first :: second :: rest =>
    have htexts : (first :: second :: rest).map (fun c => (write c).text) =
        ((first :: second :: rest).map write).map Fragment.text := by
      rw [List.map_map]
      rfl
    refine (h.any (first :: second :: rest)).trans ?_
    rw [htexts]
    rfl

mutual
/-- What is written for a filter is what is written for its condition. -/
theorem fragment_eq (h : WritesParts negate write) : ∀ filter : Filter,
    filter.fragment (fun negated p => (predicate negated p).map write)
        (fun relation left right => (array relation left right).map write) =
      (filter.lower predicate array negate).map write
  | .all args => by
    rw [Filter.fragment, Filter.lower, h.fragments_eq args]
    cases Filter.lowerList predicate array negate args with
    | error e => rfl
    | ok cs => exact congrArg Except.ok (h.conjunction cs).symm
  | .any args => by
    rw [Filter.fragment, Filter.lower, h.fragments_eq args]
    cases Filter.lowerList predicate array negate args with
    | error e => rfl
    | ok cs => exact congrArg Except.ok (h.disjunction cs).symm
  | .negation arg => by
    -- a negated list is one test; every other argument is written first and then negated
    cases hlist : arg.isList with
    | true =>
      cases arg with
      | test p =>
        cases p with
        | oneOf value list => rfl
        | _ => simp [Filter.isList] at hlist
      | _ => simp [Filter.isList] at hlist
    | false =>
      rw [Filter.fragment_negation hlist, Filter.lower_negation hlist, h.fragment_eq arg]
      cases arg.lower predicate array negate with
      | error e => rfl
      | ok c => exact congrArg Except.ok (h.negate c).symm
  | .test p => rfl
  | .array relation left right => rfl
  | .constant value => congrArg Except.ok (h.constant value).symm

theorem fragments_eq (h : WritesParts negate write) : ∀ filters : List Filter,
    Filter.fragments (fun negated p => (predicate negated p).map write)
        (fun relation left right => (array relation left right).map write) filters =
      (Filter.lowerList predicate array negate filters).map (List.map write)
  | [] => rfl
  | filter :: rest => by
    rw [Filter.fragments, Filter.lowerList, h.fragment_eq filter, h.fragments_eq rest]
    cases filter.lower predicate array negate with
    | error e => rfl
    | ok c => cases Filter.lowerList predicate array negate rest <;> rfl
end

end WritesParts

end Combinations

/-- What is written for a condition on features at a level. -/
def FeatureCondition.fragment (s : Storage) (level : Nat) : FeatureCondition → Fragment
  | .atom (.member m) =>
    .membership ((Sql.column outerRoot m.sortKey).render level) ((m.selectSql s).render level)
      m.isNegated
  | c => .plain ((s.featureConditionSql c).render level)

namespace Sql

variable (level : Nat)

theorem render_around (before behind : String) (sql : Sql) :
    (around before sql behind).render level = before ++ sql.render level ++ behind := by
  rw [around, List.cons_append, render_cons, render_append, String.append_assoc]
  exact congrArg _ (congrArg _ (render_ofText level behind))

theorem render_separated_listSql {α : Type} (atomSql : α → Sql) (word : String)
    (parts : List (Condition α)) :
    (parenthesized (separated word (Condition.listSql atomSql parts))).render level =
      "(" ++ word.intercalate (parts.map fun c => (c.sql atomSql).render level) ++ ")" := by
  rw [render_parenthesized, render_separated, Condition.listSql_eq_map, List.map_map]
  rfl

end Sql

/-- The text of what is written for a condition is that of the condition. -/
theorem FeatureCondition.text_fragment (s : Storage) (level : Nat) (c : FeatureCondition) :
    (FeatureCondition.fragment s level c).text = (s.featureConditionSql c).render level := by
  cases c with
  | atom a =>
    cases a with
    | test t => rfl
    | member m =>
      show _ ++ _ ++ "(" ++ _ ++ ")" = (m.sql s).render level
      rw [Membership.sql, Sql.render_append, Sql.render_cons, Sql.render_parenthesized]
      simp only [String.append_assoc]
      rfl
  | _ => rfl

theorem writesParts_features (s : Storage) (level : Nat) :
    WritesParts FeatureCondition.negated (FeatureCondition.fragment s level) where
  constant value := congrArg Fragment.plain (Condition.render_constant _ value level)
  all parts := by
    simp only [FeatureCondition.text_fragment]
    exact congrArg Fragment.plain (Sql.render_separated_listSql level _ " AND " parts)
  any parts := by
    simp only [FeatureCondition.text_fragment]
    exact congrArg Fragment.plain (Sql.render_separated_listSql level _ " OR " parts)
  negate c := by
    have hplain : ∀ d : FeatureCondition, Fragment.plain
        ((s.featureConditionSql (.negation d)).render level) =
          .plain ("NOT (" ++ (s.featureConditionSql d).render level ++ ")") := fun d =>
      congrArg Fragment.plain (Sql.render_around level "NOT (" ")" _)
    cases c with
    | atom a =>
      cases a with
      | test t => exact hplain (.atom (.test t))
      | member m => rfl
    | constant value => exact hplain (.constant value)
    | all parts => exact hplain (.all parts)
    | any parts => exact hplain (.any parts)
    | negation part => exact hplain (.negation part)

theorem writesParts_rows (s : Storage) (level : Nat) :
    WritesParts Condition.negation
      fun c : RowCondition => .plain ((s.rowConditionSql c).render level) where
  constant value := congrArg Fragment.plain (Condition.render_constant _ value level)
  all parts := congrArg Fragment.plain (Sql.render_separated_listSql level _ " AND " parts)
  any parts := congrArg Fragment.plain (Sql.render_separated_listSql level _ " OR " parts)
  negate _ := congrArg Fragment.plain (Sql.render_around level "NOT (" ")" _)

/-! ## One sequence of pieces -/

/-- A change of a change. -/
theorem map_map_except {ε α β γ : Type} (x : Except ε α) (g : α → β) (h : β → γ) :
    (x.map g).map h = x.map fun a => h (g a) := by
  cases x <;> rfl

/-- What is made of a value that may be missing, changed. -/
theorem optionMapM_map {ε α β γ : Type} (g : α → Except ε β) (h : β → γ) (o : Option α) :
    o.mapM (fun a => (g a).map h) = (o.mapM g).map (Option.map h) := by
  cases o with
  | none => rfl
  | some a =>
    show some <$> (g a).map h = Except.map _ (some <$> g a)
    cases g a <;> rfl

/-- What is made of a value that may be missing comes from that value. -/
theorem exists_of_optionMapM {ε α β : Type} {g : α → Except ε β} {o : Option α} {found : Option β}
    (h : o.mapM g = .ok found) {b : β} (hb : b ∈ found) : ∃ a ∈ o, g a = .ok b := by
  cases o with
  | none =>
    obtain rfl := Except.ok.inj h
    cases hb
  | some a =>
    obtain ⟨c, hc, rfl⟩ := map_eq_ok.1 h
    obtain rfl := Option.some.inj hb
    exact ⟨a, rfl, hc⟩

namespace Storage

variable (s : Storage) (level : Nat)

/-- A test in a scope with the letters of a level is written like that with slots. -/
theorem test_atLevel (scope : Scope) (negated : Bool) (p : Predicate) :
    (s.test (scope.rename (Alias.atLevel level)) negated p).map (fun t => (s.testSql t).render 0) =
      (s.test scope negated p).map fun t => (s.testSql t).render level := by
  rw [test_rename, map_map_except]
  congr 1
  funext t
  rw [testSql, Test.rename_sql, Sql.render_rename_atLevel]
  rfl

/-- The joins of a sub-select, written with the letters of a level. -/
theorem render_joins_atLevel {relations : List Relation} {joins : List Join}
    (h : s.joins .keysOnly relations (aliasChain 1 relations) = .ok joins) :
    (if (joins.map (Join.rename (Alias.atLevel level))).isEmpty then ""
      else (Join.listSql s (joins.map (Join.rename (Alias.atLevel level)))).render 0 ++ " ") =
      Sql.render level
        (if joins.isEmpty then [] else Join.listSql s joins ++ Sql.ofText " ") := by
  rw [List.isEmpty_map, Join.rename_listSql (Alias.atLevel level) s (isPlain_of_mem_joins h),
    Sql.render_rename_atLevel]
  split
  · rfl
  · rw [Sql.render_append, Sql.render_ofText]

/-- The alias of the table that a sub-select reads is the last one of its chain, with letters as
with slots. -/
theorem leaf_atLevel (relations : List Relation) (names : List Alias) :
    ((tableAliases relations (names.map (Alias.atLevel level))).getLast?).getD
        (.named (aliasAt (level + 1) 0)) =
      Alias.atLevel level (((tableAliases relations names).getLast?).getD innerRoot) := by
  rw [tableAliases_rename, List.getLast?_map]
  exact Option.getD_map (Alias.atLevel level) innerRoot _

/-- A membership with the letters of a level is written like that with slots. -/
theorem membershipAt_eq (table : Table) {select : Scope → Except Error Selection}
    {condition : Scope → String → Except Error String}
    (hselect : ∀ scope : Scope, condition (scope.rename (Alias.atLevel level))
      (innerRoot.text level) =
        (select scope).map fun kept => (kept.sql s s.root.sortKey).render level) :
    s.membershipAt level table condition =
      (s.membership table select).map (FeatureCondition.fragment s level) := by
  let rename := Alias.atLevel level
  let names := aliasChain 1 table.relations
  -- the letters of the inner rows are the slots of the chain at this level
  have hnames : (List.range (1 + joinedCount table.relations)).map (fun index =>
      Alias.named (aliasAt (level + 1) index)) = names.map rename := by
    show _ = (List.map (Alias.slot 1) _).map _
    rw [List.map_map]
    rfl
  -- joins on keys alone do not fail, and neither do the renamed ones
  obtain ⟨joins, hjoins⟩ := exists_joins_keysOnly s table.relations none names
  have hrenamed : s.joins .keysOnly table.relations (names.map rename) =
      .ok (joins.map (Join.rename rename)) := by
    rw [joins_rename]
    exact congrArg (Except.map _) hjoins
  let leaf := ((tableAliases table.relations names).getLast?).getD innerRoot
  let scope : Scope := .feature [(s.root.path, innerRoot), (table.path, leaf)]
  have hkept := hselect scope
  rw [membershipAt, hnames, membership]
  dsimp only
  rw [hrenamed, show s.joins .keysOnly table.relations names = .ok joins from hjoins]
  show (condition (.feature [(s.root.path, .named (aliasAt (level + 1) 0)),
    (table.path, _)]) _ >>= _) = Except.map _ (select scope >>= _)
  -- both sides pass a scope of root and joined table on: the one with letters is the other, renamed
  rw [leaf_atLevel]
  change condition (.feature [(s.root.path, .named (aliasAt (level + 1) 0)),
    (table.path, rename leaf)]) (aliasAt (level + 1) 0) = _ at hkept
  rw [hkept]
  cases select scope with
  | error e => rfl
  | ok kept =>
    -- the condition agrees by assumption, so only the joins around it are left to write out
    refine congrArg Except.ok ?_
    rw [s.render_joins_atLevel level hjoins]
    simp only [FeatureCondition.fragment, Membership.selectSql, List.cons_append,
      List.append_assoc, Sql.render_cons, Sql.render_append, Sql.render_column, Piece.render,
      String.append_assoc]
    rfl

/-- A predicate with the letters of a level is written like that with slots. -/
theorem predicateAt_eq (negated : Bool) (p : Predicate) : s.predicateAt level negated p =
    (s.featurePredicate negated p).map (FeatureCondition.fragment s level) := by
  rw [predicateAt, featurePredicate]
  cases s.joinedTable p.properties with
  | error e => rfl
  | ok found =>
    simp only [bind, Except.bind]
    cases found with
    | none =>
      -- without a join the test is on the outer row itself
      have htest : s.test (.feature [(s.root.path, .named (aliasAt level 0))]) negated p =
          (s.test (.feature [(s.root.path, outerRoot)]) negated p).map
            (Test.rename (Alias.atLevel level)) :=
        test_rename (Alias.atLevel level) (.feature [(s.root.path, outerRoot)]) negated p
      dsimp only
      rw [htest]
      cases s.test (.feature [(s.root.path, outerRoot)]) negated p with
      | error e => rfl
      | ok t =>
        refine congrArg (fun text => Except.ok (Fragment.plain text)) ?_
        exact (congrArg (Sql.render 0) (t.rename_sql _ s.dialect s.srid)).trans
          (Sql.render_rename_atLevel level _)
    | some table =>
      -- behind a join the test stands in a membership
      refine s.membershipAt_eq level table fun scope => ?_
      rw [map_map_except]
      exact s.test_atLevel level scope negated p

/-- Literals are written in the same way at every level. -/
theorem render_listSql (level : Nat) (values : List Value) :
    (Value.listSql values).render level = (Value.listSql values).render 0 := by
  rw [← Sql.render_rename_atLevel, rename_listSql]

/-- The elements that a sub-select keeps, written with the letters of a level. -/
theorem render_elements (level : Nat) (column : Scalar) (values : List Value) (complete : Bool) :
    ((Selection.elements column values complete).sql s s.root.sortKey).render level =
      (column.sql s.dialect s.srid).render level ++ " IN " ++ (Value.listSql values).render 0 ++
        " GROUP BY " ++ innerRoot.text level ++ "." ++ s.root.sortKey ++
        (if complete then " HAVING count(distinct " ++ (column.sql s.dialect s.srid).render level ++
          ") = " ++ toString values.length else "") := by
  have hcount : Sql.render level (if complete then
      Sql.around " HAVING count(distinct " (column.sql s.dialect s.srid)
        (") = " ++ toString values.length) else []) =
      if complete then " HAVING count(distinct " ++ (column.sql s.dialect s.srid).render level ++
        ") = " ++ toString values.length else "" := by
    split
    · rw [Sql.render_around]
      simp only [String.append_assoc]
    · rfl
  rw [Selection.sql, ← render_listSql level values, ← hcount]
  simp only [Sql.render_append, Sql.render_cons, Sql.render_column, Piece.render,
    String.append_assoc]

/-- An array relation with the letters of a level is written like that with slots. -/
theorem arrayAt_eq (relation : ArrayRelation) (left right : Operand) :
    s.arrayAt level relation left right =
      (s.featureArray relation left right).map (FeatureCondition.fragment s level) := by
  rw [arrayAt, featureArray]
  rcases left.members? with _ | first <;> rcases right.members? with _ | second
  case some.some =>
    exact congrArg (fun text => Except.ok (Fragment.plain text))
      (Condition.render_constant _ _ level).symm
  -- unless both sides are constant, one of them is read from rows
  all_goals
    cases relation.readAgainst left right with
    | error e => rfl
    | ok read =>
      obtain ⟨value, values, turned⟩ := read
      simp only [bind, Except.bind]
      split
      · rfl
      · cases s.joinedTable [value.subject] with
        | error e => rfl
        | ok found =>
          refine s.membershipAt_eq level (found.getD s.root) fun scope => ?_
          rw [scalar_rename, map_map_except, map_map_except]
          -- no value is renamed, so the two differ in the column they read only
          congr 1
          funext e
          rw [render_elements, Scalar.rename_sql, Sql.render_rename_atLevel]

/-- A filter on features is compiled at a level to the text of its condition. -/
theorem compileAt_eq (filter : Filter) : s.compileAt filter level =
    (s.featureCondition filter).map fun c => (s.featureConditionSql c).render level := by
  have hpredicate : s.predicateAt level = fun negated p =>
      (s.featurePredicate negated p).map (FeatureCondition.fragment s level) :=
    funext fun negated => funext (s.predicateAt_eq level negated)
  have harray : s.arrayAt level = fun relation left right =>
      (s.featureArray relation left right).map (FeatureCondition.fragment s level) :=
    funext fun relation => funext fun left => funext (s.arrayAt_eq level relation left)
  rw [compileAt, hpredicate, harray, (writesParts_features s level).fragment_eq, map_map_except]
  congr 1
  funext c
  exact FeatureCondition.text_fragment s level c

/-- An array relation on rows is written like its truth value. -/
theorem rowArrayText_eq (relation : ArrayRelation) (left right : Operand) :
    rowArrayText relation left right = (rowArray relation left right).map fun c =>
      .plain ((s.rowConditionSql c).render level) := by
  rw [rowArrayText, rowArray]
  rcases left.members? with _ | first <;> rcases right.members? with _ | second
  case some.some =>
    exact congrArg (fun text => Except.ok (Fragment.plain text))
      (Condition.render_constant _ _ level).symm
  all_goals cases relation.readAgainst left right <;> rfl

/-- A filter on rows is compiled to the text of its condition on the table of that name. -/
theorem compileRows_eq (filter : Filter) (name : Alias) :
    s.compileRows filter (name.text level) =
      (s.rowCondition name filter).map fun c => (s.rowConditionSql c).render level := by
  let write : RowCondition → Fragment := fun c => .plain ((s.rowConditionSql c).render level)
  have hpredicate : (fun negated p => (s.test (.row (.named (name.text level))) negated p).map
      fun t => Fragment.plain ((s.testSql t).render 0)) = fun negated p =>
        ((s.test (.row name) negated p).map Condition.atom).map write := by
    funext negated p
    have htest := s.test_atLevel level (.row name) negated p
    rw [map_map_except, ← map_map_except _ _ Fragment.plain]
    exact (congrArg (Except.map Fragment.plain) htest).trans (map_map_except _ _ _)
  have harray : rowArrayText = fun relation left right =>
      (rowArray relation left right).map write :=
    funext fun relation => funext fun left => funext (s.rowArrayText_eq level relation left)
  have hparts : WritesParts Condition.negation write := writesParts_rows s level
  rw [compileRows, hpredicate, harray, hparts.fragment_eq, map_map_except]
  rfl

/-- The restriction on root rows is compiled at a level to the text of its pieces. -/
theorem whereAt_eq (filter : Option Filter) : s.whereAt filter level =
    (s.restriction filter).map fun r => (r.sql? s).map (Sql.render level) := by
  have hrow : (s.root.filter.mapM fun f => s.compileRows f (aliasAt level 0)) =
      (s.root.filter.mapM (s.rowCondition outerRoot)).map
        (Option.map fun c => (s.rowConditionSql c).render level) := by
    rw [← optionMapM_map]
    exact congrArg (s.root.filter.mapM ·) (funext fun f => s.compileRows_eq level f outerRoot)
  have hfeature : (filter.mapM fun f => s.compileAt f level) =
      (filter.mapM s.featureCondition).map
        (Option.map fun c => (s.featureConditionSql c).render level) := by
    rw [← optionMapM_map]
    exact congrArg (filter.mapM ·) (funext (s.compileAt_eq level))
  -- the filter of the mapping fails first, then that of the reader
  rw [whereAt, restriction, hrow, hfeature]
  cases s.root.filter.mapM (s.rowCondition outerRoot) with
  | error e => rfl
  | ok row =>
    cases filter.mapM s.featureCondition with
    | error e => cases row <;> rfl
    | ok feature =>
      cases row with
      | none => cases feature <;> rfl
      | some c =>
        cases feature with
        | none => rfl
        | some d =>
          -- both are there: they are written around one connective
          refine congrArg (fun text => Except.ok (some text)) ?_
          show _ = Sql.render level (_ ++ _ :: _)
          rw [Sql.render_append, Sql.render_cons, String.append_assoc]
          rfl

end Storage

/-! ## The slots of the pieces -/

/-- A join on keys names its two tables. -/
theorem Join.namesOnly_sql {names : List Alias} {s : Storage} {j : Join} (hplain : j.IsPlain)
    (hsource : j.source.name ∈ names) (htarget : j.target.name ∈ names) :
    Sql.NamesOnly names (j.sql s) := by
  rw [sql, targetSql, hplain.1, hplain.2]
  simp [hsource, htarget]

/-- A sub-select names the tables of its joins and those that its selection reads. -/
theorem Membership.namesOnly_sql {names : List Alias} {s : Storage} {m : Membership}
    (houter : outerRoot ∈ names) (hinner : innerRoot ∈ names)
    (hjoins : ∀ j ∈ m.joins, Sql.NamesOnly names (j.sql s))
    (hselection : Sql.NamesOnly names (m.selection.sql s m.sortKey)) :
    Sql.NamesOnly names (m.sql s) := by
  have hlist : Sql.NamesOnly names (Join.listSql s m.joins) := by
    refine Sql.namesOnly_separated _ fun part hpart => ?_
    obtain ⟨j, hj, rfl⟩ := List.mem_map.1 hpart
    exact hjoins j hj
  have hclauses : Sql.NamesOnly names
      (if m.joins.isEmpty then [] else Join.listSql s m.joins ++ Sql.ofText " ") := by
    split
    · exact Sql.namesOnly_nil
    · exact Sql.namesOnly_append.2 ⟨hlist, Sql.namesOnly_ofText _⟩
  rw [sql, selectSql]
  simp only [List.cons_append, List.append_assoc, Sql.namesOnly_append, Sql.namesOnly_column,
    Sql.namesOnly_text, Sql.namesOnly_parenthesized, Sql.namesOnly_alias]
  exact ⟨houter, hinner, hinner, hclauses, hselection⟩

/-- A negation reads the tables that the condition itself does. -/
theorem FeatureCondition.namesOnly_negated {names : List Alias} {s : Storage}
    {c : FeatureCondition} (h : ∀ a ∈ c.atoms, Sql.NamesOnly names (a.sql s)) :
    ∀ a ∈ (FeatureCondition.negated c).atoms, Sql.NamesOnly names (a.sql s) := by
  cases c with
  | atom a =>
    cases a with
    | test t => exact h
    | member m =>
      intro a ha
      obtain rfl := List.mem_singleton.1 ha
      have hm : Sql.NamesOnly names (m.sql s) := h _ (List.mem_singleton_self _)
      rw [Membership.sql, Sql.namesOnly_append, Sql.namesOnly_text] at hm
      show Sql.NamesOnly names (Membership.sql s _)
      rw [Membership.sql, Sql.namesOnly_append, Sql.namesOnly_text]
      exact hm
  | constant value => exact h
  | all parts => exact h
  | any parts => exact h
  | negation part => exact h

namespace Storage

variable {s : Storage}

/-- The tables that a condition on features may name: the root table around it, and in each of its
sub-selects the tables along a chain of the tree. -/
def slots (s : Storage) : List Alias :=
  outerRoot :: s.tree.tables.flatMap fun table => aliasChain 1 table.relations

theorem outerRoot_mem_slots : outerRoot ∈ s.slots := List.mem_cons_self

theorem aliasChain_subset_slots {table : Table} (h : table ∈ s.tree.tables) :
    aliasChain 1 table.relations ⊆ s.slots := fun _ hname =>
  List.mem_cons_of_mem _ (List.mem_flatMap.2 ⟨table, h, hname⟩)

/-- A slot stands for a table of the select or of one right inside it. -/
theorem eq_slot_of_mem_slots {name : Alias} (h : name ∈ s.slots) :
    ∃ depth index, name = .slot depth index ∧ depth ≤ 1 := by
  rcases List.mem_cons.1 h with rfl | h
  · exact ⟨0, 0, rfl, Nat.zero_le 1⟩
  · obtain ⟨table, -, hname⟩ := List.mem_flatMap.1 h
    obtain ⟨index, -, rfl⟩ := List.mem_map.1 hname
    exact ⟨1, index, rfl, Nat.le_refl 1⟩

/-- A membership names the slots of the chain that it joins. -/
theorem namesOnly_membership {table : Table} (htable : table ∈ s.tree.tables)
    {select : Scope → Except Error Selection} {c : FeatureCondition}
    (h : s.membership table select = .ok c)
    (hselect : ∀ scope selection, scope.aliases ⊆ s.slots → select scope = .ok selection →
      Sql.NamesOnly s.slots (selection.sql s s.root.sortKey)) :
    ∀ a ∈ c.atoms, Sql.NamesOnly s.slots (a.sql s) := by
  obtain ⟨joins, hjoins, h⟩ := bind_eq_ok.1 h
  obtain ⟨selection, hselection, h⟩ := bind_eq_ok.1 h
  obtain rfl := pure_eq_ok.1 h
  intro a ha
  obtain rfl := List.mem_singleton.1 ha
  have hchain := aliasChain_subset_slots htable
  obtain ⟨rest, hrest, -⟩ := aliasChain_eq_cons 1 table.relations
  have hinner : innerRoot ∈ s.slots := hchain (by rw [hrest]; exact List.mem_cons_self)
  have hleaf : ((tableAliases table.relations (aliasChain 1 table.relations)).getLast?).getD
      innerRoot ∈ s.slots := by
    rw [getLast?_tableAliases _ _ (length_aliasChain 1 _)]
    cases hlast : (aliasChain 1 table.relations).getLast? with
    | none => exact hinner
    | some leaf => exact hchain (List.mem_of_getLast? hlast)
  -- the joins name aliases of the chain, the condition those of its scope
  refine Membership.namesOnly_sql outerRoot_mem_slots hinner (fun j hj => ?_) ?_
  · obtain ⟨hsource, htarget⟩ := names_of_mem_joins hjoins j hj
    exact Join.namesOnly_sql (isPlain_of_mem_joins hjoins j hj) (hchain hsource) (hchain htarget)
  · refine hselect _ _ ?_ hselection
    intro name hname
    rcases List.mem_cons.1 hname with rfl | hname
    · exact hinner
    · obtain rfl := List.mem_singleton.1 hname
      exact hleaf

theorem namesOnly_featurePredicate (htree : s.tree.IsDerived) {negated : Bool} {p : Predicate}
    {c : FeatureCondition} (h : s.featurePredicate negated p = .ok c) :
    ∀ a ∈ c.atoms, Sql.NamesOnly s.slots (a.sql s) := by
  obtain ⟨found, hfound, h⟩ := bind_eq_ok.1 h
  cases found with
  | none =>
    obtain ⟨t, ht, h⟩ := bind_eq_ok.1 h
    obtain rfl := pure_eq_ok.1 h
    intro a ha
    obtain rfl := List.mem_singleton.1 ha
    intro name hname
    obtain rfl := List.mem_singleton.1 (namesOnly_test ht s.dialect s.srid name hname)
    exact outerRoot_mem_slots
  | some table =>
    refine namesOnly_membership (mem_tables_of_joinedTable htree hfound) h ?_
    intro scope selection hscope hselection
    obtain ⟨t, ht, rfl⟩ := map_eq_ok.1 hselection
    exact fun name hname => hscope (namesOnly_test ht s.dialect s.srid name hname)

theorem namesOnly_featureArray (htree : s.tree.IsDerived) {relation : ArrayRelation}
    {left right : Operand} {c : FeatureCondition} (h : s.featureArray relation left right = .ok c) :
    ∀ a ∈ c.atoms, Sql.NamesOnly s.slots (a.sql s) := by
  -- a constant and a failure name nothing; a comparison of rows is a membership
  rcases featureArray_cases htree relation left right with ⟨value, heq, -⟩ | ⟨e, heq, -⟩ |
    ⟨operand, values, complete, table, column, -, hresolve, heq⟩
  · obtain rfl := Except.ok.inj (h.symm.trans heq)
    intro a ha
    cases ha
  · rw [heq] at h
    simp at h
  · rw [heq] at h
    have htable := mem_tables_of_resolve hresolve
    refine namesOnly_membership htable h ?_
    intro scope selection hscope hselection
    obtain ⟨e, he, rfl⟩ := map_eq_ok.1 hselection
    have hvalue : Sql.NamesOnly s.slots (e.sql s.dialect s.srid) :=
      Scalar.namesOnly_sql (List.Subset.trans (tables_subset_of_scalar he) hscope)
    have hcount : Sql.NamesOnly s.slots (if complete then
        Sql.around " HAVING count(distinct " (e.sql s.dialect s.srid)
          (") = " ++ toString values.length) else []) := by
      split
      · exact Sql.namesOnly_around.2 hvalue
      · exact Sql.namesOnly_nil
    obtain ⟨rest, hrest, -⟩ := aliasChain_eq_cons 1 table.relations
    have hinner : innerRoot ∈ s.slots :=
      aliasChain_subset_slots htable (by rw [hrest]; exact List.mem_cons_self)
    rw [Selection.sql]
    simp only [List.cons_append, List.append_assoc, Sql.namesOnly_append, Sql.namesOnly_text,
      Sql.namesOnly_column]
    have hvalues : Sql.NamesOnly s.slots ((Scalar.list values).sql s.dialect s.srid) :=
      Scalar.namesOnly_sql (List.nil_subset _)
    exact ⟨hvalue, hvalues, hinner, hcount⟩

/-- The text of a condition on features names slots only. -/
theorem namesOnly_featureCondition (htree : s.tree.IsDerived) {filter : Filter}
    {c : FeatureCondition} (h : s.featureCondition filter = .ok c) :
    Sql.NamesOnly s.slots (s.featureConditionSql c) := by
  refine Condition.namesOnly_sql (Filter.forall_atoms_of_lower
    (fun c => FeatureCondition.namesOnly_negated) h fun leaf hleaf d hd => ?_)
  cases (Filter.exists_lower_of_mem_leaves h leaf hleaf).1 with
  | outsideList value list => exact namesOnly_featurePredicate htree hd
  | test p => exact namesOnly_featurePredicate htree hd
  | array relation left right => exact namesOnly_featureArray htree hd
  | constant value =>
    obtain rfl := Except.ok.inj hd
    intro a ha
    cases ha

/-- The text of a restriction on root rows names slots only. -/
theorem namesOnly_restriction (htree : s.tree.IsDerived) {filter : Option Filter} {r : Restriction}
    (h : s.restriction filter = .ok r) {sql : Sql} (hsql : r.sql? s = some sql) :
    Sql.NamesOnly s.slots sql := by
  obtain ⟨row, hrow, h⟩ := bind_eq_ok.1 h
  obtain ⟨feature, hfeature, h⟩ := bind_eq_ok.1 h
  obtain rfl := pure_eq_ok.1 h
  have hrowSql : ∀ c ∈ row, Sql.NamesOnly s.slots (s.rowConditionSql c) := by
    intro c hc name hname
    obtain ⟨given, -, hgiven⟩ := exists_of_optionMapM hrow hc
    obtain rfl := List.mem_singleton.1 (namesOnly_rowCondition hgiven s name hname)
    exact outerRoot_mem_slots
  have hfeatureSql : ∀ c ∈ feature, Sql.NamesOnly s.slots (s.featureConditionSql c) := by
    intro c hc
    obtain ⟨given, -, hgiven⟩ := exists_of_optionMapM hfeature hc
    exact namesOnly_featureCondition htree hgiven
  -- of the two conditions each may be missing
  cases row with
  | none =>
    cases feature with
    | none => cases hsql
    | some d =>
      obtain rfl := Option.some.inj hsql
      exact hfeatureSql d rfl
  | some c =>
    cases feature with
    | none =>
      obtain rfl := Option.some.inj hsql
      exact hrowSql c rfl
    | some d =>
      obtain rfl := Option.some.inj hsql
      rw [Sql.namesOnly_append, Sql.namesOnly_text]
      exact ⟨hrowSql c rfl, hfeatureSql d rfl⟩

end Storage

/-! ## The page inside a select -/

namespace Storage

variable (s : Storage)

/-- The condition that a root row is one of a page, with the text of the condition on the rows of
the page, whose letters are those of the next level. -/
def pagedText (keys : List ReaderKey) (paging : Paging) (condition : Option String) : String :=
  let root := aliasAt 1 0
  let order := (keys.map fun key => root ++ "." ++ key.column ++ key.direction s.dialect) ++
    if s.root.sortKeyUnique then [root ++ "." ++ s.root.sortKey] else []
  "(" ++ aliasAt 0 0 ++ "." ++ s.root.sortKey ++ " IN (SELECT " ++ root ++ "." ++ s.root.sortKey ++
    " FROM " ++ s.root.name ++ " " ++ root ++ (condition.elim "" (" WHERE " ++ ·)) ++
    " ORDER BY " ++ ",".intercalate order ++ paging.text ++ "))"

/-- The condition on the rows of a page is the restriction one level further inside. -/
theorem render_pagedRoots (p : PagedRoots) : (p.sql s).render 0 =
    s.pagedText p.readerKeys p.paging ((p.restriction.sql? s).map (Sql.render 1)) := by
  -- one level further inside, the inner slots of the outside have the letters of the outer ones
  have horder : (p.order s).map (Sql.render 0) =
      (p.readerKeys.map fun key => aliasAt 1 0 ++ "." ++ key.column ++ key.direction s.dialect) ++
        if s.root.sortKeyUnique then [aliasAt 1 0 ++ "." ++ s.root.sortKey] else [] := by
    rw [PagedRoots.order, List.map_append, List.map_map]
    refine congrArg₂ _ (List.map_congr_left fun key _ => ?_) ?_
    · rw [Function.comp_apply, Sql.render_append, Sql.render_column, Sql.render_ofText]
      rfl
    · split
      · exact congrArg (fun text => [text]) (Sql.render_column 0 innerRoot s.root.sortKey)
      · rfl
  -- the restriction is nested, which is to say that it is written at the next level
  unfold PagedRoots.sql
  extract_lets key condition select
  have hcondition : Sql.render 0 condition =
      ((p.restriction.sql? s).map (Sql.render 1)).elim "" (" WHERE " ++ ·) := by
    simp only [condition]
    cases p.restriction.sql? s with
    | none => rfl
    | some restriction =>
      rw [Sql.render_cons, Sql.render_nested]
      rfl
  -- the fixed texts are cut where the pieces are
  have hopen : " IN (SELECT " = " IN " ++ ("(" ++ "SELECT ") := rfl
  have hclose : "))" = ")" ++ ")" := rfl
  have houter : Alias.text 0 outerRoot = aliasAt 0 0 := rfl
  have hinner : Alias.text 0 innerRoot = aliasAt 1 0 := rfl
  delta pagedText
  simp only [Sql.render_parenthesized, select, List.cons_append, List.append_assoc,
    Sql.render_cons, Sql.render_append, Sql.render_separated, Sql.render_column,
    Sql.render_ofText, hcondition, horder, hopen, hclose, houter, hinner, key, Piece.render,
    String.append_assoc, -String.reduceAppend]

end Storage

/-! ## Uniformity -/

/-- Compiling is uniform in the level. In a derived tree a filter on features has one outcome for
all levels, and so has the restriction on root rows with or without a filter of the reader: an
error, or a sequence of pieces with slots, whose text at a level is what is compiled there. A slot
is the alias of a table of the select or of one right inside it, and at a level it has as many
letters more. The restriction on the rows of a page, inside its sub-select, is that same sequence
one level further inside. -/
theorem compile_uniform {mapping : FeatureMapping} {s : Storage}
    (h : TableTree.ofMapping mapping = .ok s.tree) :
    (∀ name ∈ s.slots, ∃ depth index, depth ≤ 1 ∧ name = .slot depth index ∧ ∀ level,
      name.text level = aliasAt (level + depth) index ∧
      name.text level = String.ofList (List.replicate level 'A') ++ aliasAt depth index) ∧
    (∀ filter : Filter, ∃ pieces : Except Error Sql,
      (∀ sql, pieces = .ok sql → Sql.NamesOnly s.slots sql) ∧
      ∀ level, s.compileAt filter level = pieces.map (Sql.render level) ∧
        s.filterText filter level = s.compileAt filter level) ∧
    ∀ filter : Option Filter, ∃ pieces : Except Error (Option Sql),
      (∀ sql, pieces = .ok (some sql) → Sql.NamesOnly s.slots sql) ∧
      (∀ level, s.whereAt filter level = pieces.map (Option.map (Sql.render level)) ∧
        s.restrictionText filter level = s.whereAt filter level) ∧
      ∀ keys paging,
        ((s.restriction filter).map fun r => (PagedRoots.sql s ⟨keys, r, paging⟩).render 0) =
          (s.whereAt filter 1).map (s.pagedText keys paging) := by
  have htree := TableTree.isDerived_of_ofMapping h
  refine ⟨fun name hname => ?_, fun filter => ?_, fun filter => ?_⟩
  · obtain ⟨depth, index, rfl, hdepth⟩ := Storage.eq_slot_of_mem_slots hname
    exact ⟨depth, index, hdepth, rfl, fun level => ⟨rfl, Alias.text_slot level depth index⟩⟩
  · refine ⟨(s.featureCondition filter).map s.featureConditionSql, ?_, fun level => ?_⟩
    · intro sql hsql
      obtain ⟨c, hc, rfl⟩ := map_eq_ok.1 hsql
      exact Storage.namesOnly_featureCondition htree hc
    · rw [s.compileAt_eq level filter, map_map_except]
      exact ⟨rfl, rfl⟩
  · refine ⟨(s.restriction filter).map (Restriction.sql? s), ?_, fun level => ?_, ?_⟩
    · intro sql hsql
      obtain ⟨r, hr, hsql⟩ := map_eq_ok.1 hsql
      exact Storage.namesOnly_restriction htree hr hsql
    · rw [s.whereAt_eq level filter, map_map_except]
      exact ⟨rfl, rfl⟩
    · -- the text of the restriction inside the sub-select is its text one level further inside
      intro keys paging
      rw [s.whereAt_eq 1 filter, map_map_except]
      exact congrArg (fun g => (s.restriction filter).map g)
        (funext fun r => s.render_pagedRoots ⟨keys, r, paging⟩)

/-- Parcels that are not deleted, on addresses in a city: around a page and in its sub-select. -/
theorem compile_uniform_cities :
    let mapping : FeatureMapping := ⟨"parcels", "parcel\x7bfilter=\x7b\"op\":\"is_null\"," ++
        "\"value\":\x7b\"property\":\"deleted\"\x7d\x7d\x7d",
      [⟨"city", "[id=parcel_id]address/city", .value, none⟩]⟩
    let filter : Filter := Filter.compare .eq "city" (.text "Bonn")
    ∃ s : Storage, TableTree.ofMapping mapping = .ok s.tree ∧
      s.whereAt (some filter) 0 = .ok (some ("A.deleted IS NULL AND A.id IN (SELECT AA.id " ++
        "FROM parcel AA JOIN address AB ON (AA.id=AB.parcel_id) WHERE AB.city = 'Bonn')")) ∧
      s.whereAt (some filter) 1 = .ok (some ("AA.deleted IS NULL AND AA.id IN (SELECT AAA.id " ++
        "FROM parcel AAA JOIN address AAB ON (AAA.id=AAB.parcel_id) WHERE AAB.city = 'Bonn')")) ∧
      ∃ pieces : Except Error (Option Sql), ∀ level,
        s.whereAt (some filter) level = pieces.map (Option.map (Sql.render level)) := by
  intro mapping filter
  have hrun : (do
      let tree ← TableTree.ofMapping mapping
      let s := Storage.plain tree .postgis
      return (← s.whereAt (some filter) 0, ← s.whereAt (some filter) 1) :
        Except Error (Option String × Option String)).toOption = some (
          some ("A.deleted IS NULL AND A.id IN (SELECT AA.id " ++
            "FROM parcel AA JOIN address AB ON (AA.id=AB.parcel_id) WHERE AB.city = 'Bonn')"),
          some ("AA.deleted IS NULL AND AA.id IN (SELECT AAA.id " ++
            "FROM parcel AAA JOIN address AAB ON (AAA.id=AAB.parcel_id) " ++
              "WHERE AAB.city = 'Bonn')")) := by
    decide +kernel
  obtain ⟨tree, htree, hrun⟩ := bind_eq_ok.1 (toOption_eq_some.1 hrun)
  obtain ⟨around, haround, hrun⟩ := bind_eq_ok.1 hrun
  obtain ⟨inside, hinside, hrun⟩ := bind_eq_ok.1 hrun
  obtain ⟨rfl, rfl⟩ := Prod.mk.inj (pure_eq_ok.1 hrun)
  obtain ⟨-, -, huniform⟩ := @compile_uniform mapping (Storage.plain tree .postgis) htree
  obtain ⟨pieces, -, hpieces, -⟩ := huniform (some filter)
  exact ⟨Storage.plain tree .postgis, htree, haround, hinside, pieces,
    fun level => (hpieces level).1⟩

end FeatureStore
