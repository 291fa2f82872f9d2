import FeatureStore.Proofs.Sql.Lowered

/-!
# Rows that conditions select

A database gives the rows of tables, their cells and what tests say of rows (`Database`). Joins
extend what has been found row by row, a left join also where there is no partner
(`Database.joined`); a membership holds of a row whose sort key is among those that its sub-select
gives (`Database.isMember`); and a condition on features selects a root row if it holds where its
atoms do (`Database.selects`). The logic has two values. The negation of a condition selects exactly
the other rows (`Database.holds_negated`), and a row is a member only through rows that the joins of
the sub-select find (`Database.exists_reached_of_isMember`).
-/

set_option autoImplicit false

namespace FeatureStore

/-- A database, as far as conditions can tell. -/
structure Database where
  Row : Type
  /-- The rows of a table, or of a sub-select that stands in its place. -/
  rows : Sql → List Row
  /-- A cell of a row, unless it has no value. -/
  cell : Row → String → Option String
  /-- A test passes on the rows that stand under the aliases. -/
  passes : (Alias → Option Row) → Test → Bool
  /-- The value of an expression on the rows that stand under the aliases. -/
  value : (Alias → Option Row) → Scalar → Option String
  /-- The value of a literal. -/
  literal : Value → Option String
  /-- A value is outside a list exactly if it is not in it. -/
  passes_outside : ∀ found value list,
    passes found (.oneOf value list true) = !passes found (.oneOf value list false)

namespace Database

/-- The rows that stand under the aliases of a select. -/
abbrev Found (d : Database) : Type := Alias → Option d.Row

variable (d : Database)

/-- A row of the root table alone. -/
def start (name : Alias) (row : d.Row) : d.Found := Function.update (fun _ => none) name (some row)

/-- A row is joined to the ones found: the cells compared have values, the values are the same, and
the condition of the join holds. -/
def meets (j : Join) (found : d.Found) (row : d.Row) : Bool :=
  match (found j.source.name).bind (d.cell · j.source.field), d.cell row j.target.field with
  | some key, some other => key == other && j.filter.all fun condition =>
      condition.holds (d.passes (Function.update found j.target.name (some row)))
  | _, _ => false

/-- What a join makes of the rows found: one extension for each partner, or one without a row if
there is none and the join is a left one. -/
def extend (j : Join) (found : d.Found) : List d.Found :=
  match (d.rows j.targetSql).filter (d.meets j found), j.kind with
  | [], .left => [Function.update found j.target.name none]
  | partners, _ => partners.map fun row => Function.update found j.target.name (some row)

/-- What some joins make of the rows found. -/
def joined : List Join → d.Found → List d.Found
  | [], found => [found]
  | j :: joins, found => (d.extend j found).flatMap (joined joins)

/-- What a select from a table and some joins finds. -/
def selectFrom (table : String) (name : Alias) (joins : List Join) : List d.Found :=
  (d.rows (Sql.ofText table)).flatMap fun row => d.joined joins (d.start name row)

/-- The cell of the row under an alias. -/
def cellAt (found : d.Found) (name : Alias) (column : String) : Option String :=
  (found name).bind (d.cell · column)

/-- A sub-select keeps the rows found. -/
def keeps (found : d.Found) : Selection → Bool
  | .rows test => d.passes found test
  | .elements column values _ =>
    match d.value found column with
    | some value => values.any fun v => d.literal v == some value
    | none => false

/-- The number of different values that an expression has on the rows found with a sort key. -/
def countValues (found : List d.Found) (sortKey : String) (key : Option String) (column : Scalar) :
    Nat :=
  ((found.filter fun f => d.cellAt f innerRoot sortKey == key).map (d.value · column)).dedup.length

/-- The sort keys that the sub-select of a membership gives. -/
def keys (m : Membership) : List (Option String) :=
  let kept := (d.selectFrom m.table innerRoot m.joins).filter (d.keeps · m.selection)
  let keys := kept.map (d.cellAt · innerRoot m.sortKey)
  match m.selection with
  | .elements column values true =>
    keys.filter fun key => d.countValues kept m.sortKey key column == values.length
  | _ => keys

/-- The sort key of a row is among those that a sub-select gives. -/
def isMember (m : Membership) (row : d.Row) : Bool := (d.keys m).contains (d.cell row m.sortKey)

/-- An atom of a condition holds of a row of the root table. -/
def selects (row : d.Row) : FeatureAtom → Bool
  | .test t => d.passes (d.start outerRoot row) t
  | .member m => d.isMember m row != m.isNegated

/-- The negation of a condition selects exactly the other rows. -/
theorem holds_negated (row : d.Row) (c : FeatureCondition) :
    (FeatureCondition.negated c).holds (d.selects row) = !c.holds (d.selects row) := by
  rw [FeatureCondition.negated.eq_def]
  split
  · rename_i m
    rw [Condition.holds, Condition.holds, selects, selects]
    -- the sub-select does not depend on the operator in front of it
    show (d.isMember m row != !m.isNegated) = !(d.isMember m row != m.isNegated)
    cases d.isMember m row <;> cases m.isNegated <;> rfl
  · rw [Condition.holds]

/-- What the sub-select of a membership finds under the sort key of a row, before it tests it. -/
def reached (m : Membership) (row : d.Row) : List d.Found :=
  (d.selectFrom m.table innerRoot m.joins).filter fun found =>
    d.cellAt found innerRoot m.sortKey == d.cell row m.sortKey

/-- A row is a member only through what is reached from it and kept. -/
theorem exists_reached_of_isMember {m : Membership} {row : d.Row} (h : d.isMember m row = true) :
    ∃ found ∈ d.reached m row, d.keeps found m.selection = true := by
  have hkeys : d.cell row m.sortKey ∈ ((d.selectFrom m.table innerRoot m.joins).filter
      (d.keeps · m.selection)).map (d.cellAt · innerRoot m.sortKey) := by
    rw [isMember, List.contains_iff_mem, keys] at h
    split at h
    · exact List.mem_of_mem_filter h
    · exact h
  obtain ⟨found, hfound, hkey⟩ := List.mem_map.1 hkeys
  obtain ⟨hmem, hkeeps⟩ := List.mem_filter.1 hfound
  exact ⟨found, List.mem_filter.2 ⟨hmem, beq_iff_eq.2 hkey⟩, hkeeps⟩

/-- With a test, a row is a member if something that is reached from it passes. -/
theorem isMember_eq_any {m : Membership} {test : Test} (hselection : m.selection = .rows test)
    (row : d.Row) : d.isMember m row = (d.reached m row).any (d.passes · test) := by
  rw [Bool.eq_iff_iff, List.any_eq_true]
  constructor
  · intro h
    obtain ⟨found, hfound, hkeeps⟩ := d.exists_reached_of_isMember h
    rw [hselection] at hkeeps
    exact ⟨found, hfound, hkeeps⟩
  · rintro ⟨found, hfound, hpasses⟩
    obtain ⟨hmem, hkey⟩ := List.mem_filter.1 hfound
    rw [isMember, List.contains_iff_mem, keys, hselection]
    exact List.mem_map.2 ⟨found, List.mem_filter.2 ⟨hmem, hpasses⟩, beq_iff_eq.1 hkey⟩

/-- Every row found under the first alias is one of the root table, and the joins begin with it. -/
theorem exists_start_of_mem_selectFrom {table : String} {name : Alias} {joins : List Join}
    {found : d.Found} (h : found ∈ d.selectFrom table name joins) :
    ∃ row ∈ d.rows (Sql.ofText table), found ∈ d.joined joins (d.start name row) :=
  List.mem_flatMap.1 h

end Database

/-! ## Tables of texts -/

namespace Database

/-- The row under an alias has a value in a column, or a literal has one. -/
def textOf (found : Alias → Option (List (String × String))) : Scalar → Option String
  | .column table name => (found table).bind fun row => row.lookup name
  | .literal .null => none
  | .literal (.text text) => some text
  | .literal value => some (value.sql.render 0)
  | _ => none

/-- Two expressions have the same value. -/
def sameText (found : Alias → Option (List (String × String))) (left right : Scalar) : Bool :=
  (textOf found left).isSome && textOf found left == textOf found right

/-- A database of a few tables, whose tests compare for equality. -/
def ofTables (tables : List (String × List (List (String × String)))) : Database where
  Row := List (String × String)
  rows target := (tables.lookup (target.render 0)).getD []
  cell row column := row.lookup column
  passes found
    | .compare .eq left right => sameText found left right
    | .oneOf value list negated => list.any (sameText found value) != negated
    | _ => false
  value := textOf
  literal value := textOf (fun _ => none) (.literal value)
  passes_outside found value list := by
    cases h : list.any (sameText found value) <;> simp [h]

end Database

end FeatureStore
