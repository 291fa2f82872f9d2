import FeatureStore.Proofs.Sql.Elements
import FeatureStore.Proofs.Sql.SharedJoins

/-!
# Elements of a property

A relation between a property and an array becomes a membership that keeps the rows with one of the
values and groups them by sort key, and `Contains` counts the different values of each group. Where
the database tells values apart as literals do (`Database.TellsApart`), this count is the number of
elements that the array shares with the values of the property (`Database.toFinset_reached_kept`).
It is compared with the length of the array, so that `Contains` asks for an array without
repetitions, while the relation between two literals does not. The two agree exactly if the array
repeats nothing or is not contained at all (`agreesExactly_of_resolve`).
-/

set_option autoImplicit false

namespace FeatureStore

/-- The other relation holds the other way round. -/
theorem ArrayRelation.holds_swapped {relation : ArrayRelation} (hrelation : relation ≠ .equals)
    (a b : List Value) : relation.swapped.holds b a = relation.holds a b := by
  cases relation with
  | equals => exact absurd rfl hrelation
  | overlaps => exact (followsSets b a).overlaps_comm
  | contains => rfl
  | containedBy => rfl

/-! ## Values in a database -/

namespace Database

variable (d : Database)

/-- Two of some values are equal in the database exactly if they are the same literal. -/
def TellsApart (values : List Value) : Prop :=
  ∀ v ∈ values, ∀ w ∈ values, (d.literal v = d.literal w ↔ v.same w = true)

/-- What the literals of an array are in the database. -/
def literals (values : List Value) : Finset (Option String) := (values.map d.literal).toFinset

/-- The values that an expression has on some rows, where it has one, are those of an array. -/
def HasValues (found : List d.Found) (column : Scalar) (values : List Value) : Prop :=
  (found.map (d.value · column)).toFinset.erase none = d.literals values

instance (values : List Value) : Decidable (d.TellsApart values) :=
  inferInstanceAs (Decidable (∀ v ∈ values, ∀ w ∈ values,
    (d.literal v = d.literal w ↔ v.same w = true)))

instance (found : List d.Found) (column : Scalar) (values : List Value) :
    Decidable (d.HasValues found column values) :=
  inferInstanceAs (Decidable (_ = d.literals values))

variable {d} {own values more : List Value} {v w : Value}

theorem mem_literals {text : Option String} :
    text ∈ d.literals values ↔ ∃ v ∈ values, d.literal v = text := by
  rw [literals, List.mem_toFinset, List.mem_map]

namespace TellsApart

theorem mono (h : d.TellsApart more) (hsub : values ⊆ more) :
    d.TellsApart values :=
  fun v hv w hw => h v (hsub hv) w (hsub hw)

theorem isNaN_eq_false (h : d.TellsApart values) (hv : v ∈ values) : v.isNaN = false :=
  (Value.same_iff.1 ((h v hv v hv).1 rfl)).2

theorem literal_eq_iff (h : d.TellsApart values) (hv : v ∈ values) (hw : w ∈ values) :
    d.literal v = d.literal w ↔ v.canonical = w.canonical := by
  rw [h v hv w hw, Value.same_iff, h.isNaN_eq_false hv, and_iff_left rfl]

/-- A value is among others exactly if the database has it among theirs. -/
theorem isAmong_iff (h : d.TellsApart more) (hsub : values ⊆ more) (hv : v ∈ more) :
    Value.isAmong values v = true ↔ d.literal v ∈ d.literals values := by
  rw [Value.isAmong, List.any_eq_true, mem_literals]
  constructor
  · rintro ⟨w, hw, hsame⟩
    exact ⟨w, hw, ((h v hv w (hsub hw)).2 hsame).symm⟩
  · rintro ⟨w, hw, heq⟩
    exact ⟨w, hw, (h v hv w (hsub hw)).1 heq.symm⟩

/-- An array is contained exactly if the database has all its literals among the others. -/
theorem holds_contains_iff (h : d.TellsApart (own ++ values)) :
    ArrayRelation.contains.holds own values = true ↔ d.literals values ⊆ d.literals own := by
  have hown := List.subset_append_left own values
  have hvalues := List.subset_append_right own values
  rw [ArrayRelation.holds, ArrayRelation.includes, List.all_eq_true]
  constructor
  · intro hall text htext
    obtain ⟨v, hv, rfl⟩ := mem_literals.1 htext
    exact (h.isAmong_iff hown (hvalues hv)).1 (hall v hv)
  · intro hsubset v hv
    exact (h.isAmong_iff hown (hvalues hv)).2 (hsubset (mem_literals.2 ⟨v, hv, rfl⟩))

/-- Two arrays share an element exactly if the database has a literal of both. -/
theorem holds_overlaps_iff (h : d.TellsApart (own ++ values)) :
    ArrayRelation.overlaps.holds own values = true ↔
      (d.literals own ∩ d.literals values).Nonempty := by
  have hown := List.subset_append_left own values
  have hvalues := List.subset_append_right own values
  rw [ArrayRelation.holds, List.any_eq_true]
  constructor
  · rintro ⟨v, hv, hamong⟩
    have hmem := (h.isAmong_iff hvalues (hown hv)).1 hamong
    exact ⟨d.literal v, Finset.mem_inter.2 ⟨mem_literals.2 ⟨v, hv, rfl⟩, hmem⟩⟩
  · rintro ⟨text, htext⟩
    obtain ⟨hmem, hother⟩ := Finset.mem_inter.1 htext
    obtain ⟨v, hv, rfl⟩ := mem_literals.1 hmem
    exact ⟨v, hv, (h.isAmong_iff hvalues (hown hv)).2 hother⟩

/-- The database has as many literals of an array as it has places exactly if it repeats nothing. -/
theorem card_literals_iff (h : d.TellsApart values) :
    (d.literals values).card = values.length ↔ Value.RepeatsNone values := by
  rw [← List.length_map (f := d.literal), literals, card_toFinset_eq_length_iff, Value.RepeatsNone,
    List.Nodup, List.Nodup, List.pairwise_map, List.pairwise_map]
  exact List.Pairwise.iff_of_mem fun hv hw => not_congr (h.literal_eq_iff hv hw)

end TellsApart

/-! ## Groups of rows -/

section Groups

variable {m : Membership} {column : Scalar} {complete : Bool} {row : d.Row}

/-- A row is a member if its group has a row that is kept and, if all values are asked for, as many
different values as there are places in the array. -/
theorem isMember_iff_card (hselection : m.selection = .elements column values complete) :
    d.isMember m row = true ↔
      (∃ found ∈ d.reached m row, d.keeps found m.selection = true) ∧
        (complete = true → (((d.reached m row).filter (d.keeps · m.selection)).map
          (d.value · column)).toFinset.card = values.length) := by
  have hcount : d.countValues ((d.selectFrom m.table innerRoot m.joins).filter
      (d.keeps · m.selection)) m.sortKey (d.cell row m.sortKey) column =
        (((d.reached m row).filter (d.keeps · m.selection)).map
          (d.value · column)).toFinset.card := by
    -- the sub-select keeps rows before it groups them, but either test may come first
    rw [countValues, reached, List.filter_comm, List.card_toFinset]
  have hmem : d.cell row m.sortKey ∈ ((d.selectFrom m.table innerRoot m.joins).filter
      (d.keeps · m.selection)).map (d.cellAt · innerRoot m.sortKey) ↔
        ∃ found ∈ d.reached m row, d.keeps found m.selection = true := by
    simp only [reached, List.mem_map, List.mem_filter, beq_iff_eq]
    constructor
    · rintro ⟨found, ⟨hfound, hkeeps⟩, hkey⟩
      exact ⟨found, ⟨hfound, hkey⟩, hkeeps⟩
    · rintro ⟨found, ⟨hfound, hkey⟩, hkeeps⟩
      exact ⟨found, ⟨hfound, hkeeps⟩, hkey⟩
  rw [isMember, List.contains_iff_mem, ← hmem, ← hcount, keys, hselection]
  cases complete with
  | false => simp
  | true => simp [List.mem_filter]

/-- The values that are kept are those of the rows that the array has too. -/
theorem toFinset_map_filter_keeps (found : List d.Found) (column : Scalar) (values : List Value)
    (complete : Bool) : ((found.filter (d.keeps · (.elements column values complete))).map
      (d.value · column)).toFinset =
        (found.map (d.value · column)).toFinset.erase none ∩ d.literals values := by
  ext text
  simp only [List.mem_toFinset, List.mem_map, List.mem_filter, Finset.mem_inter, Finset.mem_erase,
    mem_literals]
  constructor
  · rintro ⟨f, ⟨hf, hkeeps⟩, rfl⟩
    rw [keeps] at hkeeps
    split at hkeeps
    · rename_i text htext
      obtain ⟨v, hv, heq⟩ := List.any_eq_true.1 hkeeps
      exact ⟨⟨by simp [htext], f, hf, rfl⟩, v, hv, (beq_iff_eq.1 heq).trans htext.symm⟩
    · simp at hkeeps
  · rintro ⟨⟨hne, f, hf, rfl⟩, v, hv, heq⟩
    refine ⟨f, ⟨hf, ?_⟩, rfl⟩
    rw [keeps]
    split
    · rename_i text htext
      exact List.any_eq_true.2 ⟨v, hv, beq_iff_eq.2 (heq.trans htext)⟩
    · rename_i hnone
      exact absurd hnone hne

/-- Of a set with at most `n` elements another one has `n` exactly if it has them all and they are
`n`. -/
theorem card_inter_eq_iff {α : Type} [DecidableEq α] {a b : Finset α} {n : Nat} (hn : b.card ≤ n) :
    (a ∩ b).card = n ↔ b ⊆ a ∧ b.card = n := by
  constructor
  · intro hcard
    have hsubset : a ∩ b ⊆ b := Finset.inter_subset_right
    have hinter := Finset.eq_of_subset_of_card_le hsubset (hn.trans hcard.ge)
    exact ⟨Finset.inter_eq_right.1 hinter, hn.antisymm (hcard ▸ Finset.card_le_card hsubset)⟩
  · rintro ⟨hsubset, hcard⟩
    rw [Finset.inter_eq_right.2 hsubset, hcard]

/-- The different values of a group that are kept are those that the array has too. -/
theorem toFinset_reached_kept (hselection : m.selection = .elements column values complete)
    (hown : d.HasValues (d.reached m row) column own) :
    (((d.reached m row).filter (d.keeps · m.selection)).map (d.value · column)).toFinset =
      d.literals own ∩ d.literals values := by
  rw [hselection, toFinset_map_filter_keeps, hown]

theorem exists_kept_iff (hselection : m.selection = .elements column values complete)
    (hown : d.HasValues (d.reached m row) column own) :
    (∃ found ∈ d.reached m row, d.keeps found m.selection = true) ↔
      (d.literals own ∩ d.literals values).Nonempty := by
  rw [← toFinset_reached_kept hselection hown, List.toFinset_nonempty_iff, ne_eq,
    List.map_eq_nil_iff, List.filter_eq_nil_iff]
  simp

/-- Without a count, a row is a member if the values of its group and the array share an element. -/
theorem isMember_eq_overlaps (hselection : m.selection = .elements column values false)
    (hvalues : d.TellsApart (own ++ values)) (hown : d.HasValues (d.reached m row) column own) :
    d.isMember m row = ArrayRelation.overlaps.holds own values := by
  rw [Bool.eq_iff_iff, isMember_iff_card hselection, exists_kept_iff hselection hown,
    hvalues.holds_overlaps_iff]
  simp

/-- With a count, a row is a member if the values of its group contain the array and the array
repeats nothing. -/
theorem isMember_eq_contains (hselection : m.selection = .elements column values true)
    (hne : values ≠ []) (hvalues : d.TellsApart (own ++ values))
    (hown : d.HasValues (d.reached m row) column own) :
    d.isMember m row =
      (ArrayRelation.contains.holds own values && decide (Value.RepeatsNone values)) := by
  have hlast : d.TellsApart values := hvalues.mono (List.subset_append_right _ _)
  -- the array has at most as many different literals as places, and loses one with each repetition
  have hle : (d.literals values).card ≤ values.length :=
    (List.toFinset_card_le _).trans_eq (List.length_map _)
  rw [Bool.eq_iff_iff, isMember_iff_card hselection, exists_kept_iff hselection hown,
    toFinset_reached_kept hselection hown, forall_prop_of_true rfl, card_inter_eq_iff hle,
    hlast.card_literals_iff, Bool.and_eq_true, decide_eq_true_iff, hvalues.holds_contains_iff]
  refine and_iff_right_of_imp ?_
  rintro ⟨hsubset, -⟩
  obtain ⟨v, hv⟩ := List.exists_mem_of_ne_nil values hne
  have hmem : d.literal v ∈ d.literals values := mem_literals.2 ⟨v, hv, rfl⟩
  exact ⟨_, Finset.mem_inter.2 ⟨hsubset hmem, hmem⟩⟩

end Groups

end Database

/-! ## Groups of single rows -/

namespace Membership.Joins

variable {s : Storage} {m : Membership} {table : Table} {name : Alias}

/-- In the root table itself no table is joined. -/
theorem name_eq_innerRoot (htree : s.tree.IsDerived) (hm : m.Joins s s.root name) :
    name = innerRoot := by
  have hgenerated := hm.generated
  rw [show s.root.relations = [] from htree.root_relations] at hgenerated
  have hleads := hm.leads
  rw [← Except.ok.inj hgenerated] at hleads
  cases hleads
  rfl

/-- Where the sort key tells the root rows apart, the group of a root row is what the joins find
below it. -/
theorem mem_reached_iff (hm : m.Joins s table name) {d : Database} {row : d.Row}
    (hkey : d.IsKey s.root.name s.root.sortKey) (hrow : row ∈ d.rows (Sql.ofText s.root.name))
    (found : d.Found) :
    found ∈ d.reached m row ↔ found ∈ d.joined m.joins (d.start innerRoot row) := by
  -- no join takes the alias of the root, so the row that the joins began with is still there
  have hname : ∀ j ∈ m.joins, j.target.name ≠ innerRoot := by
    intro j hj heq
    have hnodup := (List.nodup_cons.1 (hm.nodup 0)).2
    rw [Membership.aliases, List.map_cons, List.nodup_cons] at hnodup
    refine hnodup.1 (List.mem_map.2 ⟨j.target.name, List.mem_map_of_mem hj, ?_⟩)
    rw [heq]
  have hroot : ∀ {start : d.Row}, found ∈ d.joined m.joins (d.start innerRoot start) →
      d.cellAt found innerRoot s.root.sortKey = d.cell start s.root.sortKey := by
    intro start hfound
    rw [Database.cellAt, Database.joined_of_ne hname hfound, Database.start,
      Function.update_self]
    rfl
  rw [Database.reached, List.mem_filter, beq_iff_eq, hm.sortKey_eq, hm.table_eq]
  constructor
  · rintro ⟨hfound, hcell⟩
    obtain ⟨start, hstart, hfound⟩ := d.exists_start_of_mem_selectFrom hfound
    rw [hroot hfound] at hcell
    rwa [← hkey start hstart row hrow hcell]
  · intro hfound
    exact ⟨List.mem_flatMap.2 ⟨row, hrow, hfound⟩, hroot hfound⟩

end Membership.Joins

/-! ## Relations with a property -/

namespace Storage

/-- A membership stands for the relations between a property and an array, with the property on
either side. -/
structure ReadsElements (s : Storage) (property : String) (values : List Value) (m : Membership)
    (column : Scalar) : Prop where
  contains : s.featureCondition (.array .contains (.property property) (.array values)) =
    .ok (.atom (.member { m with selection := .elements column values true }))
  containedBy : s.featureCondition (.array .containedBy (.array values) (.property property)) =
    .ok (.atom (.member { m with selection := .elements column values true }))
  overlaps : s.featureCondition (.array .overlaps (.property property) (.array values)) =
    .ok (.atom (.member { m with selection := .elements column values false }))
  overlaps_swapped : s.featureCondition (.array .overlaps (.array values) (.property property)) =
    .ok (.atom (.member { m with selection := .elements column values false }))

/-- A row fulfils the condition that one filter stands for exactly if the other filter is true by
its literals alone. -/
def SelectsAsFolded (s : Storage) (d : Database) (row : d.Row) (filter folded : Filter) : Prop :=
  ∃ (c : FeatureCondition) (value : Bool), s.featureCondition filter = .ok c ∧
    s.featureCondition folded = .ok (.constant value) ∧ c.holds (d.selects row) = value

/-- A row fulfils a relation between a property and an array, with either of them on the left,
exactly if it is true with an array of the row's own values in place of the property. -/
structure AgreesOn (s : Storage) (relation : ArrayRelation) (property : String)
    (values : List Value) (d : Database) (row : d.Row) (own : List Value) : Prop where
  direct : s.SelectsAsFolded d row (.array relation (.property property) (.array values))
    (.array relation (.array own) (.array values))
  swapped : s.SelectsAsFolded d row
    (.array relation.swapped (.array values) (.property property))
    (.array relation.swapped (.array values) (.array own))

variable {s : Storage} {property column : String} {table : Table} {values own : List Value}

/-- The only table that a property is read from. -/
theorem exists_joinedTable (htree : s.tree.IsDerived)
    (hresolve : s.resolve property = .ok (table, column)) :
    ∃ found, s.joinedTable [property] = .ok found ∧ found.getD s.root = table := by
  rw [joinedTable, joinedTableFrom, hresolve]
  cases hroot : table.isRoot with
  | true =>
    have heq : table = s.root := htree.eq_root_of_isRoot (mem_tables_of_resolve hresolve) hroot
    exact ⟨none, by simp [hroot, joinedTableFrom, bind, Except.bind], heq.symm⟩
  | false => exact ⟨some table, by simp [hroot, joinedTableFrom, bind, Except.bind], rfl⟩

/-- A property is read from its table under the alias that the joins lead to. -/
theorem scalar_property (htree : s.tree.IsDerived)
    (hresolve : s.resolve property = .ok (table, column)) {name : Alias}
    (hname : table = s.root → name = innerRoot) :
    s.scalar (Scope.reading (s.boundInside table name)) (.property property) =
      .ok (.column name column) := by
  have hlookup : List.lookup table.path [(s.root.path, innerRoot), (table.path, name)] =
      some name := by
    by_cases hroot : table = s.root
    · rw [hroot, List.lookup_cons_self, hname hroot]
    · have hpath : table.path ≠ s.root.path := fun hpath => hroot <|
        List.inj_on_of_nodup_map htree.nodup_paths (mem_tables_of_resolve hresolve)
          (mem_tables_root s) hpath
      rw [List.lookup_cons, beq_eq_false_iff_ne.2 hpath, List.lookup_cons_self]
  rw [scalar, Scope.reading, boundInside, Storage.column, hresolve]
  simp only [List.map_cons, List.map_nil, bind, Except.bind, hlookup]
  rfl

/-- Relations between a property and an array are memberships in the table of the property. -/
theorem exists_readsElements (htree : s.tree.IsDerived)
    (hresolve : s.resolve property = .ok (table, column)) (values : List Value) :
    ∃ (m : Membership) (name : Alias), m.isNegated = false ∧
      (∀ selection, Membership.Joins s { m with selection } table name) ∧
      s.ReadsElements property values m (.column name column) := by
  obtain ⟨m, name, hnegated, hjoins, hmembership⟩ :=
    exists_membership htree (mem_tables_of_resolve hresolve)
  have hname : table = s.root → name = innerRoot := by
    rintro rfl
    exact (hjoins default).name_eq_innerRoot htree
  have hscalar := scalar_property htree hresolve hname
  obtain ⟨found, hfound, hgetD⟩ := exists_joinedTable htree hresolve
  -- whichever side the property is on, the relation is turned to have it on the left
  have hcompiled : ∀ complete : Bool, (do
      let found ← s.joinedTable [property]
      s.membership (found.getD s.root) fun scope =>
        (s.scalar scope (.property property)).map (.elements · values complete) :
          Except Error FeatureCondition) =
      .ok (.atom (.member
        { m with selection := .elements (.column name column) values complete })) := by
    intro complete
    refine bind_eq_ok.2 ⟨found, hfound, ?_⟩
    rw [hgetD, hmembership, hscalar]
    rfl
  exact ⟨m, name, hnegated, hjoins, hcompiled true, hcompiled true, hcompiled false,
    hcompiled false⟩

/-- A row is selected by a membership as literals are folded if it is a member where the relation
holds between them. -/
theorem selectsAsFolded_iff {d : Database} {row : d.Row} {m : Membership} {filter : Filter}
    (hfilter : s.featureCondition filter = .ok (.atom (.member m))) (hnegated : m.isNegated = false)
    (relation : ArrayRelation) (a b : List Value) :
    s.SelectsAsFolded d row filter (.array relation (.array a) (.array b)) ↔
      d.isMember m row = relation.holds a b := by
  have hholds : (Condition.atom (.member m)).holds (d.selects row) = d.isMember m row := by
    rw [Condition.holds, Database.selects, hnegated, Bool.bne_false]
  constructor
  · rintro ⟨c, value, hc, hvalue, heq⟩
    obtain rfl := Except.ok.inj (hfilter.symm.trans hc)
    obtain rfl : relation.holds a b = value := Condition.constant.inj (Except.ok.inj hvalue)
    rw [← hholds, heq]
  · intro heq
    exact ⟨_, _, hfilter, rfl, hholds.trans heq⟩

/-- A relation for which a row is asked to be a member agrees if the row is one where the relation
holds of its own values. -/
theorem agreesOn_iff {relation : ArrayRelation} {m : Membership}
    (hdirect : s.featureCondition (.array relation (.property property) (.array values)) =
      .ok (.atom (.member m)))
    (hswapped : s.featureCondition
      (.array relation.swapped (.array values) (.property property)) = .ok (.atom (.member m)))
    (hnegated : m.isNegated = false) (hrelation : relation ≠ .equals) {d : Database} {row : d.Row} :
    s.AgreesOn relation property values d row own ↔
      d.isMember m row = relation.holds own values := by
  have hsame : relation.swapped.holds values own = relation.holds own values :=
    ArrayRelation.holds_swapped hrelation own values
  constructor
  · intro hagrees
    exact (selectsAsFolded_iff hdirect hnegated _ _ _).1 hagrees.direct
  · intro hmember
    exact ⟨(selectsAsFolded_iff hdirect hnegated _ _ _).2 hmember,
      (selectsAsFolded_iff hswapped hnegated _ _ _).2 (hmember.trans hsame.symm)⟩

/-- Where a row fulfils the relations between a property and an array exactly if they are true with
its own values. -/
structure AgreesExactly (s : Storage) (property : String) (values : List Value) (m : Membership)
    (column : Scalar) (d : Database) (row : d.Row) (own : List Value) : Prop where
  /-- The rows with the same sort key lend each other their values, and an array that repeats a
  value is never contained. -/
  contains_iff : ∀ grouped, d.TellsApart (grouped ++ values) →
    d.HasValues (d.reached m row) column grouped →
      (s.AgreesOn .contains property values d row own ↔ ArrayRelation.contains.holds own values =
        (ArrayRelation.contains.holds grouped values && decide (Value.RepeatsNone values)))
  overlaps_iff : ∀ grouped, d.TellsApart (grouped ++ values) →
    d.HasValues (d.reached m row) column grouped →
      (s.AgreesOn .overlaps property values d row own ↔
        ArrayRelation.overlaps.holds own values = ArrayRelation.overlaps.holds grouped values)
  /-- If the sort key tells the root rows apart, an array that repeats a value is the only matter,
  and only where its values are all among those of the row. -/
  of_isKey : d.IsKey s.root.name s.root.sortKey → row ∈ d.rows (Sql.ofText s.root.name) →
    d.TellsApart (own ++ values) →
      d.HasValues (d.joined m.joins (d.start innerRoot row)) column own →
        s.AgreesOn .overlaps property values d row own ∧
          (s.AgreesOn .contains property values d row own ↔
            (ArrayRelation.contains.holds own values = true → Value.RepeatsNone values))

/-- What a membership asks of the values of a group decides where a row agrees with its own. -/
theorem ReadsElements.agreesExactly {m : Membership} {name : Alias}
    (hreads : s.ReadsElements property values m (.column name column))
    (hjoins : m.Joins s table name) (hnegated : m.isNegated = false) (hne : values ≠ [])
    (d : Database) (row : d.Row) (own : List Value) :
    s.AgreesExactly property values m (.column name column) d row own := by
  have hcontains : ∀ grouped, d.TellsApart (grouped ++ values) →
      d.HasValues (d.reached m row) (.column name column) grouped →
        (s.AgreesOn .contains property values d row own ↔
          ArrayRelation.contains.holds own values =
            (ArrayRelation.contains.holds grouped values &&
              decide (Value.RepeatsNone values))) := by
    intro grouped happart hgrouped
    have hmember := Database.isMember_eq_contains
      (m := { m with selection := .elements (.column name column) values true }) rfl hne happart
      hgrouped
    rw [agreesOn_iff hreads.contains hreads.containedBy hnegated (by simp), hmember, eq_comm]
  have hoverlaps : ∀ grouped, d.TellsApart (grouped ++ values) →
      d.HasValues (d.reached m row) (.column name column) grouped →
        (s.AgreesOn .overlaps property values d row own ↔
          ArrayRelation.overlaps.holds own values =
            ArrayRelation.overlaps.holds grouped values) := by
    intro grouped happart hgrouped
    have hmember := Database.isMember_eq_overlaps
      (m := { m with selection := .elements (.column name column) values false }) rfl happart
      hgrouped
    rw [agreesOn_iff hreads.overlaps hreads.overlaps_swapped hnegated (by simp), hmember, eq_comm]
  refine ⟨hcontains, hoverlaps, fun hkey hrow happart hown => ?_⟩
  -- the row is alone in its group, whose values are then its own
  have hgroup : d.HasValues (d.reached m row) (.column name column) own := by
    rw [Database.HasValues, ← hown]
    congr 1
    ext text
    simp only [List.mem_toFinset, List.mem_map, hjoins.mem_reached_iff hkey hrow]
  rw [hoverlaps own happart hgroup, hcontains own happart hgroup]
  cases ArrayRelation.contains.holds own values <;> simp

end Storage

/-- A relation between a property and an array holds of a row exactly if it holds between the values
of the row and the array, unless all values of the array are among them and the array repeats one;
the database counts different values, and compares their number with the length of the array. -/
theorem agreesExactly_of_resolve {s : Storage} (htree : s.tree.IsDerived)
    {property column : String} {table : Table}
    (hresolve : s.resolve property = .ok (table, column)) {values : List Value}
    (hne : values ≠ []) :
    ∃ (m : Membership) (name : Alias), m.Joins s table name ∧
      s.ReadsElements property values m (.column name column) ∧
      ∀ (d : Database) (row : d.Row) (own : List Value),
        s.AgreesExactly property values m (.column name column) d row own := by
  obtain ⟨m, name, hnegated, hjoins, hreads⟩ := Storage.exists_readsElements htree hresolve values
  exact ⟨m, name, hjoins m.selection, hreads,
    hreads.agreesExactly (hjoins m.selection) hnegated hne⟩

/-- The values that a membership in the elements of an array reads below a row are those of a
list. -/
def Membership.finds (m : Membership) (d : Database) (row : d.Row) (own : List Value) : Bool :=
  match m.selection with
  | .elements column _ _ =>
    decide (d.HasValues (d.joined m.joins (d.start innerRoot row)) column own)
  | .rows _ => false

/-- A parcel with two tags contains one of them. -/
theorem agreesExactly_of_resolve_tags :
    let mapping : FeatureMapping := ⟨"parcels", "parcel",
      [⟨"tags", "[id=parcel_id]parcel_2_tag/[tag_id=id]tag/label", .value, none⟩]⟩
    let row := [("id", "1")]
    let d := Database.ofTables [("parcel", [row]),
      ("parcel_2_tag",
        [[("parcel_id", "1"), ("tag_id", "7")], [("parcel_id", "1"), ("tag_id", "8")]]),
      ("tag", [[("id", "7"), ("label", "red")], [("id", "8"), ("label", "blue")]])]
    let own : List Value := [.text "blue", .text "red"]
    let values : List Value := [.text "red"]
    ∃ (s : Storage) (table : Table) (column : String), TableTree.ofMapping mapping = .ok s.tree ∧
      s.resolve "tags" = .ok (table, column) ∧ values ≠ [] ∧
      (∃ (m : Membership) (name : Alias), m.Joins s table name ∧
        s.ReadsElements "tags" values m (.column name column) ∧
        ∀ (d : Database) (row : d.Row) (own : List Value),
          s.AgreesExactly "tags" values m (.column name column) d row own) ∧
      s.AgreesOn .overlaps "tags" values d row own ∧
      s.AgreesOn .contains "tags" values d row own := by
  intro mapping row d own values
  have hrun : (do
      let tree ← TableTree.ofMapping mapping
      let s := Storage.plain tree .postgis
      let _ ← s.resolve "tags"
      let c ← s.featureCondition (.array .contains (.property "tags") (.array values))
      return (s.root.name, c.membership?.map (·.finds d row own)) :
        Except Error (String × Option Bool)).toOption = some ("parcel", some true) := by
    decide +kernel
  obtain ⟨tree, htree, hrun⟩ := bind_eq_ok.1 (toOption_eq_some.1 hrun)
  obtain ⟨⟨table, column⟩, hresolve, hrun⟩ := bind_eq_ok.1 hrun
  obtain ⟨c, hc, hrun⟩ := bind_eq_ok.1 hrun
  obtain ⟨hname, hfinds⟩ := Prod.mk.inj (pure_eq_ok.1 hrun)
  have hne : values ≠ [] := List.cons_ne_nil _ _
  obtain ⟨m, name, hm, hreads, hexact⟩ := agreesExactly_of_resolve
    (TableTree.isDerived_of_ofMapping htree) hresolve hne
  obtain rfl := Except.ok.inj (hreads.contains.symm.trans hc)
  have hown := of_decide_eq_true (Option.some.inj hfinds)
  have hrows : ∀ other : d.Row, other ∈ d.rows (Sql.ofText tree.root.name) ↔ other = row := by
    rw [show tree.root.name = "parcel" from hname]
    exact fun _ => List.mem_singleton
  have hkey : d.IsKey tree.root.name tree.root.sortKey := by
    intro a ha b hb _
    rw [(hrows a).1 ha, (hrows b).1 hb]
  obtain ⟨hoverlaps, hcontains⟩ :=
    (hexact d row own).of_isKey hkey ((hrows row).2 rfl) (by decide +kernel) hown
  exact ⟨Storage.plain tree .postgis, table, column, htree, hresolve, hne,
    ⟨m, name, hm, hreads, hexact⟩, hoverlaps, hcontains.2 fun _ => by decide +kernel⟩

/-- A red parcel is not among those whose tags contain red and red, although the array of its only
tag does. -/
theorem not_agreesOn_repeated :
    let mapping : FeatureMapping := ⟨"parcels", "parcel",
      [⟨"tags", "[id=parcel_id]parcel_2_tag/[tag_id=id]tag/label", .value, none⟩]⟩
    let row := [("id", "1")]
    let d := Database.ofTables [("parcel", [row]),
      ("parcel_2_tag", [[("parcel_id", "1"), ("tag_id", "7")]]),
      ("tag", [[("id", "7"), ("label", "red")]])]
    let own : List Value := [.text "red"]
    let values : List Value := [.text "red", .text "red"]
    ∃ (s : Storage) (m : Membership), TableTree.ofMapping mapping = .ok s.tree ∧
      s.featureCondition (.array .contains (.property "tags") (.array values)) =
        .ok (.atom (.member m)) ∧
      (m.sql s).render 0 = "A.id IN (SELECT AA.id FROM parcel AA " ++
        "JOIN parcel_2_tag AB ON (AA.id=AB.parcel_id) JOIN tag AC ON (AB.tag_id=AC.id) " ++
        "WHERE AC.label IN ('red', 'red') GROUP BY AA.id HAVING count(distinct AC.label) = 2)" ∧
      m.finds d row own = true ∧ d.isMember m row = false ∧
      s.featureCondition (.array .contains (.array own) (.array values)) =
        .ok (.constant true) := by
  intro mapping row d own values
  have hrun : (do
      let tree ← TableTree.ofMapping mapping
      let s := Storage.plain tree .postgis
      let c ← s.featureCondition (.array .contains (.property "tags") (.array values))
      return c.membership?.map fun m => ((m.sql s).render 0, m.finds d row own, d.isMember m row) :
        Except Error (Option (String × Bool × Bool))).toOption = some (some (
          "A.id IN (SELECT AA.id FROM parcel AA " ++
          "JOIN parcel_2_tag AB ON (AA.id=AB.parcel_id) JOIN tag AC ON (AB.tag_id=AC.id) " ++
          "WHERE AC.label IN ('red', 'red') GROUP BY AA.id HAVING count(distinct AC.label) = 2)",
          true, false)) := by
    decide +kernel
  obtain ⟨tree, htree, hrun⟩ := bind_eq_ok.1 (toOption_eq_some.1 hrun)
  obtain ⟨c, hc, hrun⟩ := bind_eq_ok.1 hrun
  obtain ⟨m, hm, hrun⟩ := Option.map_eq_some_iff.1 (pure_eq_ok.1 hrun)
  obtain ⟨htext, hrun⟩ := Prod.mk.inj hrun
  obtain ⟨hfinds, hmember⟩ := Prod.mk.inj hrun
  rw [FeatureCondition.membership?_eq_some.1 hm] at hc
  exact ⟨Storage.plain tree .postgis, m, htree, hc, htext, hfinds, hmember, rfl⟩

end FeatureStore
