import FeatureStore.Proofs.Outcomes
import FeatureStore.Sql.Membership
import FeatureStore.Table.Derivation

/-!
# Elements of literal arrays

A relation between two literal arrays is decided at once. Whether an array contains another one, is
contained in it or shares an element with it depends on the sets of their elements alone
(`Value.elements`), so these relations follow the laws of sets (`ArrayRelation.FollowsSets`). The
equality of two arrays is decided otherwise, by their lengths and by one of the two inclusions.
Where elements are repeated it departs from the equality of the sets, and
`ArrayRelation.EqualsAsSet` says exactly where (`filterText_followsSets`).
-/

set_option autoImplicit false

namespace FeatureStore

/-! ## Elements -/

/-- A list has as many members as places exactly if it repeats nothing. -/
theorem card_toFinset_eq_length_iff {α : Type} [DecidableEq α] {l : List α} :
    l.toFinset.card = l.length ↔ l.Nodup :=
  Multiset.toFinset_card_eq_card_iff_nodup (m := (l : Multiset α))

namespace Value

/-- A value that stands for all values that are the same: both zeros are the positive one. -/
def canonical : Value → Value
  | .float x => .float (if x.isZero then Binary64.zero else x)
  | v => v

/-- A value that is not even the same as itself. -/
def isNaN : Value → Bool
  | .float x => x.isNaN
  | _ => false

/-- The elements of an array, each of them once. -/
def elements (values : List Value) : Finset Value := (values.map canonical).toFinset

/-- No two places of an array hold the same value. -/
def RepeatsNone (values : List Value) : Prop := (values.map canonical).Nodup

instance : DecidablePred RepeatsNone := fun _ => inferInstanceAs (Decidable (List.Nodup _))

variable {v w : Value} {values : List Value}

theorem isNaN_canonical (v : Value) : v.canonical.isNaN = v.isNaN := by
  cases v with
  | float x =>
    rw [canonical, isNaN, isNaN]
    split
    · rename_i hzero
      rw [Binary64.isZero, beq_iff_eq] at hzero
      simp [Binary64.isNaN, hzero, Binary64.zero]
    · rfl
  | _ => rfl

/-- Numbers have the same place among the numbers exactly if they are equal or both zero. -/
theorem valueKey_eq_iff {x y : Binary64} : x.valueKey = y.valueKey ↔
    (if x.isZero then Binary64.zero else x) = if y.isZero then Binary64.zero else y := by
  obtain ⟨negative, magnitude⟩ := x
  obtain ⟨negative', magnitude'⟩ := y
  have hzero : ∀ (negative : Bool) (n : Nat), (⟨negative, n⟩ : Binary64).isZero = decide (n = 0) :=
    fun _ _ => rfl
  rw [hzero, hzero]
  -- a key has the sign of the number, but that of a zero has none
  by_cases hm : magnitude = 0 <;> by_cases hm' : magnitude' = 0 <;>
    cases negative <;> cases negative' <;>
      simp [Binary64.valueKey, Binary64.zero, hm, hm'] <;> omega

/-- Two values are the same exactly if one value stands for both, and it is a value at all. -/
theorem same_iff : v.same w = true ↔ v.canonical = w.canonical ∧ v.isNaN = false := by
  cases v with
  | float x =>
    cases w with
    | float y =>
      have hkey := valueKey_eq_iff (x := x) (y := y)
      have hnan : Value.canonical (.float x) = Value.canonical (.float y) → y.isNaN = x.isNaN := by
        intro h
        have := congrArg isNaN h
        rw [isNaN_canonical, isNaN_canonical] at this
        exact this.symm
      simp only [canonical, float.injEq] at hnan
      simp only [same, Binary64.sameValue, canonical, isNaN, Bool.and_eq_true, Bool.not_eq_true',
        beq_iff_eq, float.injEq, hkey]
      constructor
      · rintro ⟨⟨hx, -⟩, heq⟩
        exact ⟨heq, hx⟩
      · rintro ⟨heq, hx⟩
        exact ⟨⟨hx, (hnan heq).trans hx⟩, heq⟩
    | _ => simp [same, canonical]
  | _ => cases w <;> simp [same, canonical, isNaN]

theorem mem_elements : v ∈ elements values ↔ ∃ w ∈ values, w.canonical = v := by
  rw [elements, List.mem_toFinset, List.mem_map]

theorem isAmong_iff :
    isAmong values v = true ↔ v.canonical ∈ elements values ∧ v.isNaN = false := by
  simp only [isAmong, List.any_eq_true, same_iff, mem_elements]
  constructor
  · rintro ⟨w, hw, heq, hv⟩
    exact ⟨⟨w, hw, heq.symm⟩, hv⟩
  · rintro ⟨⟨w, hw, heq⟩, hv⟩
    exact ⟨w, hw, heq.symm, hv⟩

theorem elements_eq_empty : elements values = ∅ ↔ values = [] := by
  rw [elements, List.toFinset_eq_empty_iff, List.map_eq_nil_iff]

theorem elements_perm {a b : List Value} (h : a.Perm b) : elements a = elements b :=
  List.toFinset_eq_of_perm _ _ (h.map canonical)

/-- An array repeats nothing exactly if it has as many elements as places. -/
theorem repeatsNone_iff : RepeatsNone values ↔ (elements values).card = values.length := by
  rw [RepeatsNone, elements, ← card_toFinset_eq_length_iff, List.length_map]

end Value

/-! ## Relations on elements -/

namespace ArrayRelation

open Value

variable {a b a' b' : List Value}

theorem includes_iff : includes a b = true ↔
    elements b ⊆ elements a ∧ ∀ v ∈ elements b, v.isNaN = false := by
  simp only [includes, List.all_eq_true, isAmong_iff]
  constructor
  · intro h
    constructor
    · intro v hv
      obtain ⟨w, hw, rfl⟩ := mem_elements.1 hv
      exact (h w hw).1
    · intro v hv
      obtain ⟨w, hw, rfl⟩ := mem_elements.1 hv
      exact (isNaN_canonical w).trans (h w hw).2
  · rintro ⟨hsubset, hvalues⟩ w hw
    have hmem := mem_elements.2 ⟨w, hw, rfl⟩
    exact ⟨hsubset hmem, (isNaN_canonical w).symm.trans (hvalues _ hmem)⟩

theorem holds_overlaps_iff : overlaps.holds a b = true ↔
    ∃ v ∈ elements a ∩ elements b, v.isNaN = false := by
  simp only [holds, List.any_eq_true, isAmong_iff, Finset.mem_inter]
  constructor
  · rintro ⟨w, hw, hmem, hvalue⟩
    exact ⟨w.canonical, ⟨mem_elements.2 ⟨w, hw, rfl⟩, hmem⟩, (isNaN_canonical w).trans hvalue⟩
  · rintro ⟨v, ⟨hv, hmem⟩, hvalue⟩
    obtain ⟨w, hw, rfl⟩ := mem_elements.1 hv
    exact ⟨w, hw, hmem, (isNaN_canonical w).symm.trans hvalue⟩

theorem includes_congr (ha : elements a' = elements a) (hb : elements b' = elements b) :
    includes a' b' = includes a b := by
  rw [Bool.eq_iff_iff, includes_iff, includes_iff, ha, hb]

/-- Every relation but equality depends on the elements alone. -/
theorem holds_congr {relation : ArrayRelation} (hrelation : relation ≠ .equals)
    (ha : elements a' = elements a) (hb : elements b' = elements b) :
    relation.holds a' b' = relation.holds a b := by
  cases relation with
  | contains => exact includes_congr ha hb
  | containedBy => exact includes_congr hb ha
  | equals => exact absurd rfl hrelation
  | overlaps => rw [Bool.eq_iff_iff, holds_overlaps_iff, holds_overlaps_iff, ha, hb]

/-- Of two arrays of which one includes the other, the other includes the first one exactly if they
have equally many elements. -/
theorem includes_iff_card (h : includes a b = true) :
    includes b a = true ↔ (elements a).card = (elements b).card := by
  obtain ⟨hsubset, hvalues⟩ := includes_iff.1 h
  rw [includes_iff]
  constructor
  · rintro ⟨hback, -⟩
    rw [hback.antisymm hsubset]
  · intro hcard
    have heq := Finset.eq_of_subset_of_card_le hsubset hcard.le
    exact ⟨heq.ge, heq ▸ hvalues⟩

/-- What holds of all literal arrays. -/
structure FollowsSets (a b : List Value) : Prop where
  contains_iff : contains.holds a b = true ↔
    elements b ⊆ elements a ∧ ∀ v ∈ elements b, v.isNaN = false
  overlaps_iff : overlaps.holds a b = true ↔ ∃ v ∈ elements a ∩ elements b, v.isNaN = false
  contains_eq : contains.holds a b = containedBy.holds b a
  overlaps_comm : overlaps.holds a b = overlaps.holds b a
  /-- Each array contains the other one exactly if they have the same elements. -/
  both_iff : (contains.holds a b && containedBy.holds a b) = true ↔
    elements a = elements b ∧ ∀ v ∈ elements a, v.isNaN = false
  /-- Neither order nor repetition matters but for equality. -/
  congr : ∀ relation : ArrayRelation, relation ≠ .equals → ∀ a' b', elements a' = elements a →
    elements b' = elements b → relation.holds a' b' = relation.holds a b
  /-- The order never matters. -/
  perm : ∀ (relation : ArrayRelation) (a' b' : List Value), a'.Perm a → b'.Perm b →
    relation.holds a' b' = relation.holds a b

theorem followsSets (a b : List Value) : FollowsSets a b := by
  constructor
  · exact includes_iff
  · exact holds_overlaps_iff
  · rfl
  · rw [Bool.eq_iff_iff, holds_overlaps_iff, holds_overlaps_iff, Finset.inter_comm]
  · rw [Bool.and_eq_true]
    constructor
    · rintro ⟨hcontains, hcontained⟩
      obtain ⟨hsubset, -⟩ := includes_iff.1 hcontains
      obtain ⟨hback, hvalues⟩ := includes_iff.1 hcontained
      exact ⟨hback.antisymm hsubset, hvalues⟩
    · rintro ⟨heq, hvalues⟩
      exact ⟨includes_iff.2 ⟨heq.ge, heq ▸ hvalues⟩, includes_iff.2 ⟨heq.le, hvalues⟩⟩
  · intro relation hrelation a' b' ha hb
    exact holds_congr hrelation ha hb
  · intro relation a' b' ha hb
    by_cases hrelation : relation = .equals
    · subst hrelation
      rw [holds, holds, ha.length_eq, hb.length_eq,
        includes_congr (elements_perm ha) (elements_perm hb)]
    · exact holds_congr hrelation (elements_perm ha) (elements_perm hb)

/-- Where the equality of two literal arrays is that of the sets of their elements. -/
structure EqualsAsSet (a b : List Value) : Prop where
  /-- It says that both arrays contain each other exactly if, where the first one contains the
  second one, they are equally long exactly if they have equally many elements. -/
  both_iff : equals.holds a b = (contains.holds a b && containedBy.holds a b) ↔
    (contains.holds a b = true → (a.length = b.length ↔ (elements a).card = (elements b).card))
  /-- It is symmetric exactly if arrays of one length of which one contains the other have equally
  many elements. -/
  comm_iff : equals.holds a b = equals.holds b a ↔
    (a.length = b.length → contains.holds a b = true ∨ contains.holds b a = true →
      (elements a).card = (elements b).card)
  /-- Repetition does not matter exactly if the first array does not contain the second one, or the
  second one is empty. -/
  congr_iff : (∀ a' b', elements a' = elements a → elements b' = elements b →
      equals.holds a' b' = equals.holds a b) ↔ (contains.holds a b = true → b = [])
  /-- It is as the sets have it if neither array repeats an element. -/
  of_repeatsNone : RepeatsNone a → RepeatsNone b →
    equals.holds a b = (contains.holds a b && containedBy.holds a b) ∧
      equals.holds a b = equals.holds b a

theorem holds_equals_iff_both :
    equals.holds a b = (contains.holds a b && containedBy.holds a b) ↔
      (contains.holds a b = true →
        (a.length = b.length ↔ (elements a).card = (elements b).card)) := by
  show (a.length == b.length && includes a b) = (includes a b && includes b a) ↔ _
  cases hincludes : includes a b with
  | false => simp [holds, hincludes]
  | true =>
    rw [Bool.and_true, Bool.true_and, holds, hincludes, forall_prop_of_true rfl, Bool.eq_iff_iff,
      beq_iff_eq, includes_iff_card hincludes]

theorem holds_equals_comm_iff : equals.holds a b = equals.holds b a ↔
    (a.length = b.length → contains.holds a b = true ∨ contains.holds b a = true →
      (elements a).card = (elements b).card) := by
  show (a.length == b.length && includes a b) = (b.length == a.length && includes b a) ↔
    (a.length = b.length → includes a b = true ∨ includes b a = true → _)
  by_cases hlength : a.length = b.length
  · rw [beq_iff_eq.2 hlength, beq_iff_eq.2 hlength.symm, Bool.true_and, Bool.true_and,
      forall_prop_of_true hlength, Bool.eq_iff_iff]
    constructor
    · rintro hiff (h | h)
      · exact (includes_iff_card h).1 (hiff.1 h)
      · exact ((includes_iff_card h).1 (hiff.2 h)).symm
    · intro hcard
      exact ⟨fun h => (includes_iff_card h).2 (hcard (.inl h)),
        fun h => (includes_iff_card h).2 (hcard (.inr h)).symm⟩
  · rw [beq_eq_false_iff_ne.2 hlength, beq_eq_false_iff_ne.2 (Ne.symm hlength)]
    exact iff_of_true rfl fun h => absurd h hlength

/-- More copies of an element change the length of an array alone. -/
theorem elements_replicate {v : Value} (hv : v ∈ a) (n : Nat) :
    elements (List.replicate n v ++ a) = elements a := by
  ext w
  simp only [mem_elements, List.mem_append, List.mem_replicate]
  constructor
  · rintro ⟨u, ⟨-, rfl⟩ | hu, hw⟩
    · exact ⟨u, hv, hw⟩
    · exact ⟨u, hu, hw⟩
  · rintro ⟨u, hu, hw⟩
    exact ⟨u, .inr hu, hw⟩

theorem holds_equals_congr_iff : (∀ a' b', elements a' = elements a → elements b' = elements b →
    equals.holds a' b' = equals.holds a b) ↔ (contains.holds a b = true → b = []) := by
  constructor
  · intro hcongr hcontains
    by_contra hne
    obtain ⟨w, hw⟩ := List.exists_mem_of_ne_nil b hne
    obtain ⟨v, hv, -⟩ : ∃ v ∈ a, v.canonical = w.canonical :=
      mem_elements.1 ((includes_iff.1 hcontains).1 (mem_elements.2 ⟨w, hw, rfl⟩))
    -- with copies of an element the arrays become equally long, and with one more they do not
    have hsame := hcongr _ _ (elements_replicate hv b.length) (elements_replicate hw a.length)
    have hlonger := hcongr _ _ (elements_replicate hv (b.length + 1))
      (elements_replicate hw a.length)
    rw [← hsame] at hlonger
    have hincludes : ∀ n m,
        includes (List.replicate n v ++ a) (List.replicate m w ++ b) = true := by
      intro n m
      exact (includes_congr (elements_replicate hv n) (elements_replicate hw m)).trans hcontains
    simp only [holds, hincludes, Bool.and_true, List.length_append,
      List.length_replicate] at hlonger
    rw [Bool.eq_iff_iff, beq_iff_eq, beq_iff_eq] at hlonger
    omega
  · intro hnil a' b' ha hb
    show (a'.length == b'.length && includes a' b') = (a.length == b.length && includes a b)
    rw [includes_congr ha hb]
    cases hcontains : includes a b with
    | false => simp
    | true =>
      -- then both second arrays are empty, and the first ones are empty or neither is
      obtain rfl := hnil hcontains
      obtain rfl := elements_eq_empty.1 (hb.trans (elements_eq_empty.2 rfl))
      have hempty : a' = [] ↔ a = [] := by
        rw [← elements_eq_empty, ha, elements_eq_empty]
      simp only [Bool.and_true, List.length_nil]
      rw [Bool.eq_iff_iff, beq_iff_eq, beq_iff_eq, List.length_eq_zero_iff,
        List.length_eq_zero_iff, hempty]

theorem equalsAsSet (a b : List Value) : EqualsAsSet a b := by
  refine ⟨holds_equals_iff_both, holds_equals_comm_iff, holds_equals_congr_iff, fun ha hb => ?_⟩
  rw [repeatsNone_iff] at ha hb
  constructor
  · rw [holds_equals_iff_both, ha, hb]
    exact fun _ => Iff.rfl
  · rw [holds_equals_comm_iff, ha, hb]
    exact fun hlength _ => hlength

end ArrayRelation

/-- The text of a truth value. -/
theorem Condition.render_constant {α : Type} (atomSql : α → Sql) (value : Bool) (level : Nat) :
    ((Condition.constant value).sql atomSql).render level = Condition.constantText value := by
  simp [sql, Sql.ofText, Sql.render, Piece.render, String.join]

/-- A relation between two literals is written as its truth value, in filters on features and on
rows alike. -/
theorem Storage.text_of_members (s : Storage) {left right : Operand} {a b : List Value}
    (hleft : left.members? = some a) (hright : right.members? = some b)
    (relation : ArrayRelation) (level : Nat) (table : String) :
    s.filterText (.array relation left right) level =
        .ok (Condition.constantText (relation.holds a b)) ∧
      s.rowFilterText (.array relation left right) table =
        .ok (Condition.constantText (relation.holds a b)) := by
  have hfeature : s.featureCondition (.array relation left right) =
      .ok (.constant (relation.holds a b)) := by
    show s.featureArray relation left right = _
    rw [featureArray, hleft, hright]
  have hrow : s.rowCondition (.named table) (.array relation left right) =
      .ok (.constant (relation.holds a b)) := by
    show rowArray relation left right = _
    rw [rowArray, hleft, hright]
  constructor
  · exact map_eq_ok.2 ⟨_, hfeature, Condition.render_constant _ _ _⟩
  · exact map_eq_ok.2 ⟨_, hrow, Condition.render_constant _ _ _⟩

/-- The truth values that relations between two literals are written as follow the laws of sets, but
for equality, which follows them exactly where lengths and numbers of elements go together. -/
theorem filterText_followsSets (s : Storage) {left right : Operand} {a b : List Value}
    (hleft : left.members? = some a) (hright : right.members? = some b) :
    (∀ relation level table,
      s.filterText (.array relation left right) level =
          .ok (Condition.constantText (relation.holds a b)) ∧
        s.rowFilterText (.array relation left right) table =
          .ok (Condition.constantText (relation.holds a b))) ∧
      ArrayRelation.FollowsSets a b ∧ ArrayRelation.EqualsAsSet a b := by
  refine ⟨fun relation level table => ?_, ArrayRelation.followsSets a b,
    ArrayRelation.equalsAsSet a b⟩
  exact s.text_of_members hleft hright relation level table

/-- A single literal beside an array that has it twice. -/
theorem filterText_followsSets_single :
    let left : Operand := .literal (.text "red")
    let right : Operand := .array [.text "red", .text "red"]
    let a : List Value := [.text "red"]
    let b : List Value := [.text "red", .text "red"]
    ∃ s : Storage, TableTree.ofPaths ["parcel/name"] = .ok s.tree ∧
      left.members? = some a ∧ right.members? = some b ∧
      (∀ relation level table,
        s.filterText (.array relation left right) level =
            .ok (Condition.constantText (relation.holds a b)) ∧
          s.rowFilterText (.array relation left right) table =
            .ok (Condition.constantText (relation.holds a b))) ∧
        ArrayRelation.FollowsSets a b ∧ ArrayRelation.EqualsAsSet a b := by
  intro left right a b
  have hrun : ((TableTree.ofPaths ["parcel/name"]).toOption).isSome = true := by decide +kernel
  obtain ⟨tree, htree⟩ := Option.isSome_iff_exists.1 hrun
  exact ⟨Storage.plain tree .postgis, toOption_eq_some.1 htree, rfl, rfl,
    filterText_followsSets _ rfl rfl⟩

/-- Red and blue are said to equal red and red, but not the other way round, although blue is not
contained in the second array. -/
theorem not_equals_repeated :
    let first : Operand := .array [.text "red", .text "blue"]
    let second : Operand := .array [.text "red", .text "red"]
    ∃ s : Storage, TableTree.ofPaths ["parcel/name"] = .ok s.tree ∧
      s.filterText (.array .equals first second) 0 = .ok "1=1" ∧
      s.filterText (.array .equals second first) 0 = .ok "1=0" ∧
      s.filterText (.array .containedBy first second) 0 = .ok "1=0" := by
  intro first second
  have hrun : ((TableTree.ofPaths ["parcel/name"]).toOption).isSome = true := by decide +kernel
  obtain ⟨tree, htree⟩ := Option.isSome_iff_exists.1 hrun
  have htext := fun relation left right (value : Bool)
      (hvalue : ArrayRelation.holds relation left right = value) =>
    (@Storage.text_of_members (Storage.plain tree .postgis) (.array left) (.array right) left right
      rfl rfl relation 0 "").1.trans (congrArg (Except.ok ∘ Condition.constantText) hvalue)
  refine ⟨Storage.plain tree .postgis, toOption_eq_some.1 htree, ?_, ?_, ?_⟩
  · exact htext .equals _ _ true (by decide +kernel)
  · exact htext .equals _ _ false (by decide +kernel)
  · exact htext .containedBy _ _ false (by decide +kernel)

end FeatureStore
