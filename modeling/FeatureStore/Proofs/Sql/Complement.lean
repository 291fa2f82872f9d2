import FeatureStore.Proofs.Sql.Selected
import FeatureStore.Table.Derivation

/-!
# Negated filters

The negation of a filter is lowered in one of two ways. A list of alternatives is asked for the
negation of its test; every other condition is negated as a whole, a membership in its operator. The
second way selects exactly the rows that the filter does not select, and so does the first one as
long as the list is tested on the root row itself (`Storage.Complements`). A list on a joined table
is different: its negation selects the rows from which something outside the list is reached, in
place of those from which nothing inside it is (`Storage.TurnsInside`). The two agree on a row only
if something is reached from it, and all of that is inside the list or all of it outside.
-/

set_option autoImplicit false

namespace FeatureStore

/-! ## The two ways -/

/-- The filter is a list of alternatives that reads a joined table. -/
def Storage.ListsBelow (s : Storage) (filter : Filter) : Prop :=
  ∃ value list table, filter = .test (.oneOf value list) ∧
    s.joinedTable (Predicate.oneOf value list).properties = .ok (some table)

/-- The negation of the filter selects exactly the other rows, whether or not the filter stands in a
combination of its own. -/
structure Storage.Complements (s : Storage) (filter : Filter) (c d : FeatureCondition) : Prop where
  compiles : s.featureCondition (.negation filter) = .ok d
  /-- A membership is negated in its operator. -/
  flips : ∀ m, c = .atom (.member m) → d = .atom (.member { m with isNegated := !m.isNegated })
  complement : ∀ (db : Database) (row : db.Row),
    d.holds (db.selects row) = !c.holds (db.selects row)
  wrapped : ∀ wrap ∈ [Filter.all [filter], Filter.any [filter]], ∃ e,
    s.featureCondition (.negation wrap) = .ok e ∧
      ∀ (db : Database) (row : db.Row), e.holds (db.selects row) = d.holds (db.selects row)

/-- The filter asks for rows from which a value of a list is reached, and its negation for rows from
which a value outside the list is reached. Only if the filter stands in a combination of its own,
its negation asks for the rows from which no value of the list is reached. -/
structure Storage.TurnsInside (s : Storage) (filter : Filter) (m : Membership) (value : Scalar)
    (list : List Scalar) : Prop where
  selection : m.selection = .rows (.oneOf value list false)
  plain : m.isNegated = false
  negated : s.featureCondition (.negation filter) =
    .ok (.atom (.member { m with selection := .rows (.oneOf value list true) }))
  wrapped : ∀ wrap ∈ [Filter.all [filter], Filter.any [filter]],
    s.featureCondition (.negation wrap) = .ok (.atom (.member { m with isNegated := true }))
  /-- On which rows the two are the same. -/
  agrees_iff : ∀ (db : Database) (row : db.Row),
    db.isMember { m with selection := .rows (.oneOf value list true) } row =
        !db.isMember m row ↔
      db.reached m row ≠ [] ∧
        ((∀ found ∈ db.reached m row, db.passes found (.oneOf value list false) = true) ∨
          ∀ found ∈ db.reached m row, db.passes found (.oneOf value list false) = false)

section Lists

variable {α : Type}

/-- That something fails is the opposite of that something passes exactly if there is something, and
all of it passes or all of it fails. -/
theorem any_not_eq_not_any_iff (l : List α) (p : α → Bool) :
    (l.any fun a => !p a) = !l.any p ↔
      l ≠ [] ∧ ((∀ a ∈ l, p a = true) ∨ ∀ a ∈ l, p a = false) := by
  rw [← List.not_all_eq_any_not, Bool.not_inj_iff]
  constructor
  · intro h
    cases l with
    | nil => simp at h
    | cons a l =>
      refine ⟨List.cons_ne_nil a l, ?_⟩
      cases hall : (a :: l).all p with
      | true => exact Or.inl (List.all_eq_true.1 hall)
      | false =>
        rw [hall, eq_comm, List.any_eq_false] at h
        exact Or.inr fun b hb => Bool.eq_false_of_not_eq_true (h b hb)
  · rintro ⟨hne, hall | hall⟩
    · obtain ⟨a, ha⟩ := List.exists_mem_of_ne_nil l hne
      rw [List.all_eq_true.2 hall, eq_comm, List.any_eq_true]
      exact ⟨a, ha, hall a ha⟩
    · obtain ⟨a, ha⟩ := List.exists_mem_of_ne_nil l hne
      have hany : l.any p = false :=
        List.any_eq_false.2 fun b hb => Bool.not_eq_true _ ▸ hall b hb
      rw [hany, List.all_eq_false]
      exact ⟨a, ha, Bool.not_eq_true _ ▸ hall a ha⟩

end Lists

namespace Storage

variable {s : Storage} {filter : Filter} {c : FeatureCondition}

/-- A combination of one filter stands for the condition of the filter. -/
theorem featureCondition_wrap (hc : s.featureCondition filter = .ok c) :
    ∀ wrap ∈ [Filter.all [filter], Filter.any [filter]],
      s.featureCondition (.negation wrap) = .ok c.negated := by
  have hlist : Filter.lowerList s.featurePredicate s.featureArray FeatureCondition.negated
      [filter] = .ok [c] := bind_eq_ok.2 ⟨c, hc, bind_eq_ok.2 ⟨[], rfl, rfl⟩⟩
  have hall : s.featureCondition (.all [filter]) = .ok c := map_eq_ok.2 ⟨[c], hlist, rfl⟩
  have hany : s.featureCondition (.any [filter]) = .ok c := map_eq_ok.2 ⟨[c], hlist, rfl⟩
  intro wrap hwrap
  rcases List.mem_pair.1 hwrap with rfl | rfl
  · exact map_eq_ok.2 ⟨c, hall, rfl⟩
  · exact map_eq_ok.2 ⟨c, hany, rfl⟩

/-- A filter that is no list of alternatives is negated as a whole. -/
theorem complements_of_isList_eq_false (hlist : filter.isList = false)
    (hc : s.featureCondition filter = .ok c) : s.Complements filter c c.negated := by
  constructor
  · rw [featureCondition, Filter.lower_negation hlist]
    exact map_eq_ok.2 ⟨c, hc, rfl⟩
  · rintro m rfl
    rfl
  · exact fun db row => db.holds_negated row c
  · exact fun wrap hwrap => ⟨_, featureCondition_wrap hc wrap hwrap, fun _ _ => rfl⟩

/-- The test of a list of alternatives, negated or not. -/
theorem test_oneOf_eq_ok {scope : Scope} {value : Operand} {list : List Operand} {t : Test}
    (h : s.test scope false (.oneOf value list) = .ok t) :
    ∃ v l, t = .oneOf v l false ∧
      ∀ negated, s.test scope negated (.oneOf value list) = .ok (.oneOf v l negated) := by
  obtain ⟨l, hl, h⟩ := bind_eq_ok.1 h
  obtain ⟨v, hv, h⟩ := bind_eq_ok.1 h
  refine ⟨v, l, (pure_eq_ok.1 h).symm, fun negated => ?_⟩
  exact bind_eq_ok.2 ⟨l, hl, bind_eq_ok.2 ⟨v, hv, rfl⟩⟩

section List

variable {value : Operand} {list : List Operand}

/-- On the root row, what is not in a list is outside it. -/
theorem complements_of_list
    (hjoined : s.joinedTable (Predicate.oneOf value list).properties = .ok none)
    (hc : s.featureCondition (.test (.oneOf value list)) = .ok c) :
    ∃ d, s.Complements (.test (.oneOf value list)) c d := by
  obtain ⟨found, hfound, htest⟩ := bind_eq_ok.1 hc
  obtain rfl := Except.ok.inj (hjoined.symm.trans hfound)
  obtain ⟨t, ht, htest⟩ := bind_eq_ok.1 htest
  obtain ⟨v, l, rfl, hboth⟩ := test_oneOf_eq_ok ht
  obtain rfl := pure_eq_ok.1 htest
  refine ⟨.atom (.test (.oneOf v l true)), ?_, ?_, ?_, ?_⟩
  · exact bind_eq_ok.2 ⟨none, hjoined, bind_eq_ok.2 ⟨_, hboth true, rfl⟩⟩
  · intro m hm
    simp at hm
  · exact fun db row => db.passes_outside _ v l
  · intro wrap hwrap
    refine ⟨_, featureCondition_wrap hc wrap hwrap, fun db row => ?_⟩
    rw [db.holds_negated]
    exact (db.passes_outside _ v l).symm

/-- Inside a sub-select the negation turns to the test. -/
theorem turnsInside_of_list {table : Table}
    (hjoined : s.joinedTable (Predicate.oneOf value list).properties = .ok (some table))
    (hc : s.featureCondition (.test (.oneOf value list)) = .ok c) :
    ∃ m v l, c = .atom (.member m) ∧ s.TurnsInside (.test (.oneOf value list)) m v l := by
  obtain ⟨found, hfound, hmember⟩ := bind_eq_ok.1 hc
  obtain rfl := Except.ok.inj (hjoined.symm.trans hfound)
  obtain ⟨joins, hjoins, hmember⟩ := bind_eq_ok.1 hmember
  obtain ⟨selection, hselection, hmember⟩ := bind_eq_ok.1 hmember
  obtain ⟨t, ht, rfl⟩ := map_eq_ok.1 hselection
  obtain ⟨v, l, rfl, hboth⟩ := test_oneOf_eq_ok ht
  obtain rfl := pure_eq_ok.1 hmember
  refine ⟨_, v, l, rfl, rfl, rfl, ?_, ?_, ?_⟩
  · refine bind_eq_ok.2 ⟨some table, hjoined, bind_eq_ok.2 ⟨joins, hjoins, ?_⟩⟩
    exact bind_eq_ok.2 ⟨_, map_eq_ok.2 ⟨_, hboth true, rfl⟩, rfl⟩
  · exact featureCondition_wrap hc
  · intro db row
    rw [db.isMember_eq_any rfl, db.isMember_eq_any rfl, ← any_not_eq_not_any_iff]
    -- both sub-selects find the same rows
    show (List.any (db.reached _ row) fun found => db.passes found (.oneOf v l true)) = _ ↔ _
    simp only [db.passes_outside]
    rfl

end List

end Storage

/-- The negation of a filter is its complement exactly if the filter is no list of alternatives on a
joined table. For such a list the negation turns to the test inside the sub-select. -/
theorem complements_iff_not_listsBelow {s : Storage} {filter : Filter} {c : FeatureCondition}
    (hc : s.featureCondition filter = .ok c) :
    ((∃ d, s.Complements filter c d) ↔ ¬ s.ListsBelow filter) ∧
      (s.ListsBelow filter → ∃ m value list, c = .atom (.member m) ∧
        s.TurnsInside filter m value list) := by
  have hbelow : s.ListsBelow filter → ∃ m value list, c = .atom (.member m) ∧
      s.TurnsInside filter m value list := by
    rintro ⟨value, list, table, rfl, hjoined⟩
    exact Storage.turnsInside_of_list hjoined hc
  refine ⟨⟨?_, ?_⟩, hbelow⟩
  · rintro ⟨d, hd⟩ hlists
    obtain ⟨m, value, list, rfl, hturns⟩ := hbelow hlists
    -- the operator in front of the sub-select stays as it is
    have hflipped := hturns.negated.symm.trans hd.compiles
    rw [hd.flips m rfl] at hflipped
    simp [hturns.plain] at hflipped
  · intro hnot
    cases hlist : filter.isList with
    | false => exact ⟨_, Storage.complements_of_isList_eq_false hlist hc⟩
    | true =>
      obtain ⟨value, list, rfl⟩ : ∃ value list, filter = .test (.oneOf value list) := by
        cases filter with
        | test p =>
          cases p with
          | oneOf value list => exact ⟨value, list, rfl⟩
          | _ => simp [Filter.isList] at hlist
        | _ => simp [Filter.isList] at hlist
      obtain ⟨found, hfound, -⟩ := bind_eq_ok.1 hc
      cases found with
      | none => exact Storage.complements_of_list hfound hc
      | some table => exact absurd ⟨value, list, table, rfl, hfound⟩ hnot

/-- Parcels with no address in Bonn are the complement of those with one, if the city is
compared. -/
theorem complements_iff_not_listsBelow_compare :
    let mapping : FeatureMapping := ⟨"parcels", "parcel",
      [⟨"city", "[id=parcel_id]address/city", .value, none⟩]⟩
    let filter := Filter.compare .eq "city" (.text "Bonn")
    ∃ (s : Storage) (c : FeatureCondition), TableTree.ofMapping mapping = .ok s.tree ∧
      s.featureCondition filter = .ok c ∧ ¬ s.ListsBelow filter ∧
      ∃ d, s.Complements filter c d := by
  intro mapping filter
  have hrun : (do
      let tree ← TableTree.ofMapping mapping
      (Storage.plain tree .postgis).filterText filter 0 : Except Error String).toOption =
        some ("A.id IN (SELECT AA.id FROM parcel AA JOIN address AB ON (AA.id=AB.parcel_id) " ++
          "WHERE AB.city = 'Bonn')") := by
    decide +kernel
  obtain ⟨tree, htree, htext⟩ := bind_eq_ok.1 (toOption_eq_some.1 hrun)
  obtain ⟨c, hc, -⟩ := map_eq_ok.1 htext
  have hnot : ¬ (Storage.plain tree .postgis).ListsBelow filter := by
    rintro ⟨value, list, table, hlist, -⟩
    simp [filter, Filter.compare] at hlist
  exact ⟨Storage.plain tree .postgis, c, htree, hc, hnot,
    (complements_iff_not_listsBelow hc).1.2 hnot⟩

/-- A parcel with addresses in Bonn and in Jena is selected both by a list that has only Bonn and by
its negation, and a parcel without an address by neither. The negation of the list in a combination
of its own selects the second parcel. -/
theorem not_complements_list :
    let mapping : FeatureMapping := ⟨"parcels", "parcel",
      [⟨"city", "[id=parcel_id]address/city", .value, none⟩]⟩
    let filter := Filter.oneOf "city" [.text "Bonn"]
    let db := Database.ofTables [("parcel", [[("id", "1")], [("id", "2")]]),
      ("address", [[("parcel_id", "1"), ("city", "Bonn")], [("parcel_id", "1"), ("city", "Jena")]])]
    ∃ (s : Storage) (c d e : FeatureCondition), TableTree.ofMapping mapping = .ok s.tree ∧
      s.featureCondition filter = .ok c ∧ s.featureCondition (.negation filter) = .ok d ∧
      s.featureCondition (.negation (.all [filter])) = .ok e ∧
      c.holds (db.selects [("id", "1")]) = true ∧ d.holds (db.selects [("id", "1")]) = true ∧
      c.holds (db.selects [("id", "2")]) = false ∧ d.holds (db.selects [("id", "2")]) = false ∧
      e.holds (db.selects [("id", "2")]) = true := by
  intro mapping filter db
  have hrun : (do
      let tree ← TableTree.ofMapping mapping
      let c ← (Storage.plain tree .postgis).featureCondition filter
      let d ← (Storage.plain tree .postgis).featureCondition (.negation filter)
      let e ← (Storage.plain tree .postgis).featureCondition (.negation (.all [filter]))
      return ((c.holds (db.selects [("id", "1")]), d.holds (db.selects [("id", "1")])),
        c.holds (db.selects [("id", "2")]), d.holds (db.selects [("id", "2")]),
        e.holds (db.selects [("id", "2")])) :
          Except Error ((Bool × Bool) × Bool × Bool × Bool)).toOption =
        some ((true, true), false, false, true) := by
    decide +kernel
  obtain ⟨tree, htree, hrun⟩ := bind_eq_ok.1 (toOption_eq_some.1 hrun)
  obtain ⟨c, hc, hrun⟩ := bind_eq_ok.1 hrun
  obtain ⟨d, hd, hrun⟩ := bind_eq_ok.1 hrun
  obtain ⟨e, he, hrun⟩ := bind_eq_ok.1 hrun
  simp only [pure_eq_ok, Prod.mk.injEq] at hrun
  obtain ⟨⟨hc1, hd1⟩, hc2, hd2, he2⟩ := hrun
  exact ⟨Storage.plain tree .postgis, c, d, e, htree, hc, hd, he, hc1, hd1, hc2, hd2, he2⟩

end FeatureStore
