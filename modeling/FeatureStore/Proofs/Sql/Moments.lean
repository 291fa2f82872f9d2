import FeatureStore.Proofs.Sql.Structure

/-!
# Relations between ranges of time

What the tests of temporal predicates say once every expression in them stands for a moment of one
linearly ordered timeline (`TimeTest.Holds`). A range covers the moments from its start up to its
end, with or without the end. Ranges that cover a moment at all are compared by the moments that they
cover: one lies before another exactly if all its moments do (`holds_before_iff`), two of them meet
exactly if they share a moment (`holds_meets_iff`), and one that lies within another has all its
moments there (`covers_of_holds_during`). The laws that the tests obey together follow from this
(`TimeTest.PartsTime`, `temporal_partsTime`). The text of a test, read by the precedence of its
operators, says what the test does if the texts of its comparisons do (`saysItself_of_atoms`).
-/

set_option autoImplicit false

namespace FeatureStore

universe u

variable {α : Type u} [LinearOrder α]

/-- Two moments compare as a comparison asks. -/
def Comparison.Relates : Comparison → α → α → Prop
  | .eq, a, b => a = b
  | .ne, a, b => a ≠ b
  | .lt, a, b => a < b
  | .le, a, b => a ≤ b
  | .gt, a, b => b < a
  | .ge, a, b => b ≤ a

/-! ## Ranges on a timeline -/

namespace TimeRange

variable {r : TimeRange} {v : Scalar → α} {m n : α}

/-- The range does not end before a moment. -/
def LastsTo (r : TimeRange) (v : Scalar → α) (m : α) : Prop :=
  if r.exclusive then m < v r.stop else m ≤ v r.stop

/-- A moment lies in the range. -/
def Covers (r : TimeRange) (v : Scalar → α) (m : α) : Prop := v r.start ≤ m ∧ r.LastsTo v m

/-- The range begins before it ends, or where it ends if the end belongs to it. -/
def IsNonempty (r : TimeRange) (v : Scalar → α) : Prop :=
  if r.exclusive then v r.start < v r.stop else v r.start ≤ v r.stop

instance (r : TimeRange) (v : Scalar → α) : Decidable (r.IsNonempty v) :=
  inferInstanceAs (Decidable (if r.exclusive then v r.start < v r.stop else v r.start ≤ v r.stop))

theorem LastsTo.mono (h : r.LastsTo v m) (hle : n ≤ m) : r.LastsTo v n := by
  unfold LastsTo at h ⊢
  split_ifs at h ⊢
  · exact hle.trans_lt h
  · exact hle.trans h

theorem IsNonempty.covers_start (h : r.IsNonempty v) : r.Covers v (v r.start) := ⟨le_rfl, h⟩

end TimeRange

/-! ## What tests say -/

/-- The moments that a pair of values stands for where a database compares periods: those from the
smaller value up to but without the greater one, or the one that both are. -/
def PairCovers (a b m : α) : Prop := a = b ∧ m = a ∨ min a b ≤ m ∧ m < max a b

namespace TimeTest

/-- What a test says if every expression stands for a moment. -/
def Holds (v : Scalar → α) : TimeTest → Prop
  | .compare op left right => op.Relates (v left) (v right)
  | .both first second => first.Holds v ∧ second.Holds v
  | .negation test => ¬ test.Holds v
  | .overlaps left right =>
    ∃ m, PairCovers (v left.start) (v left.stop) m ∧ PairCovers (v right.start) (v right.stop) m

section Ranges

variable {l r : TimeRange} {v : Scalar → α} {point : Scalar} {hasOverlaps : Bool}

theorem holds_reaches_iff : (reaches r point).Holds v ↔ r.LastsTo v (v point) := by
  rw [reaches, Holds, TimeRange.LastsTo]
  cases r.exclusive <;> rfl

/-- A range ends before a point exactly if it does not last to it. -/
theorem holds_endsBefore_iff : (endsBefore r point).Holds v ↔ ¬ r.LastsTo v (v point) := by
  rw [endsBefore, Holds, TimeRange.LastsTo]
  cases r.exclusive
  · exact not_le.symm
  · exact not_lt.symm

/-- A range lies before another exactly if all its moments do. -/
theorem holds_before_iff (hl : l.IsNonempty v) (hr : r.IsNonempty v) :
    (relate hasOverlaps .before l r).Holds v ↔
      ∀ m n, l.Covers v m → r.Covers v n → m < n := by
  rw [relate, holds_endsBefore_iff]
  constructor
  · intro hends m n hm hn
    -- a moment of the first range behind one of the second would take it to the second's start
    refine lt_of_not_ge fun hle => hends (hm.2.mono (hn.1.trans hle))
  · intro hall hlasts
    rcases le_total (v l.start) (v r.start) with hle | hle
    · exact lt_irrefl _ (hall _ _ ⟨hle, hlasts⟩ hr.covers_start)
    · exact absurd (hall _ _ hl.covers_start hr.covers_start) (not_lt.2 hle)

/-- A range lies after another as the other lies before it. -/
theorem relate_after (l r : TimeRange) :
    relate hasOverlaps .after l r = relate hasOverlaps .before r l := rfl

/-- Two ranges meet exactly if they share a moment. -/
theorem holds_meets_iff (hl : l.IsNonempty v) (hr : r.IsNonempty v) :
    (meets l r).Holds v ↔ ∃ m, l.Covers v m ∧ r.Covers v m := by
  rw [meets, Holds, holds_reaches_iff, holds_reaches_iff]
  constructor
  · rintro ⟨hfirst, hsecond⟩
    -- the later of the two starts is shared
    rcases le_total (v l.start) (v r.start) with hle | hle
    · exact ⟨v r.start, ⟨hle, hfirst⟩, hr.covers_start⟩
    · exact ⟨v l.start, hl.covers_start, ⟨hle, hsecond⟩⟩
  · rintro ⟨m, hm, hn⟩
    exact ⟨hm.2.mono hn.1, hn.2.mono hm.1⟩

/-- Two ranges meet exactly if neither lies before the other. -/
theorem holds_meets_iff_not_before :
    (meets l r).Holds v ↔ ¬ (relate hasOverlaps .before l r).Holds v ∧
      ¬ (relate hasOverlaps .before r l).Holds v := by
  rw [meets, Holds, relate, relate, holds_reaches_iff, holds_reaches_iff, holds_endsBefore_iff,
    holds_endsBefore_iff, not_not, not_not]

/-- A range that lies within another has all its moments there. -/
theorem covers_of_holds_during (h : (relate hasOverlaps .during l r).Holds v) {m : α}
    (hm : l.Covers v m) : r.Covers v m := by
  obtain ⟨hstart, hends⟩ := h
  refine ⟨le_trans hstart hm.1, ?_⟩
  have hlasts := hm.2
  unfold endsWithin at hends
  unfold TimeRange.LastsTo at hlasts
  split at hends
  · rename_i hexclusive
    rw [if_pos hexclusive] at hlasts
    have hbefore : m < v r.stop := hlasts.trans_le hends
    unfold TimeRange.LastsTo
    split
    · exact hbefore
    · exact hbefore.le
  · rename_i hinclusive
    rw [if_neg hinclusive] at hlasts
    exact (holds_reaches_iff.1 hends).mono hlasts

end Ranges

/-! ## Laws -/

/-- The tests of the relations between two ranges, and of those between the same ranges swapped, part
the timeline. -/
structure PartsTime (v : Scalar → α) (tests swapped : TemporalRelation → TimeTest) : Prop where
  /-- Exactly one of the three relations holds. -/
  exactlyOne :
    (tests .before).Holds v ∧ ¬ (tests .after).Holds v ∧ ¬ (tests .intersects).Holds v ∨
    ¬ (tests .before).Holds v ∧ (tests .after).Holds v ∧ ¬ (tests .intersects).Holds v ∨
    ¬ (tests .before).Holds v ∧ ¬ (tests .after).Holds v ∧ (tests .intersects).Holds v
  disjoint_iff : (tests .disjoint).Holds v ↔ ¬ (tests .intersects).Holds v
  before_iff : (tests .before).Holds v ↔ (swapped .after).Holds v
  intersects_comm : (tests .intersects).Holds v ↔ (swapped .intersects).Holds v
  disjoint_comm : (tests .disjoint).Holds v ↔ (swapped .disjoint).Holds v
  intersects_of_during : (tests .during).Holds v → (tests .intersects).Holds v

/-- Where periods are not tested for overlap directly, the tests between ranges that cover a moment
part the timeline. -/
theorem partsTime_relate {l r : TimeRange} {v : Scalar → α} (hl : l.IsNonempty v)
    (hr : r.IsNonempty v) : PartsTime v (relate false · l r) (relate false · r l) := by
  have hshared := holds_meets_iff hl hr
  have hcomm : (meets l r).Holds v ↔ (meets r l).Holds v := by
    rw [hshared, holds_meets_iff hr hl]
    exact exists_congr fun m => and_comm
  refine ⟨?_, Iff.rfl, Iff.rfl, hcomm, not_congr hcomm, fun hduring => ?_⟩
  · -- neither start lies before the other, so a range is not both before and after another
    have hexclude : (relate false .before l r).Holds v → ¬ (relate false .after l r).Holds v := by
      intro hbefore hafter
      rw [relate_after] at hafter
      exact lt_asymm ((holds_before_iff hl hr).1 hbefore _ _ hl.covers_start hr.covers_start)
        ((holds_before_iff hr hl).1 hafter _ _ hr.covers_start hl.covers_start)
    have hmeets : (relate false .intersects l r).Holds v ↔
        ¬ (relate false .before l r).Holds v ∧ ¬ (relate false .after l r).Holds v :=
      holds_meets_iff_not_before
    tauto
  · exact hshared.2 ⟨v l.start, hl.covers_start, covers_of_holds_during hduring hl.covers_start⟩

/-! ## Texts -/

/-- The comparisons that a test is made of. -/
def atoms : TimeTest → List TimeTest
  | .both first second => first.atoms ++ second.atoms
  | .negation test => test.atoms
  | test => [test]

/-- The text of a test says that it holds exactly if it does. -/
def SaysItself (test : TimeTest) (s : Storage) (level : Nat) (truth : List Item → Bool)
    (v : Scalar → α) : Prop :=
  textHolds truth ((s.testSql (.temporal test)).render level) = true ↔ test.Holds v

variable {s : Storage} {level : Nat} {truth : List Item → Bool} {v : Scalar → α}

/-- The text of a test says what the test does if the texts of its comparisons do. -/
theorem saysItself_of_atoms {test : TimeTest} (hnames : ∀ e ∈ test.scalars, e.HasNames)
    (hatoms : ∀ atom ∈ test.atoms, atom.SaysItself s level truth v) :
    test.SaysItself s level truth v := by
  -- every part is spelled as a conjunction, so its text says something
  have hreading : ∀ part : TimeTest, (∀ e ∈ part.scalars, e.HasNames) →
      Says ((part.sql s.dialect s.srid).chars level)
        fun truth => textHolds truth ((part.sql s.dialect s.srid).render level) :=
    fun part h => says_of_isConjunction (part.isConjunction_sql s.dialect s.srid h)
  induction test with
  | compare op left right => exact hatoms _ (List.mem_singleton_self _)
  | overlaps left right => exact hatoms _ (List.mem_singleton_self _)
  | both first second hfirst hsecond =>
    have hwhole := hreading (.both first second) hnames
    obtain ⟨hfirstNames, hsecondNames⟩ := List.forall_mem_append.1 hnames
    obtain ⟨hfirstAtoms, hsecondAtoms⟩ := List.forall_mem_append.1 hatoms
    have hboth := (hreading first hfirstNames).and (hreading second hsecondNames)
    rw [sql, Sql.chars_append, Sql.chars_text, ← List.append_assoc] at hwhole
    have hvalue := congrFun (hwhole.unique hboth) truth
    refine (iff_of_eq (congrArg (· = true) hvalue)).trans ?_
    rw [Bool.and_eq_true]
    exact and_congr (hfirst hfirstNames hfirstAtoms) (hsecond hsecondNames hsecondAtoms)
  | negation part ih =>
    have hwhole := hreading (.negation part) hnames
    have hnegated := (hreading part hnames).offers.negated
    rw [sql, Sql.chars_around] at hwhole
    have hvalue := congrFun (hwhole.unique hnegated) truth
    refine (iff_of_eq (congrArg (· = true) hvalue)).trans ?_
    rw [Bool.not_eq_true', ← Bool.not_eq_true]
    exact not_congr (ih hnames hatoms)

/-- The text of a relation between two ranges says what its test does if the texts of its
comparisons do. -/
theorem saysItself_relate {hasOverlaps : Bool} {relation : TemporalRelation} {l r : TimeRange}
    (hl : l.HasNames) (hr : r.HasNames)
    (hatoms : ∀ atom ∈ (relate hasOverlaps relation l r).atoms,
      atom.SaysItself s level truth v) :
    (relate hasOverlaps relation l r).SaysItself s level truth v :=
  saysItself_of_atoms (forall_mem_scalars_relate Scalar.HasNames hl hr _ _) hatoms

end TimeTest

/-- Where periods are not tested for overlap directly, the tests that two temporal operands are
compiled to part every linear timeline on which both ranges cover a moment: in whatever scope they
are compiled, exactly one of the ranges lies before the other, or they meet. The texts of these tests
say what the tests do, given that the texts of their comparisons do and all names are identifiers. -/
theorem temporal_partsTime {s : Storage} (hdialect : s.dialect.hasOverlaps = false) {scope : Scope}
    {left right : Operand} {l r : TimeRange} (hleft : s.timeRange scope left = .ok l)
    (hright : s.timeRange scope right = .ok r) {v : Scalar → α} (hl : l.IsNonempty v)
    (hr : r.IsNonempty v) :
    ∃ tests swapped : TemporalRelation → TimeTest,
      (∀ relation negated,
        s.test scope negated (.temporal relation left right) = .ok (.temporal (tests relation)) ∧
        s.test scope negated (.temporal relation right left) =
          .ok (.temporal (swapped relation))) ∧
      TimeTest.PartsTime v tests swapped ∧
      (l.HasNames → r.HasNames → ∀ level truth relation,
        ∀ test ∈ [tests relation, swapped relation],
          (∀ atom ∈ test.atoms, atom.SaysItself s level truth v) →
            test.SaysItself s level truth v) := by
  refine ⟨(TimeTest.relate false · l r), (TimeTest.relate false · r l), fun relation negated => ?_,
    TimeTest.partsTime_relate hl hr, ?_⟩
  · rw [← hdialect]
    exact ⟨Storage.test_temporal_eq_ok relation negated hleft hright,
      Storage.test_temporal_eq_ok relation negated hright hleft⟩
  · intro hlNames hrNames level truth relation test hmem hatoms
    rcases List.mem_pair.1 hmem with rfl | rfl
    · exact TimeTest.saysItself_relate hlNames hrNames hatoms
    · exact TimeTest.saysItself_relate hrNames hlNames hatoms

/-- A range from an instant to a column that holds the first moment of an open range of days, where
the end of the one belongs to it and that of the other does not. -/
theorem temporal_partsTime_touching :
    let day : Date := ⟨2020, 2, 1, by decide⟩
    let instant : Instant := ⟨⟨2020, 1, 1, by decide⟩, 0, 0, by decide, by decide⟩
    let left : Operand := .interval (.temporal (.instant instant)) (.property "updated")
    let right : Operand := .temporal (.interval (.date day) .unbounded)
    let column : Scalar := .column outerRoot "updated"
    let l : TimeRange := ⟨.instant instant, column, false⟩
    let r : TimeRange := ⟨.date day, .latest, true⟩
    let v : Scalar → Nat := fun e =>
      if e = .instant instant then 1 else if e = column ∨ e = .date day then 2
      else if e = .latest then 3 else 0
    ∃ tree, TableTree.ofPaths ["parcel/updated"] = .ok tree ∧
      let s := Storage.plain tree .geopackage
      let scope : Scope := .feature [(s.root.path, outerRoot)]
      s.dialect.hasOverlaps = false ∧ s.timeRange scope left = .ok l ∧
      s.timeRange scope right = .ok r ∧ l.IsNonempty v ∧ r.IsNonempty v ∧
      ∃ tests swapped : TemporalRelation → TimeTest,
        (∀ relation negated,
          s.test scope negated (.temporal relation left right) = .ok (.temporal (tests relation)) ∧
          s.test scope negated (.temporal relation right left) =
            .ok (.temporal (swapped relation))) ∧
        TimeTest.PartsTime v tests swapped ∧
        (l.HasNames → r.HasNames → ∀ level truth relation,
          ∀ test ∈ [tests relation, swapped relation],
            (∀ atom ∈ test.atoms, atom.SaysItself s level truth v) →
              test.SaysItself s level truth v) := by
  intro day instant left right column l r v
  have hranges : (do
      let tree ← TableTree.ofPaths ["parcel/updated"]
      let s := Storage.plain tree .geopackage
      let scope : Scope := .feature [(s.root.path, outerRoot)]
      return (← s.timeRange scope left, ← s.timeRange scope right) :
        Except Error (TimeRange × TimeRange)).toOption = some (l, r) := by
    decide +kernel
  obtain ⟨tree, htree, hranges⟩ := bind_eq_ok.1 (toOption_eq_some.1 hranges)
  obtain ⟨a, ha, hranges⟩ := bind_eq_ok.1 hranges
  obtain ⟨b, hb, hranges⟩ := bind_eq_ok.1 hranges
  obtain ⟨rfl, rfl⟩ := Prod.mk.inj (pure_eq_ok.1 hranges)
  have hl : l.IsNonempty v := by decide +kernel
  have hr : r.IsNonempty v := by decide +kernel
  exact ⟨tree, htree, rfl, ha, hb, hl, hr, temporal_partsTime rfl ha hb hl hr⟩

end FeatureStore
