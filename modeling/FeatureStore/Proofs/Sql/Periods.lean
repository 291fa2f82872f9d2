import FeatureStore.Proofs.Sql.Moments

/-!
# Ends of ranges

The end of a range belongs to it if a column gives the end, and does not if a literal does. Two
tests on ranges go wrong where these kinds of ends come together. A database that tests two periods
for overlap directly leaves out the end of either period, so a range whose last moment is the first
one of another range does not overlap it, although the comparisons of their ends say that they meet
(`TimeTest.holds_overlaps_iff`, `temporal_overlaps_iff`). And the test of equality asks the end of
its left range to lie before that of its right one wherever the kinds of the two differ. It is
symmetric then only between ranges that do not start together, or whose ends are the same
(`TimeTest.isEquality_relate_iff`, `temporal_isEquality_iff`).
-/

set_option autoImplicit false

namespace FeatureStore

universe u

variable {α : Type u} [LinearOrder α]

/-! ## Tests of ranges, in any dialect -/

namespace Storage

variable (s : Storage) (d : Dialect) (scope : Scope)

mutual
/-- An operand stands for the same expression in every dialect. -/
theorem scalar_withDialect : ∀ operand : Operand,
    { s with dialect := d }.scalar scope operand = s.scalar scope operand
  | .property _ => rfl
  | .literal _ => rfl
  | .geometry _ => rfl
  | .temporal (.instant _) => rfl
  | .temporal (.date _) => rfl
  | .temporal (.interval _ _) => rfl
  | .interval start stop => by
    rw [scalar, scalar, timeRange_withDialect start, timeRange_withDialect stop]
  | .array _ => rfl
  | .apply function args => by
    rw [scalar, scalar, firstScalar_withDialect args]
    rfl

/-- An operand stands for the same range of time in every dialect. -/
theorem timeRange_withDialect : ∀ operand : Operand,
    { s with dialect := d }.timeRange scope operand = s.timeRange scope operand
  | .property _ => rfl
  | .literal _ => rfl
  | .geometry _ => rfl
  | .temporal _ => rfl
  | .interval start stop => by
    rw [timeRange, timeRange, timeRange_withDialect start, timeRange_withDialect stop]
  | .array _ => rfl
  | .apply function args => by
    rw [timeRange, timeRange, firstScalar_withDialect args]
    rfl

theorem firstScalar_withDialect : ∀ args : List Operand,
    { s with dialect := d }.firstScalar scope args = s.firstScalar scope args
  | [] => rfl
  | arg :: _ => by rw [firstScalar, firstScalar, scalar_withDialect arg]
end

end Storage

/-- The ranges of two operands in a tree of given paths. -/
theorem Storage.exists_timeRanges (paths : List String) (dialect : Dialect) (left right : Operand)
    (l r : TimeRange)
    (h : (do
      let tree ← TableTree.ofPaths paths
      let s := Storage.plain tree dialect
      let scope : Scope := .feature [(s.root.path, outerRoot)]
      return (← s.timeRange scope left, ← s.timeRange scope right) :
        Except Error (TimeRange × TimeRange)).toOption = some (l, r)) :
    ∃ tree, TableTree.ofPaths paths = .ok tree ∧
      let s := Storage.plain tree dialect
      let scope : Scope := .feature [(s.root.path, outerRoot)]
      s.timeRange scope left = .ok l ∧ s.timeRange scope right = .ok r := by
  obtain ⟨tree, htree, h⟩ := bind_eq_ok.1 (toOption_eq_some.1 h)
  obtain ⟨a, ha, h⟩ := bind_eq_ok.1 h
  obtain ⟨b, hb, h⟩ := bind_eq_ok.1 h
  obtain ⟨rfl, rfl⟩ := Prod.mk.inj (pure_eq_ok.1 h)
  exact ⟨tree, htree, ha, hb⟩

/-! ## Periods that overlap -/

namespace TimeRange

/-- The range is longer than a moment, its last moment belongs to it, and another range starts at
this moment. -/
def EndsAtStart (l r : TimeRange) (v : Scalar → α) : Prop :=
  l.exclusive = false ∧ v l.start < v l.stop ∧ v r.start = v l.stop

variable {r : TimeRange} {v : Scalar → α} {m : α}

/-- The pair of the ends of a range stands for the moments of the range, but without the last one of
a longer range that the end belongs to. -/
theorem pairCovers_iff (h : r.IsNonempty v) :
    PairCovers (v r.start) (v r.stop) m ↔
      r.Covers v m ∧ (r.exclusive = false → v r.start < v r.stop → m ≠ v r.stop) := by
  unfold IsNonempty at h
  unfold PairCovers Covers LastsTo
  cases hexclusive : r.exclusive with
  | true =>
    rw [hexclusive, if_pos rfl] at h
    simp [h.ne, min_eq_left h.le, max_eq_right h.le]
  | false =>
    rw [hexclusive, if_neg Bool.false_ne_true] at h
    rw [min_eq_left h, max_eq_right h, if_neg Bool.false_ne_true]
    rcases h.eq_or_lt with heq | hlt
    · -- the pair is a single moment, which is never left out
      rw [heq]
      simp only [lt_irrefl, true_and, false_implies, implies_true, and_true]
      constructor
      · rintro (rfl | ⟨hle, hlt⟩)
        · exact ⟨le_rfl, le_rfl⟩
        · exact ⟨hle, hlt.le⟩
      · rintro ⟨hfirst, hlast⟩
        exact Or.inl (le_antisymm hlast hfirst)
    · simp only [hlt.ne, hlt, false_and, false_or, true_implies, and_assoc]
      exact and_congr_right fun _ => lt_iff_le_and_ne

end TimeRange

namespace TimeTest

variable {l r : TimeRange} {v : Scalar → α}

/-- A range that ends at the start of another one meets it. -/
theorem holds_meets_of_endsAtStart (hr : r.IsNonempty v) (h : l.EndsAtStart r v) :
    (meets l r).Holds v := by
  obtain ⟨hinclusive, hlt, hstart⟩ := h
  refine ⟨holds_reaches_iff.2 ?_, holds_reaches_iff.2 ?_⟩
  · rw [TimeRange.LastsTo, hinclusive, if_neg Bool.false_ne_true]
    exact hstart.le
  · exact hr.covers_start.2.mono (hlt.le.trans hstart.ge)

theorem holds_meets_comm : (meets l r).Holds v ↔ (meets r l).Holds v := and_comm

/-- A range whose pair covers a moment behind the start of another one does not end at that
start. -/
theorem not_endsAtStart_of_pairCovers (hl : l.IsNonempty v) {m : α}
    (hm : PairCovers (v l.start) (v l.stop) m) (hle : v r.start ≤ m) : ¬ l.EndsAtStart r v := by
  rintro ⟨hinclusive, hlt, hstart⟩
  obtain ⟨hcovers, hinside⟩ := (TimeRange.pairCovers_iff hl).1 hm
  have hlast : m ≤ v l.stop := by
    have hlasts := hcovers.2
    rwa [TimeRange.LastsTo, hinclusive, if_neg Bool.false_ne_true] at hlasts
  -- such a moment could only be the end, which the pair leaves out
  exact hinside hinclusive hlt (le_antisymm hlast (hstart ▸ hle))

/-- The later one of two starts is covered by both pairs if the other range lasts to it and does not
end there. -/
theorem exists_pairCovers (hl : l.IsNonempty v) (hr : r.IsNonempty v) (hle : v l.start ≤ v r.start)
    (hlasts : l.LastsTo v (v r.start)) (hno : ¬ l.EndsAtStart r v) :
    ∃ m, PairCovers (v l.start) (v l.stop) m ∧ PairCovers (v r.start) (v r.stop) m := by
  refine ⟨v r.start, (TimeRange.pairCovers_iff hl).2 ⟨⟨hle, hlasts⟩, ?_⟩,
    (TimeRange.pairCovers_iff hr).2 ⟨hr.covers_start, fun _ hlt => hlt.ne⟩⟩
  intro hinclusive hlt hstart
  exact hno ⟨hinclusive, hlt, hstart⟩

/-- Two periods overlap exactly if the ranges meet and neither ends at the start of the other. -/
theorem holds_overlaps_iff (hl : l.IsNonempty v) (hr : r.IsNonempty v) :
    (overlaps l r).Holds v ↔
      (meets l r).Holds v ∧ ¬ l.EndsAtStart r v ∧ ¬ r.EndsAtStart l v := by
  constructor
  · rintro ⟨m, hml, hmr⟩
    have hcoversL := ((TimeRange.pairCovers_iff hl).1 hml).1
    have hcoversR := ((TimeRange.pairCovers_iff hr).1 hmr).1
    exact ⟨(holds_meets_iff hl hr).2 ⟨m, hcoversL, hcoversR⟩,
      not_endsAtStart_of_pairCovers hl hml hcoversR.1,
      not_endsAtStart_of_pairCovers hr hmr hcoversL.1⟩
  · rintro ⟨⟨hfirst, hsecond⟩, hnoL, hnoR⟩
    rcases le_total (v l.start) (v r.start) with hle | hle
    · exact exists_pairCovers hl hr hle (holds_reaches_iff.1 hfirst) hnoL
    · obtain ⟨m, hmr, hml⟩ := exists_pairCovers hr hl hle (holds_reaches_iff.1 hsecond) hnoR
      exact ⟨m, hml, hmr⟩

/-- The test of two periods for overlap agrees with the comparisons of their ends exactly if neither
range ends at the start of the other. -/
theorem overlaps_iff_meets_iff (hl : l.IsNonempty v) (hr : r.IsNonempty v) :
    ((overlaps l r).Holds v ↔ (meets l r).Holds v) ↔
      ¬ l.EndsAtStart r v ∧ ¬ r.EndsAtStart l v := by
  rw [holds_overlaps_iff hl hr]
  constructor
  · intro hagree
    refine ⟨fun h => ?_, fun h => ?_⟩
    · exact (hagree.2 (holds_meets_of_endsAtStart hr h)).2.1 h
    · exact (hagree.2 (holds_meets_comm.1 (holds_meets_of_endsAtStart hl h))).2.2 h
  · exact fun hno => and_iff_left hno

end TimeTest

/-- The test for overlap that a dialect makes of an intersection agrees with the comparisons that
another dialect makes of it exactly if neither range ends at the start of the other one. Exactly
then, too, either the intersection or the disjointness of the two ranges holds, and not both. -/
theorem temporal_overlaps_iff {s : Storage} (hs : s.dialect.hasOverlaps = true) {d : Dialect}
    (hd : d.hasOverlaps = false) {scope : Scope} {left right : Operand} {l r : TimeRange}
    (hleft : s.timeRange scope left = .ok l) (hright : s.timeRange scope right = .ok r)
    {v : Scalar → α} (hl : l.IsNonempty v) (hr : r.IsNonempty v) :
    ∃ overlapping comparing disjoint : TimeTest,
      (∀ negated,
        s.test scope negated (.temporal .intersects left right) = .ok (.temporal overlapping) ∧
        { s with dialect := d }.test scope negated (.temporal .intersects left right) =
          .ok (.temporal comparing) ∧
        s.test scope negated (.temporal .disjoint left right) = .ok (.temporal disjoint)) ∧
      ((overlapping.Holds v ↔ comparing.Holds v) ↔
        ¬ l.EndsAtStart r v ∧ ¬ r.EndsAtStart l v) ∧
      ((overlapping.Holds v ↔ ¬ disjoint.Holds v) ↔
        ¬ l.EndsAtStart r v ∧ ¬ r.EndsAtStart l v) ∧
      (l.HasNames → r.HasNames → ∀ level truth,
        (∀ test ∈ [overlapping, disjoint],
          (∀ atom ∈ test.atoms, atom.SaysItself s level truth v) →
            test.SaysItself s level truth v) ∧
        ((∀ atom ∈ comparing.atoms, atom.SaysItself { s with dialect := d } level truth v) →
          comparing.SaysItself { s with dialect := d } level truth v)) := by
  have hagree := TimeTest.overlaps_iff_meets_iff hl hr
  refine ⟨TimeTest.relate true .intersects l r, TimeTest.relate false .intersects l r,
    TimeTest.relate true .disjoint l r, fun negated => ⟨?_, ?_, ?_⟩, hagree, ?_, ?_⟩
  · -- the three tests are made of the same ranges, in whatever dialect
    rw [Storage.test_temporal_eq_ok _ negated hleft hright, hs]
  · have hleft' := (Storage.timeRange_withDialect s d scope left).trans hleft
    have hright' := (Storage.timeRange_withDialect s d scope right).trans hright
    rw [Storage.test_temporal_eq_ok _ negated hleft' hright', hd]
  · rw [Storage.test_temporal_eq_ok _ negated hleft hright, hs]
  · -- the ranges are disjoint where the comparisons do not hold, in every dialect
    rw [← hagree]
    exact iff_congr Iff.rfl not_not
  · intro hlNames hrNames level truth
    refine ⟨fun test hmem hatoms => ?_, fun hatoms => ?_⟩
    · rcases List.mem_pair.1 hmem with rfl | rfl
      · exact TimeTest.saysItself_relate hlNames hrNames hatoms
      · exact TimeTest.saysItself_relate hlNames hrNames hatoms
    · exact TimeTest.saysItself_relate hlNames hrNames hatoms

/-- What is in force from its beginning to its end, both included, overlaps an open range of days
that begins before that end. -/
theorem temporal_overlaps_iff_before :
    let day : Date := ⟨2020, 2, 1, by decide⟩
    let left : Operand := .interval (.property "begun") (.property "ended")
    let right : Operand := .temporal (.interval (.date day) .unbounded)
    let begun : Scalar := .column outerRoot "begun"
    let ended : Scalar := .column outerRoot "ended"
    let l : TimeRange := ⟨begun, ended, false⟩
    let r : TimeRange := ⟨.date day, .latest, true⟩
    let v : Scalar → Nat := fun e =>
      if e = begun then 0 else if e = .date day then 1 else if e = ended then 2 else 3
    ∃ tree, TableTree.ofPaths ["parcel/begun", "parcel/ended"] = .ok tree ∧
      let s := Storage.plain tree .postgis
      let scope : Scope := .feature [(s.root.path, outerRoot)]
      s.dialect.hasOverlaps = true ∧ Dialect.geopackage.hasOverlaps = false ∧
      s.timeRange scope left = .ok l ∧ s.timeRange scope right = .ok r ∧
      l.IsNonempty v ∧ r.IsNonempty v ∧
      ∃ overlapping comparing disjoint : TimeTest,
        (∀ negated,
          s.test scope negated (.temporal .intersects left right) = .ok (.temporal overlapping) ∧
          { s with dialect := .geopackage }.test scope negated
            (.temporal .intersects left right) = .ok (.temporal comparing) ∧
          s.test scope negated (.temporal .disjoint left right) = .ok (.temporal disjoint)) ∧
        ((overlapping.Holds v ↔ comparing.Holds v) ↔
          ¬ l.EndsAtStart r v ∧ ¬ r.EndsAtStart l v) ∧
        ((overlapping.Holds v ↔ ¬ disjoint.Holds v) ↔
          ¬ l.EndsAtStart r v ∧ ¬ r.EndsAtStart l v) ∧
        (l.HasNames → r.HasNames → ∀ level truth,
          (∀ test ∈ [overlapping, disjoint],
            (∀ atom ∈ test.atoms, atom.SaysItself s level truth v) →
              test.SaysItself s level truth v) ∧
          ((∀ atom ∈ comparing.atoms,
              atom.SaysItself { s with dialect := .geopackage } level truth v) →
            comparing.SaysItself { s with dialect := .geopackage } level truth v)) := by
  intro day left right begun ended l r v
  obtain ⟨tree, htree, hleft, hright⟩ := Storage.exists_timeRanges
    ["parcel/begun", "parcel/ended"] .postgis left right l r (by decide +kernel)
  have hl : l.IsNonempty v := by decide +kernel
  have hr : r.IsNonempty v := by decide +kernel
  exact ⟨tree, htree, rfl, rfl, hleft, hright, hl, hr,
    temporal_overlaps_iff rfl (d := .geopackage) rfl hleft hright hl hr⟩

/-- What is in force up to the first moment of a day, this moment included, meets the day. It
neither overlaps the day nor is it disjoint from it. -/
theorem not_overlaps_touching :
    let day : Date := ⟨2020, 2, 1, by decide⟩
    let left : Operand := .interval (.property "begun") (.property "ended")
    let right : Operand := .temporal (.interval (.date day) .unbounded)
    let begun : Scalar := .column outerRoot "begun"
    let ended : Scalar := .column outerRoot "ended"
    let l : TimeRange := ⟨begun, ended, false⟩
    let r : TimeRange := ⟨.date day, .latest, true⟩
    let v : Scalar → Nat := fun e =>
      if e = begun then 0 else if e = .date day ∨ e = ended then 1 else 2
    ∃ tree, TableTree.ofPaths ["parcel/begun", "parcel/ended"] = .ok tree ∧
      let s := Storage.plain tree .postgis
      let scope : Scope := .feature [(s.root.path, outerRoot)]
      s.timeRange scope left = .ok l ∧ s.timeRange scope right = .ok r ∧
      l.IsNonempty v ∧ r.IsNonempty v ∧
      ∃ overlapping comparing disjoint : TimeTest,
        s.test scope false (.temporal .intersects left right) = .ok (.temporal overlapping) ∧
        { s with dialect := .geopackage }.test scope false (.temporal .intersects left right) =
          .ok (.temporal comparing) ∧
        s.test scope false (.temporal .disjoint left right) = .ok (.temporal disjoint) ∧
        ¬ overlapping.Holds v ∧ comparing.Holds v ∧ ¬ disjoint.Holds v := by
  intro day left right begun ended l r v
  obtain ⟨tree, htree, hleft, hright⟩ := Storage.exists_timeRanges
    ["parcel/begun", "parcel/ended"] .postgis left right l r (by decide +kernel)
  have hl : l.IsNonempty v := by decide +kernel
  have hr : r.IsNonempty v := by decide +kernel
  have hends : l.EndsAtStart r v := ⟨rfl, by decide +kernel, by decide +kernel⟩
  have hmeets := TimeTest.holds_meets_of_endsAtStart hr hends
  refine ⟨tree, htree, hleft, hright, hl, hr, .overlaps l r, TimeTest.meets l r,
    .negation (TimeTest.meets l r), ?_, ?_, ?_, ?_, hmeets, not_not_intro hmeets⟩
  · exact Storage.test_temporal_eq_ok .intersects false hleft hright
  · exact Storage.test_temporal_eq_ok .intersects false
      ((Storage.timeRange_withDialect _ _ _ left).trans hleft)
      ((Storage.timeRange_withDialect _ _ _ right).trans hright)
  · exact Storage.test_temporal_eq_ok .disjoint false hleft hright
  · exact fun h => ((TimeTest.holds_overlaps_iff hl hr).1 h).2.1 hends

/-! ## Ranges that are equal -/

/-- The end of a literal as it is written. -/
def TemporalLiteral.closing : TemporalLiteral → IntervalBound
  | .instant t => .instant t
  | .date d => .date d
  | .interval _ stop => stop

/-- The end of a range as it is written, if a literal gives it. -/
def Operand.closing? : Operand → Option IntervalBound
  | .temporal value => some value.closing
  | .interval _ stop => stop.closing?
  | _ => none

/-- The last moment of the range of an operand: the end as a literal writes it, before it is widened
by a second or a day, or the end itself if it belongs to the range. -/
def TimeRange.lastMoment (r : TimeRange) (operand : Operand) : Scalar :=
  (operand.closing?.map stopOf).getD r.stop

/-- An end belongs to its range exactly if no literal gives it; the end of a literal is widened. -/
theorem Storage.stop_of_timeRange {s : Storage} {scope : Scope} : ∀ {operand : Operand}
    {r : TimeRange}, s.timeRange scope operand = .ok r →
      r.exclusive = operand.closing?.isSome ∧
        ∀ bound ∈ operand.closing?, r.stop = TimeRange.stopOf bound.widened
  | .temporal literal, r, h => by
    obtain rfl := Except.ok.inj h
    refine ⟨rfl, fun bound hbound => ?_⟩
    obtain rfl := Option.some.inj hbound
    cases literal <;> rfl
  | .interval start stop, r, h => by
    obtain ⟨first, -, h⟩ := bind_eq_ok.1 h
    obtain ⟨last, hlast, h⟩ := bind_eq_ok.1 h
    obtain rfl := pure_eq_ok.1 h
    have ih := stop_of_timeRange hlast
    exact ih
  | .property name, r, h => by
    obtain ⟨moment, -, rfl⟩ := map_eq_ok.1 h
    exact ⟨rfl, fun _ hbound => absurd hbound (Option.not_mem_none _)⟩
  | .apply function args, r, h => by
    obtain ⟨moment, -, rfl⟩ := map_eq_ok.1 h
    exact ⟨rfl, fun _ hbound => absurd hbound (Option.not_mem_none _)⟩

/-- An end that belongs to its range is the last moment of the range. -/
theorem Storage.lastMoment_eq_stop {s : Storage} {scope : Scope} {operand : Operand} {r : TimeRange}
    (h : s.timeRange scope operand = .ok r) (hinclusive : r.exclusive = false) :
    r.lastMoment operand = r.stop := by
  have hnone := (stop_of_timeRange h).1
  rw [hinclusive, eq_comm, Option.isSome_eq_false_iff, Option.isNone_iff_eq_none] at hnone
  rw [TimeRange.lastMoment, hnone]
  rfl

namespace TimeTest

/-- A test of equality asks the same with its sides swapped, and it asks for the same start and the
same last moment. -/
structure IsEquality (v : Scalar → α) (test swapped : TimeTest) (l r : TimeRange)
    (lastL lastR : Scalar) : Prop where
  symm : test.Holds v ↔ swapped.Holds v
  start_eq : test.Holds v → v l.start = v r.start
  last_eq : test.Holds v → v lastL = v lastR

/-- The ends of two ranges that start together can be compared: both belong to their ranges; or
neither does, and the same end closes the ranges at the same last moment; or one does, and it lies
where the other one is. -/
def ComparesEnds (v : Scalar → α) (l r : TimeRange) (lastL lastR : Scalar) : Prop :=
  match l.exclusive, r.exclusive with
  | false, false => True
  | true, true => v l.stop = v r.stop → v lastL = v lastR
  | _, _ => v l.stop = v r.stop

variable {l r : TimeRange} {v : Scalar → α} {hasOverlaps : Bool} {lastL lastR : Scalar}

theorem holds_equals_iff : (relate hasOverlaps .equals l r).Holds v ↔
    v l.start = v r.start ∧
      if l.exclusive = r.exclusive then v l.stop = v r.stop else v l.stop < v r.stop := by
  rw [relate, Holds, Holds, Holds]
  split <;> rfl

/-- If the two ends are of different kinds, only one of the two orders of the sides can hold. -/
theorem isEquality_relate_of_ne (hne : l.exclusive ≠ r.exclusive) (hstart : v l.start = v r.start) :
    IsEquality v (relate hasOverlaps .equals l r) (relate hasOverlaps .equals r l) l r lastL lastR ↔
      v l.stop = v r.stop := by
  have htest : (relate hasOverlaps .equals l r).Holds v ↔ v l.stop < v r.stop := by
    rw [holds_equals_iff, if_neg hne, and_iff_right hstart]
  have hswapped : (relate hasOverlaps .equals r l).Holds v ↔ v r.stop < v l.stop := by
    rw [holds_equals_iff, if_neg hne.symm, and_iff_right hstart.symm]
  constructor
  · intro h
    have hsymm := h.symm
    rw [htest, hswapped] at hsymm
    rcases lt_trichotomy (v l.stop) (v r.stop) with hlt | heq | hlt
    · exact absurd hlt (lt_asymm (hsymm.1 hlt))
    · exact heq
    · exact absurd hlt (lt_asymm (hsymm.2 hlt))
  · intro heq
    have hno : ¬ (relate hasOverlaps .equals l r).Holds v := by
      rw [htest, heq]
      exact lt_irrefl _
    refine ⟨?_, fun h => absurd h hno, fun h => absurd h hno⟩
    rw [htest, hswapped, heq]

/-- If the two ends are of one kind, the test is symmetric, and only the last moments matter. -/
theorem isEquality_relate_of_eq (heq : l.exclusive = r.exclusive) (hstart : v l.start = v r.start) :
    IsEquality v (relate hasOverlaps .equals l r) (relate hasOverlaps .equals r l) l r lastL lastR ↔
      (v l.stop = v r.stop → v lastL = v lastR) := by
  have htest : (relate hasOverlaps .equals l r).Holds v ↔ v l.stop = v r.stop := by
    rw [holds_equals_iff, if_pos heq, and_iff_right hstart]
  have hswapped : (relate hasOverlaps .equals r l).Holds v ↔ v r.stop = v l.stop := by
    rw [holds_equals_iff, if_pos heq.symm, and_iff_right hstart.symm]
  constructor
  · intro h hstop
    exact h.last_eq (htest.2 hstop)
  · intro hlast
    refine ⟨?_, fun _ => hstart, fun h => hlast (htest.1 h)⟩
    rw [htest, hswapped]
    exact eq_comm

/-- The tests of equality between two ranges, in both orders of the sides, are an equality exactly
if the ranges do not start together or their ends can be compared. -/
theorem isEquality_relate_iff (hl : l.exclusive = false → lastL = l.stop)
    (hr : r.exclusive = false → lastR = r.stop) :
    IsEquality v (relate hasOverlaps .equals l r) (relate hasOverlaps .equals r l) l r lastL lastR ↔
      (v l.start = v r.start → ComparesEnds v l r lastL lastR) := by
  by_cases hstart : v l.start = v r.start
  · refine Iff.trans ?_ (forall_prop_of_true hstart).symm
    rw [ComparesEnds]
    cases hkindL : l.exclusive <;> cases hkindR : r.exclusive
    · rw [isEquality_relate_of_eq (hkindL.trans hkindR.symm) hstart, hl hkindL, hr hkindR]
      exact iff_true_intro id
    · exact isEquality_relate_of_ne (by simp [hkindL, hkindR]) hstart
    · exact isEquality_relate_of_ne (by simp [hkindL, hkindR]) hstart
    · exact isEquality_relate_of_eq (hkindL.trans hkindR.symm) hstart
  · -- ranges that start apart are equal in neither order
    have htest : ¬ (relate hasOverlaps .equals l r).Holds v := fun h => hstart h.1
    have hswapped : ¬ (relate hasOverlaps .equals r l).Holds v := fun h => hstart h.1.symm
    refine iff_of_true ⟨iff_of_false htest hswapped, ?_, ?_⟩ fun h => absurd h hstart
    · exact fun h => absurd h htest
    · exact fun h => absurd h htest

end TimeTest

/-- The tests that the equality of two temporal operands is compiled to, in both orders, ask the
same and ask for the same start and the same last moment exactly if the ranges do not start together
or their ends can be compared. -/
theorem temporal_isEquality_iff {s : Storage} {scope : Scope} {left right : Operand}
    {l r : TimeRange} (hleft : s.timeRange scope left = .ok l)
    (hright : s.timeRange scope right = .ok r) (v : Scalar → α) :
    ∃ test swapped : TimeTest,
      (∀ negated,
        s.test scope negated (.temporal .equals left right) = .ok (.temporal test) ∧
        s.test scope negated (.temporal .equals right left) = .ok (.temporal swapped)) ∧
      (TimeTest.IsEquality v test swapped l r (l.lastMoment left) (r.lastMoment right) ↔
        (v l.start = v r.start →
          TimeTest.ComparesEnds v l r (l.lastMoment left) (r.lastMoment right))) ∧
      (l.HasNames → r.HasNames → ∀ level truth, ∀ shown ∈ [test, swapped],
        (∀ atom ∈ shown.atoms, atom.SaysItself s level truth v) →
          shown.SaysItself s level truth v) := by
  refine ⟨TimeTest.relate s.dialect.hasOverlaps .equals l r,
    TimeTest.relate s.dialect.hasOverlaps .equals r l, fun negated => ⟨?_, ?_⟩, ?_, ?_⟩
  · exact Storage.test_temporal_eq_ok .equals negated hleft hright
  · exact Storage.test_temporal_eq_ok .equals negated hright hleft
  · exact TimeTest.isEquality_relate_iff (Storage.lastMoment_eq_stop hleft)
      (Storage.lastMoment_eq_stop hright)
  · intro hlNames hrNames level truth shown hmem hatoms
    rcases List.mem_pair.1 hmem with rfl | rfl
    · exact TimeTest.saysItself_relate hlNames hrNames hatoms
    · exact TimeTest.saysItself_relate hrNames hlNames hatoms

/-- A range of days from an instant on is compared with one that a column begins. -/
theorem temporal_isEquality_iff_days :
    let day : Date := ⟨2020, 2, 1, by decide⟩
    let next : Date := ⟨2020, 2, 2, by decide⟩
    let instant : Instant := ⟨⟨2020, 1, 1, by decide⟩, 0, 0, by decide, by decide⟩
    let left : Operand := .interval (.temporal (.instant instant)) (.temporal (.date day))
    let right : Operand := .interval (.property "updated")
      (.temporal (.interval .unbounded (.date day)))
    let column : Scalar := .column outerRoot "updated"
    let l : TimeRange := ⟨.instant instant, .date next, true⟩
    let r : TimeRange := ⟨column, .date next, true⟩
    let v : Scalar → Nat := fun e =>
      if e = .instant instant ∨ e = column then 0 else if e = .date day then 1 else 2
    ∃ tree, TableTree.ofPaths ["parcel/updated"] = .ok tree ∧
      let s := Storage.plain tree .postgis
      let scope : Scope := .feature [(s.root.path, outerRoot)]
      s.timeRange scope left = .ok l ∧ s.timeRange scope right = .ok r ∧
      ∃ test swapped : TimeTest,
        (∀ negated,
          s.test scope negated (.temporal .equals left right) = .ok (.temporal test) ∧
          s.test scope negated (.temporal .equals right left) = .ok (.temporal swapped)) ∧
        (TimeTest.IsEquality v test swapped l r (l.lastMoment left) (r.lastMoment right) ↔
          (v l.start = v r.start →
            TimeTest.ComparesEnds v l r (l.lastMoment left) (r.lastMoment right))) ∧
        (l.HasNames → r.HasNames → ∀ level truth, ∀ shown ∈ [test, swapped],
          (∀ atom ∈ shown.atoms, atom.SaysItself s level truth v) →
            shown.SaysItself s level truth v) := by
  intro day next instant left right column l r v
  obtain ⟨tree, htree, hleft, hright⟩ := Storage.exists_timeRanges ["parcel/updated"] .postgis
    left right l r (by decide +kernel)
  exact ⟨tree, htree, hleft, hright, temporal_isEquality_iff hleft hright v⟩

/-- What was updated at an instant equals the instant, but the instant does not equal what was
updated then. -/
theorem not_isEquality_instant :
    let instant : Instant := ⟨⟨2020, 1, 1, by decide⟩, 0, 0, by decide, by decide⟩
    let next : Instant := ⟨⟨2020, 1, 1, by decide⟩, 1, 0, by decide, by decide⟩
    let left : Operand := .property "updated"
    let right : Operand := .temporal (.instant instant)
    let column : Scalar := .column outerRoot "updated"
    let l : TimeRange := ⟨column, column, false⟩
    let r : TimeRange := ⟨.instant instant, .instant next, true⟩
    let v : Scalar → Nat := fun e => if e = .instant next then 1 else 0
    ∃ tree, TableTree.ofPaths ["parcel/updated"] = .ok tree ∧
      let s := Storage.plain tree .postgis
      let scope : Scope := .feature [(s.root.path, outerRoot)]
      s.timeRange scope left = .ok l ∧ s.timeRange scope right = .ok r ∧
      l.IsNonempty v ∧ r.IsNonempty v ∧
      ∃ test swapped : TimeTest,
        s.test scope false (.temporal .equals left right) = .ok (.temporal test) ∧
        s.test scope false (.temporal .equals right left) = .ok (.temporal swapped) ∧
        test.Holds v ∧ ¬ swapped.Holds v := by
  intro instant next left right column l r v
  obtain ⟨tree, htree, hleft, hright⟩ := Storage.exists_timeRanges ["parcel/updated"] .postgis
    left right l r (by decide +kernel)
  have hl : l.IsNonempty v := by decide +kernel
  have hr : r.IsNonempty v := by decide +kernel
  refine ⟨tree, htree, hleft, hright, hl, hr, TimeTest.relate true .equals l r,
    TimeTest.relate true .equals r l, ?_, ?_, ?_, ?_⟩
  · exact Storage.test_temporal_eq_ok .equals false hleft hright
  · exact Storage.test_temporal_eq_ok .equals false hright hleft
  · exact TimeTest.holds_equals_iff.2 ⟨by decide +kernel, by decide +kernel⟩
  · rw [TimeTest.holds_equals_iff]
    decide +kernel

end FeatureStore
