import FeatureStore.Proofs.Read.Roundtrip

/-!
# Streams as a whole

A stream gives events one by one, and may fail between any two of them. As a whole it is a list of
events or one failure (`FeatureStream.collected`), and this does not depend on how far the rows were
merged in advance. A stream over a merge gives what the rows of the merge decode to
(`collected_reading`), where rows are decoded until one of them cannot be or the merge fails
(`Reconstruction.decode`). A stream that has to begin a feature merges rows in advance and keeps
their events, so it gives what it would have given anyway, if a feature is among that
(`collected_found`).
-/

set_option autoImplicit false

namespace FeatureStore

/-! ## Rows to decode -/

theorem map_nil_append (x : Except Error (List Event)) : x.map ([] ++ ·) = x := by
  cases x <;> rfl

namespace Reconstruction

/-- All events of some rows and the end, or the first failure, which is that of a row or the one
that the rows ended with. -/
def decode (r : Reconstruction) : List MergedRow → Option ExecutionFailure →
    Except Error (List Event)
  | [], none => .ok r.finish.1
  | [], some failure => .error (.execution failure)
  | x :: rows, ended =>
    match r.push x with
    | (.error e, _) => .error e
    | (.ok events, next) => (next.decode rows ended).map (events ++ ·)

variable {r next : Reconstruction} {x : MergedRow} {rows : List MergedRow} {events : List Event}
  {ended : Option ExecutionFailure}

theorem decode_of_push_error {e : Error} (h : (r.push x).1 = .error e) :
    r.decode (x :: rows) ended = .error e := by
  have hpush : r.push x = (.error e, (r.push x).2) := Prod.ext h rfl
  rw [decode, hpush]

theorem decode_of_push_ok (h : r.push x = (.ok events, next)) :
    r.decode (x :: rows) ended = (next.decode rows ended).map (events ++ ·) := by
  rw [decode, h]

/-- Rows that were pushed give their events in front of the others. -/
theorem decode_of_pushes (h : Pushes r rows events next) (rest : List MergedRow) :
    r.decode (rows ++ rest) ended = (next.decode rest ended).map (events ++ ·) := by
  induction h with
  | nil r => exact (map_nil_append _).symm
  | cons hpush _ ih =>
    rw [List.cons_append, decode_of_push_ok hpush, ih]
    cases decode _ rest ended with
    | error e => rfl
    | ok more => exact congrArg Except.ok (List.append_assoc _ _ _).symm

/-- Rows that were all pushed give their events and the end, unless they ended with a failure. -/
theorem decode_of_pushes_all (h : Pushes r rows events next) (ended : Option ExecutionFailure) :
    r.decode rows ended = match ended with
      | none => .ok (events ++ next.finish.1)
      | some failure => .error (.execution failure) := by
  have hdecode : r.decode (rows ++ []) ended = _ := decode_of_pushes h []
  rw [List.append_nil] at hdecode
  rw [hdecode]
  cases ended <;> rfl

/-- Rows are all pushed, up to one that cannot be. -/
theorem exists_pushes (r : Reconstruction) (rows : List MergedRow) :
    (∃ events last, Pushes r rows events last) ∨
      ∃ before x rest events next e, rows = before ++ x :: rest ∧ Pushes r before events next ∧
        (next.push x).1 = .error e := by
  induction rows generalizing r with
  | nil => exact .inl ⟨[], r, .nil r⟩
  | cons x rows ih =>
    rcases hpush : r.push x with ⟨e | events, next⟩
    · exact .inr ⟨[], x, rows, [], r, e, rfl, .nil r, by rw [hpush]⟩
    · rcases ih next with ⟨more, last, hrows⟩ | ⟨before, y, rest, more, last, e, rfl, hbefore, he⟩
      · exact .inl ⟨_, last, .cons hpush hrows⟩
      · exact .inr ⟨x :: before, y, rest, _, last, e, rfl, .cons hpush hbefore, he⟩

end Reconstruction

/-! ## What a stream gives -/

namespace FeatureStream

/-- All events of a stream, or the failure that it ends with. -/
def collected (s : FeatureStream) : Except Error (List Event) :=
  match s.drain with
  | (events, none, _) => .ok events
  | (_, some e, _) => .error e

theorem collected_congr {s t : FeatureStream} (h : s.next = t.next) :
    s.collected = t.collected := by
  rw [collected, collected, drain_congr h]

/-- The events that were made already come first. -/
theorem collected_pending (events : List Event) (source : EventSource) (taken : Nat) :
    collected ⟨events, source, taken⟩ = (collected ⟨[], source, taken⟩).map (events ++ ·) := by
  rw [collected, collected, drain_pending]
  rcases drain ⟨[], source, taken⟩ with ⟨more, _ | e, left⟩ <;> rfl

theorem collected_closed (events : List Event) (taken : Nat) :
    collected ⟨events, .closed, taken⟩ = .ok events := by
  rw [collected_pending, collected, drain_of_next_none rfl]
  exact congrArg Except.ok (List.append_nil events)

theorem collected_ending (r : Reconstruction) (taken : Nat) :
    collected ⟨[], .ending r, taken⟩ = .ok r.finish.1 := by
  have hnext : next ⟨[], .ending r, taken⟩ = next ⟨r.finish.1, .closed, taken⟩ := by
    show pop ⟨r.finish.1, .closed, taken⟩ = next ⟨r.finish.1, .closed, taken⟩
    cases r.finish.1 <;> rfl
  rw [collected_congr hnext, collected_closed]

/-- A failure while rows are merged is what the stream ends with. -/
theorem collected_of_fill_failure {taken : Nat} {m : Merge} {r : Reconstruction} {e : Error}
    {left : FeatureStream} (h : fill taken m r = (left, some e)) :
    collected ⟨[], .reading m r, taken⟩ = .error e := by
  have hnext : next ⟨[], .reading m r, taken⟩ = (some (.error e), left) := by
    rw [next]
    simp only [h]
  rw [collected, drain_of_next_failure hnext]

/-- A stream gives what the rows of its merge decode to. -/
theorem collected_reading (m : Merge) (r : Reconstruction) (taken : Nat) :
    collected ⟨[], .reading m r, taken⟩ = r.decode m.run.1 m.run.2 := by
  -- the stream and the run of the merge go on with the same row, and then with a smaller merge
  rcases hnext : m.next with ⟨_ | failure | x, left⟩
  · obtain ⟨last, hdrain⟩ := drain_of_end r taken hnext
    rw [collected, hdrain, Merge.run_of_next_none hnext]
    rfl
  · have hfill : fill taken m r =
        (ended (taken + (m.untaken - left.untaken)), some (.execution failure)) := by
      rw [fill]
      split <;> rename_i heq <;> rw [hnext] at heq
      · simp at heq
      · obtain ⟨hfailure, rfl⟩ := Prod.mk.inj heq
        obtain rfl : failure = _ := by simpa using hfailure
        rfl
      · simp at heq
    rw [collected_of_fill_failure hfill, Merge.run_of_next_failure hnext]
    rfl
  · rw [Merge.run_of_next_row hnext]
    rcases hpush : r.push x with ⟨e | _ | ⟨event, events⟩, after⟩
    · have hfill := fill_of_next_row taken r hnext
      rw [hpush] at hfill
      rw [collected_of_fill_failure hfill, Reconstruction.decode_of_push_error (by rw [hpush])]
    · obtain ⟨now, hdrain⟩ := drain_of_push_nil taken hnext hpush
      have ih := collected_reading left after now
      rw [Reconstruction.decode_of_push_ok hpush, ← ih, map_nil_append, collected, hdrain]
      rfl
    · obtain ⟨now, hdrain⟩ := drain_of_push_cons taken hnext hpush
      have ih := collected_reading left after now
      rw [Reconstruction.decode_of_push_ok hpush, ← ih, ← collected_pending, collected, hdrain]
      rfl
termination_by m.size
decreasing_by all_goals exact Merge.size_next_lt hnext

/-! ## Looking for a feature in advance -/

/-- The events, if a feature begins among them; otherwise there is none with the identifier. -/
def withFeature (id : String) (events : List Event) : Except Error (List Event) :=
  if events.any Event.isFeatureStart then .ok events else .error (.notFound id)

theorem withFeature_of_any {id : String} {events : List Event}
    (h : events.any Event.isFeatureStart = true) : withFeature id events = .ok events :=
  if_pos h

theorem withFeature_of_not_any {id : String} {events : List Event}
    (h : events.any Event.isFeatureStart = false) :
    withFeature id events = .error (.notFound id) := by
  rw [withFeature, h, if_neg Bool.false_ne_true]

/-- No feature begins behind the last row. -/
theorem any_finish (r : Reconstruction) : r.finish.1.any Event.isFeatureStart = false := by
  rw [Reconstruction.finish, Reconstruction.closing]
  split <;> rfl

/-- The stream behind a look for a feature in advance, if there is one. -/
def found (id : String) : Except Error Bool × FeatureStream → Except Error FeatureStream
  | (.ok true, left) => .ok left
  | (.ok false, _) => .error (.notFound id)
  | (.error e, _) => .error e

/-- Behind pending events that begin a feature there is nothing to look for. -/
theorem bind_withFeature_of_any {id : String} {pending : List Event}
    (h : pending.any Event.isFeatureStart = true) (x : Except Error (List Event)) :
    x.map (pending ++ ·) >>= withFeature id = x.map (pending ++ ·) := by
  cases x with
  | error e => rfl
  | ok events => exact withFeature_of_any (by rw [List.any_append, h, Bool.true_or])

/-- Merging rows in advance only asks for a feature. -/
theorem collected_primeFrom (id : String) (pending : List Event) (taken : Nat) (m : Merge)
    (r : Reconstruction) :
    found id (primeFrom pending taken m r) >>= collected =
      collected ⟨pending, .reading m r, taken⟩ >>= withFeature id := by
  rw [collected_pending, collected_reading]
  -- each row looked at in advance is one that the stream would push next
  fun_induction primeFrom pending taken m r with
  | case1 pending taken m r hany =>
    rw [bind_withFeature_of_any hany, ← collected_reading m r taken, ← collected_pending]
    rfl
  | case2 pending taken m r hany left hnext =>
    rw [Merge.run_of_next_none hnext]
    -- the rows end without a feature, and their end does not begin one
    refine (withFeature_of_not_any ?_).symm
    rw [List.any_append, any_finish, Bool.or_false, Bool.eq_false_iff]
    exact hany
  | case3 pending taken m r hany failure left hnext =>
    rw [Merge.run_of_next_failure hnext]
    rfl
  | case4 pending taken m r hany x left hnext _ now e after hpush =>
    rw [Merge.run_of_next_row hnext, Reconstruction.decode_of_push_error (by rw [hpush])]
    rfl
  | case5 pending taken m r hany x left hnext _ now events next hpush ih =>
    rw [ih, Merge.run_of_next_row hnext, Reconstruction.decode_of_push_ok hpush]
    cases next.decode left.run.1 left.run.2 with
    | error e => rfl
    | ok more => exact congrArg (withFeature id) (List.append_assoc _ _ _)

/-- A stream that has to begin a feature gives what it gives anyway, if there is a feature. -/
theorem collected_found (id : String) (s : FeatureStream) :
    found id s.prime >>= collected = s.collected >>= withFeature id := by
  rcases s with ⟨pending, source, taken⟩
  -- without rows to merge all features are pending
  have hpending : ∀ more : List Event, more.any Event.isFeatureStart = false →
      collected ⟨pending, source, taken⟩ = .ok (pending ++ more) →
      found id (.ok (pending.any Event.isFeatureStart), ⟨pending, source, taken⟩) >>= collected =
        collected ⟨pending, source, taken⟩ >>= withFeature id := by
    intro more hmore hcollected
    have hany : (pending ++ more).any Event.isFeatureStart = pending.any Event.isFeatureStart := by
      rw [List.any_append, hmore, Bool.or_false]
    rw [hcollected]
    cases hfeature : pending.any Event.isFeatureStart with
    | true =>
      exact hcollected.trans (withFeature_of_any (hany.trans hfeature)).symm
    | false => exact (withFeature_of_not_any (hany.trans hfeature)).symm
  cases source with
  | reading m r => exact collected_primeFrom id pending taken m r
  | ending r =>
    refine hpending r.finish.1 (any_finish r) ?_
    rw [collected_pending, collected_ending]
    rfl
  | closed =>
    refine hpending [] rfl ?_
    rw [collected_closed, List.append_nil]

end FeatureStream

end FeatureStore
