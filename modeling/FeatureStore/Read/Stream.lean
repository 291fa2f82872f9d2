import FeatureStore.Read.Reconstruction

/-!
# Streams of events

The events of a read, one at a time. Rows are taken from the merge only when no
event is left, so a reader who stops early leaves the other rows untouched. A
failure is the last thing that a stream gives (`FeatureStream.next`).
-/

namespace FeatureStore

/-- Where the events to come are made from. -/
inductive EventSource where
  /-- Rows are still merged. -/
  | reading (merge : Merge) (state : Reconstruction)
  /-- There are no rows; only the end is missing. -/
  | ending (state : Reconstruction)
  /-- Nothing more comes. -/
  | closed
  deriving Inhabited

/-- A stream of events. -/
structure FeatureStream where
  /-- Events that were made already. -/
  pending : List Event
  source : EventSource
  /-- The number of rows taken so far. -/
  taken : Nat
  deriving Inhabited

namespace FeatureStream

/-- A stream that begins with an event. -/
def start (first : Event) (source : EventSource) : FeatureStream := ⟨[first], source, 0⟩

/-- A stream of an event and the end. -/
def empty (first : Event) : FeatureStream := ⟨[first, .stop], .closed, 0⟩

/-- A stream that gives nothing. -/
def ended (taken : Nat) : FeatureStream := ⟨[], .closed, taken⟩

/-- Merges rows until one of them makes events, or the rows end. -/
def fill (taken : Nat) (m : Merge) (r : Reconstruction) : FeatureStream × Option Error :=
  match h : m.next with
  | (none, left) => (⟨r.finish.1, .closed, taken + (m.untaken - left.untaken)⟩, none)
  | (some (.error failure), left) =>
    (ended (taken + (m.untaken - left.untaken)), some (.execution failure))
  | (some (.ok row), left) =>
    have : left.size < m.size := Merge.size_next_lt h
    let now := taken + (m.untaken - left.untaken)
    match r.push row with
    | (.error e, _) => (ended now, some e)
    | (.ok [], next) => fill now left next
    | (.ok events, next) => (⟨events, .reading left next, now⟩, none)
termination_by m.size

/-- The first of the events that were made already. -/
def pop (s : FeatureStream) : Option (Except Error Event) × FeatureStream :=
  match s.pending with
  | [] => (none, s)
  | event :: rest => (some (.ok event), { s with pending := rest })

/-- The next event, or a failure; nothing at the end. -/
def next (s : FeatureStream) : Option (Except Error Event) × FeatureStream :=
  match s.pending, s.source with
  | _ :: _, _ => s.pop
  | [], .closed => (none, s)
  | [], .ending r => pop { s with pending := r.finish.1, source := .closed }
  | [], .reading m r =>
    match fill s.taken m r with
    | (filled, some e) => (some (.error e), filled)
    | (filled, none) => filled.pop

/-- Merges rows until a feature begins, behind the events made already. Gives whether one does. -/
def primeFrom (pending : List Event) (taken : Nat) (m : Merge) (r : Reconstruction) :
    Except Error Bool × FeatureStream :=
  if pending.any Event.isFeatureStart then (.ok true, ⟨pending, .reading m r, taken⟩)
  else match h : m.next with
    | (none, left) => (.ok false, ended (taken + (m.untaken - left.untaken)))
    | (some (.error failure), left) =>
      (.error (.execution failure), ended (taken + (m.untaken - left.untaken)))
    | (some (.ok row), left) =>
      have : left.size < m.size := Merge.size_next_lt h
      let now := taken + (m.untaken - left.untaken)
      match r.push row with
      | (.error e, _) => (.error e, ended now)
      | (.ok events, next) => primeFrom (pending ++ events) now left next
termination_by m.size

/-- Merges rows until a feature begins. Gives whether one does. -/
def prime (s : FeatureStream) : Except Error Bool × FeatureStream :=
  match s.source with
  | .reading m r => primeFrom s.pending s.taken m r
  | _ => (.ok (s.pending.any Event.isFeatureStart), s)

/-! ## Every event given leaves less to come -/

/-- The number of steps that a source is good for at most. -/
def sourceSize : EventSource → Nat
  | .reading m _ => m.size + 2
  | .ending _ => 1
  | .closed => 0

/-- Filling a stream uses up a part of the merge. -/
theorem sourceSize_fill_lt (taken : Nat) (m : Merge) (r : Reconstruction) :
    sourceSize (fill taken m r).1.source < m.size + 2 := by
  fun_induction fill taken m r with
  | case1 => simp [sourceSize]
  | case2 => simp [ended, sourceSize]
  | case3 => simp [ended, sourceSize]
  | case4 => omega
  | case5 => simp [sourceSize]; omega

/-- Taking an event that was made already leaves the source as it is. -/
theorem pop_some {s left : FeatureStream} {item : Except Error Event}
    (h : s.pop = (some item, left)) :
    left.source = s.source ∧ left.pending.length < s.pending.length := by
  unfold pop at h
  split at h
  · simp at h
  · rename_i event rest hp
    obtain ⟨-, rfl⟩ := Prod.mk.inj h
    simp [hp]

/-- An event given leaves a smaller source, or the same with fewer events. -/
theorem next_decreases {s left : FeatureStream} {event : Event}
    (h : s.next = (some (.ok event), left)) :
    Prod.Lex (· < ·) (· < ·) (sourceSize left.source, left.pending.length)
      (sourceSize s.source, s.pending.length) := by
  unfold next at h
  split at h
  · obtain ⟨hs, hl⟩ := pop_some h
    rw [hs]
    exact Prod.Lex.right _ hl
  · simp at h
  · rename_i r _ hsource
    obtain ⟨hs, -⟩ := pop_some h
    apply Prod.Lex.left
    rw [hs, hsource]
    simp [sourceSize]
  · rename_i m r _ hsource
    have hfill := sourceSize_fill_lt s.taken m r
    split at h
    · simp at h
    · rename_i filled hf
      rw [hf] at hfill
      obtain ⟨hs, -⟩ := pop_some h
      apply Prod.Lex.left
      rw [hs, hsource]
      simpa [sourceSize] using hfill

/-- All events to come, up to the end or the first failure, and the stream behind them. -/
def drain (s : FeatureStream) : List Event × Option Error × FeatureStream :=
  match h : s.next with
  | (none, left) => ([], none, left)
  | (some (.error e), left) => ([], some e, left)
  | (some (.ok event), left) =>
    have := next_decreases h
    let (events, failure, last) := left.drain
    (event :: events, failure, last)
termination_by (sourceSize s.source, s.pending.length)
decreasing_by exact this

end FeatureStream

end FeatureStore
