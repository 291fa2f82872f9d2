import FeatureStore.Proofs.Read.Roundtrip
import FeatureStore.Provider

/-!
# Words of events

What a reader of events can rely on, whatever the database answers. The events of a complete read
are a word: a start, features and the end, where a feature is its values between a start and an end
and a value has at most one text between a start and an end that name the same property (`IsWord`).

Events are made in four places: when a stream is opened, when it is primed for the look-up of one
feature, for every row, and behind the last row. All of them keep one invariant. What was given so
far, together with what was made already, begins a word, and a feature is open in it exactly if the
reconstruction has a current root key (`FeatureStream.GoesOn`). A row keeps it (`IsFront.push`), and
so does a call (`FeatureStream.next_cases`). By induction over the calls a stream gives a word, or a
failure in the middle of one, and then nothing more (`stream_givesWord`).
-/

set_option autoImplicit false

namespace FeatureStore

/-! ## Words -/

/-- The events of one value: its start, its text unless it is missing, and its end. -/
inductive IsValueWord : List Event → Prop
  | missing (property : String) (multiplicities : List Nat) :
    IsValueWord [.propertyStart property multiplicities, .propertyEnd property]
  | text (property : String) (multiplicities : List Nat) (value : String) :
    IsValueWord [.propertyStart property multiplicities, .text value, .propertyEnd property]

/-- The events of one feature: its values between its start and its end. -/
inductive IsFeatureWord : List Event → Prop
  | values (featureType id : String) {values : List (List Event)} :
    (∀ value ∈ values, IsValueWord value) →
      IsFeatureWord (.featureStart featureType id :: values.flatten ++ [.featureEnd])

/-- The events of a complete read: features between the start and the end. -/
inductive IsWord : List Event → Prop
  | features (returned : Nat) (matched : Option Nat) (single : Bool)
    {features : List (List Event)} : (∀ feature ∈ features, IsFeatureWord feature) →
      IsWord (.start returned matched single :: features.flatten ++ [.stop])

/-- The events begin a word and may be followed by its end, or by that of the open feature. -/
inductive IsFront : Bool → List Event → Prop
  | start (returned : Nat) (matched : Option Nat) (single : Bool) :
    IsFront false [.start returned matched single]
  | featureStart {events : List Event} (featureType id : String) : IsFront false events →
    IsFront true (events ++ [.featureStart featureType id])
  | value {events value : List Event} : IsFront true events → IsValueWord value →
    IsFront true (events ++ value)
  | featureEnd {events : List Event} : IsFront true events → IsFront false (events ++ [.featureEnd])

namespace IsFront

/-- Between features there are only whole ones, and the last feature may be open. -/
theorem exists_features {isOpen : Bool} {events : List Event} (h : IsFront isOpen events) :
    ∃ returned matched single features, (∀ feature ∈ features, IsFeatureWord feature) ∧
      match isOpen with
      | false => events = .start returned matched single :: List.flatten features
      | true => ∃ featureType id values, (∀ value ∈ values, IsValueWord value) ∧
          events = .start returned matched single :: features.flatten ++
            .featureStart featureType id :: List.flatten values := by
  induction h with
  | start returned matched single => exact ⟨returned, matched, single, [], by simp, rfl⟩
  | featureStart featureType id _ ih =>
    obtain ⟨returned, matched, single, features, hfeatures, rfl⟩ := ih
    exact ⟨returned, matched, single, features, hfeatures, featureType, id, [], by simp, rfl⟩
  | @value events value _ hvalue ih =>
    obtain ⟨returned, matched, single, features, hfeatures, featureType, id, values, hvalues, rfl⟩ :=
      ih
    refine ⟨returned, matched, single, features, hfeatures, featureType, id, values ++ [value],
      List.forall_mem_append.2 ⟨hvalues, List.forall_mem_singleton.2 hvalue⟩, ?_⟩
    simp
  | featureEnd _ ih =>
    obtain ⟨returned, matched, single, features, hfeatures, featureType, id, values, hvalues, rfl⟩ :=
      ih
    refine ⟨returned, matched, single, features ++ [.featureStart featureType id ::
      values.flatten ++ [.featureEnd]], List.forall_mem_append.2 ⟨hfeatures,
        List.forall_mem_singleton.2 (.values featureType id hvalues)⟩, ?_⟩
    simp

/-- The end of the open feature, if there is one, and the end of the events make a word. -/
theorem isWord {isOpen : Bool} {events : List Event} (h : IsFront isOpen events) :
    IsWord (events ++ ((if isOpen then [.featureEnd] else []) ++ [.stop])) := by
  have hclosed : ∀ {events : List Event}, IsFront false events → IsWord (events ++ [.stop]) := by
    intro events h
    obtain ⟨returned, matched, single, features, hfeatures, rfl⟩ := h.exists_features
    exact .features returned matched single hfeatures
  cases isOpen with
  | false => exact hclosed h
  | true =>
    rw [if_pos rfl, ← List.append_assoc]
    exact hclosed h.featureEnd

/-- A front is always short of the end. -/
theorem exists_rest {isOpen : Bool} {events : List Event} (h : IsFront isOpen events) :
    ∃ rest, rest ≠ [] ∧ IsWord (events ++ rest) :=
  ⟨_, List.append_ne_nil_of_right_ne_nil _ (List.cons_ne_nil _ _), h.isWord⟩

end IsFront

/-! ## Rows -/

open Reconstruction

theorem isValueWord_valueEvents (multiplicities : List Nat) (property : String)
    (value : Option String) : IsValueWord (valueEvents multiplicities property value) := by
  cases value with
  | none => exact .missing property multiplicities
  | some text => exact .text property multiplicities text

namespace IsFront

variable {events : List Event} {r : Reconstruction}

/-- The values of any columns stand inside the open feature. -/
theorem append_values {α : Type} (word : α → List Event) :
    ∀ {columns : List α} {events : List Event}, IsFront true events →
      (∀ column ∈ columns, IsValueWord (word column)) →
        IsFront true (events ++ columns.flatMap word)
  | [], _, h, _ => by simpa using h
  | column :: columns, _, h, hall => by
    obtain ⟨hcolumn, hcolumns⟩ := List.forall_mem_cons.1 hall
    rw [List.flatMap_cons, ← List.append_assoc]
    exact append_values word (h.value hcolumn) hcolumns

/-- Opening a feature ends the one before, and the feature is open afterwards. -/
theorem openFeature (h : IsFront r.current.isSome events) (rootKey id : String) :
    IsFront true (events ++ (r.openFeature rootKey id).1) ∧
      (r.openFeature rootKey id).2.current.isSome = true := by
  rw [Reconstruction.openFeature]
  split
  · rename_i hcurrent
    rw [hcurrent] at h
    exact ⟨by simpa using h, by rw [hcurrent]; rfl⟩
  · refine ⟨?_, rfl⟩
    dsimp only
    rw [closing]
    cases hcurrent : r.current.isSome with
    | false =>
      rw [hcurrent] at h
      exact h.featureStart r.featureType id
    | true =>
      rw [hcurrent] at h
      rw [if_pos rfl, ← List.append_assoc]
      exact h.featureEnd.featureStart r.featureType id

theorem pushKeyed (h : IsFront r.current.isSome events) (index : Nat) (group : GroupLayout)
    (row : Row) (keys : List String) :
    IsFront (r.pushKeyed index group row keys).2.current.isSome
      (events ++ (r.pushKeyed index group row keys).1) := by
  simp only [Reconstruction.pushKeyed]
  -- the feature is opened first, so that the values of the row belong to it
  obtain ⟨hopen, hcurrent⟩ := h.openFeature (keys.headD "") (((if index = 0 then
    group.identifier? else none).bind fun i =>
      row.text? (r.readerKeys + group.chain.length + i)).getD (keys.headD ""))
  rw [hcurrent, ← List.append_assoc]
  exact append_values _ hopen fun column _ => isValueWord_valueEvents _ _ _

/-- A row continues what begins a word. -/
theorem push (h : IsFront r.current.isSome events) {x : MergedRow} {made : List Event}
    {next : Reconstruction} (hpush : r.push x = (.ok made, next)) :
    IsFront next.current.isSome (events ++ made) := by
  unfold Reconstruction.push at hpush
  split at hpush
  · simp at hpush
  · rename_i group _
    dsimp only at hpush
    split at hpush
    · simp at hpush
    · split at hpush
      · obtain ⟨hmade, rfl⟩ := Prod.mk.inj hpush
        rw [← Except.ok.inj hmade, List.append_nil]
        exact h
      · rename_i keys _
        obtain ⟨hmade, rfl⟩ := Prod.mk.inj hpush
        rw [← Except.ok.inj hmade]
        have hcounted : IsFront { r with rows := r.rows + 1 }.current.isSome events := h
        exact hcounted.pushKeyed x.group group x.row keys

end IsFront

/-! ## Calls of a stream -/

namespace FeatureStream

/-- What was given so far and what was made already begin a word, in which a feature is open as far
as the reconstruction knows; without a source they are a whole one. -/
def GoesOn (s : FeatureStream) (given : List Event) : Prop :=
  match s.source with
  | .reading _ r => IsFront r.current.isSome (given ++ s.pending)
  | .ending r => IsFront r.current.isSome (given ++ s.pending)
  | .closed => IsWord (given ++ s.pending)

/-- Merging rows makes the next events of the word, or fails in the middle of it. -/
theorem fill_cases (taken : Nat) (m : Merge) (r : Reconstruction) {given : List Event}
    (h : IsFront r.current.isSome given) :
    (∃ filled, fill taken m r = (filled, none) ∧ filled.pending ≠ [] ∧ filled.GoesOn given) ∨
      ∃ e now, fill taken m r = (ended now, some e) := by
  fun_induction fill taken m r with
  | case1 taken m r left hnext =>
    refine .inl ⟨_, rfl, List.append_ne_nil_of_right_ne_nil _ (List.cons_ne_nil _ _), ?_⟩
    exact h.isWord
  | case2 => exact .inr ⟨_, _, rfl⟩
  | case3 => exact .inr ⟨_, _, rfl⟩
  | case4 taken m r row left hnext _ now next hpush ih =>
    exact ih (by simpa using h.push hpush)
  | case5 taken m r row left hnext _ now events next hne hpush =>
    exact .inl ⟨_, rfl, hne, h.push hpush⟩

/-- What a call does: it gives the next event of the word, or nothing behind a whole one, or a
failure in the middle of it. Behind the last two nothing is left to give. -/
theorem next_cases {s : FeatureStream} {given : List Event} (h : s.GoesOn given) :
    (∃ event left, s.next = (some (.ok event), left) ∧ left.GoesOn (given ++ [event])) ∨
      (s.next = (none, s) ∧ IsWord given) ∨
      ∃ e taken, s.next = (some (.error e), ended taken) ∧
        ∃ rest, rest ≠ [] ∧ IsWord (given ++ rest) := by
  -- an event that was made already is given next
  have hpop : ∀ {s : FeatureStream}, s.pending ≠ [] → s.GoesOn given →
      ∃ event left, s.pop = (some (.ok event), left) ∧ left.GoesOn (given ++ [event]) := by
    intro s hne h
    obtain ⟨event, rest, hpending⟩ := List.exists_cons_of_ne_nil hne
    refine ⟨event, { s with pending := rest }, by rw [pop, hpending], ?_⟩
    rw [GoesOn, hpending, ← List.singleton_append, ← List.append_assoc] at h
    exact h
  by_cases hpending : s.pending = []
  · cases hsource : s.source with
    | closed =>
      rw [GoesOn, hsource, hpending, List.append_nil] at h
      exact .inr (.inl ⟨by rw [next, hpending, hsource], h⟩)
    | ending r =>
      rw [GoesOn, hsource, hpending, List.append_nil] at h
      have hnext : s.next = pop { s with pending := r.finish.1, source := .closed } := by
        rw [next, hpending, hsource]
      rw [hnext]
      exact .inl (hpop (List.append_ne_nil_of_right_ne_nil _ (List.cons_ne_nil _ _)) h.isWord)
    | reading m r =>
      rw [GoesOn, hsource, hpending, List.append_nil] at h
      rcases fill_cases s.taken m r h with ⟨filled, hfill, hne, hgoes⟩ | ⟨e, now, hfill⟩
      · have hnext : s.next = filled.pop := by
          rw [next, hpending, hsource]
          simp only [hfill]
        rw [hnext]
        exact .inl (hpop hne hgoes)
      · have hnext : s.next = (some (.error e), ended now) := by
          rw [next, hpending, hsource]
          simp only [hfill]
        exact .inr (.inr ⟨e, now, hnext, h.exists_rest⟩)
  · have hnext : s.next = s.pop := by
      obtain ⟨event, rest, hcons⟩ := List.exists_cons_of_ne_nil hpending
      rw [next, hcons]
    rw [hnext]
    exact .inl (hpop hpending h)

/-- A stream behind a number of calls. -/
def after (s : FeatureStream) : Nat → FeatureStream
  | 0 => s
  | n + 1 => (s.next.2).after n

/-- What a stream gives at the call behind a number of calls. -/
def callAfter (s : FeatureStream) (n : Nat) : Option (Except Error Event) := (s.after n).next.1

theorem callAfter_zero (s : FeatureStream) : s.callAfter 0 = s.next.1 := rfl

theorem callAfter_succ (s : FeatureStream) (n : Nat) :
    s.callAfter (n + 1) = s.next.2.callAfter n := rfl

/-- A stream that has nothing to give and stays as it is never gives anything. -/
theorem callAfter_of_next_none {s : FeatureStream} (h : s.next = (none, s)) (n : Nat) :
    s.callAfter n = none := by
  induction n with
  | zero => rw [callAfter_zero, h]
  | succ n ih => rw [callAfter_succ, h, ih]

/-- The events are a whole word, or if there is a failure behind them, the beginning of one. -/
def EndsWord (events : List Event) (failure : Option Error) : Prop :=
  match failure with
  | none => IsWord events
  | some _ => ∃ rest, rest ≠ [] ∧ IsWord (events ++ rest)

/-- The calls of a stream give some events one by one and then the failure, if there is one, and
nothing behind that. Draining the stream gives the same. -/
structure Gives (s : FeatureStream) (events : List Event) (failure : Option Error) : Prop where
  callAfter_eq : ∀ n,
    s.callAfter n = (events.map Except.ok ++ failure.toList.map Except.error)[n]?
  drain_eq : ∃ left, s.drain = (events, failure, left)

/-- A failure at any of the calls is the failure that the stream gives. -/
theorem Gives.failure_eq {s : FeatureStream} {events : List Event} {failure : Option Error}
    (h : s.Gives events failure) {n : Nat} {e : Error}
    (hcall : s.callAfter n = some (.error e)) : failure = some e := by
  rw [h.callAfter_eq] at hcall
  rcases List.mem_append.1 (List.mem_of_getElem? hcall) with hmem | hmem
  · obtain ⟨event, -, hevent⟩ := List.mem_map.1 hmem
    exact nomatch hevent
  · obtain ⟨given, hgiven, herror⟩ := List.mem_map.1 hmem
    rw [← Except.error.inj herror]
    exact Option.mem_toList.1 hgiven

/-- One event in front of what a stream gives. -/
theorem Gives.cons {s left : FeatureStream} {event : Event} {events : List Event}
    {failure : Option Error} (hnext : s.next = (some (.ok event), left))
    (h : left.Gives events failure) : s.Gives (event :: events) failure := by
  obtain ⟨last, hdrain⟩ := h.drain_eq
  refine ⟨fun n => ?_, last, by rw [drain_of_next_event hnext, hdrain]⟩
  cases n with
  | zero =>
    rw [callAfter_zero, hnext]
    rfl
  | succ n =>
    rw [callAfter_succ, hnext]
    exact h.callAfter_eq n

/-- A stream in the middle of a word gives the rest of it, or a part of the rest and a failure. -/
theorem exists_gives (s : FeatureStream) {given : List Event} (h : s.GoesOn given) :
    ∃ events failure, s.Gives events failure ∧ EndsWord (given ++ events) failure := by
  -- a call gives an event, the end or a failure; behind an event the stream is smaller
  rcases next_cases h with ⟨event, left, hnext, hleft⟩ | ⟨hnext, hword⟩ | ⟨e, taken, hnext, hrest⟩
  · obtain ⟨events, failure, hgives, hword⟩ := left.exists_gives hleft
    rw [List.append_assoc, List.singleton_append] at hword
    exact ⟨event :: events, failure, hgives.cons hnext, hword⟩
  · refine ⟨[], none, ⟨fun n => ?_, s, drain_of_next_none hnext⟩, ?_⟩
    · simpa using callAfter_of_next_none hnext n
    · rw [List.append_nil]
      exact hword
  · refine ⟨[], some e, ⟨fun n => ?_, _, drain_of_next_failure hnext⟩, ?_⟩
    · cases n with
      | zero =>
        rw [callAfter_zero, hnext]
        rfl
      | succ n =>
        have hended : (ended taken).next = (none, ended taken) := rfl
        rw [callAfter_succ, hnext, callAfter_of_next_none hended]
        simp
    · rw [List.append_nil]
      exact hrest
termination_by (sourceSize s.source, s.pending.length)
decreasing_by exact next_decreases hnext

/-- Rows merged until a feature begins continue what was made already. -/
theorem goesOn_primeFrom (pending : List Event) (taken : Nat) (m : Merge) (r : Reconstruction)
    (h : IsFront r.current.isSome pending) {left : FeatureStream}
    (hprime : primeFrom pending taken m r = (.ok true, left)) : left.GoesOn [] := by
  fun_induction primeFrom pending taken m r with
  | case1 pending taken m r hany =>
    obtain ⟨-, rfl⟩ := Prod.mk.inj hprime
    exact h
  | case2 => simp at hprime
  | case3 => simp at hprime
  | case4 => simp at hprime
  | case5 pending taken m r hany row rest hnext _ now events next hpush ih =>
    exact ih (h.push hpush) hprime

end FeatureStream

/-! ## Talking to a database -/

/-- A sequence of talks runs its first part and then, unless that failed, the second. -/
theorem run_talk_bind {α β : Type} (x : Talk α) (f : α → Talk β) (session : Session) :
    (x >>= f).run session = match x.run session with
      | (.ok a, middle) => (f a).run middle
      | (.error e, middle) => (.error e, middle) := by
  simp only [bind, ExceptT.bind, ExceptT.run, ExceptT.mk, ExceptT.bindCont, StateT.bind]
  rcases x session with ⟨_ | _, _⟩ <;> rfl

/-- A sequence of talks succeeds exactly if the first part does and then the second. -/
theorem talk_bind_eq_ok {α β : Type} {x : Talk α} {f : α → Talk β} {session after : Session}
    {b : β} : (x >>= f).run session = (.ok b, after) ↔
      ∃ a middle, x.run session = (.ok a, middle) ∧ (f a).run middle = (.ok b, after) := by
  rw [run_talk_bind]
  constructor
  · intro h
    rcases hx : x.run session with ⟨e | a, middle⟩
    · rw [hx] at h
      exact nomatch (Prod.mk.inj h).1
    · rw [hx] at h
      exact ⟨a, middle, rfl, h⟩
  · rintro ⟨a, middle, hx, h⟩
    rw [hx]
    exact h

theorem talk_lift_eq_ok {α : Type} {x : Except Error α} {session after : Session} {a : α}
    (h : (liftM x : Talk α).run session = (.ok a, after)) : x = .ok a :=
  (Prod.mk.inj h).1

theorem talk_pure_eq_ok {α : Type} {session after : Session} {a b : α}
    (h : (pure a : Talk α).run session = (.ok b, after)) : a = b :=
  Except.ok.inj (Prod.mk.inj h).1

theorem talk_throw_ne_ok {α : Type} {session after : Session} {e : Error} {a : α} :
    (throw e : Talk α).run session ≠ (.ok a, after) :=
  fun h => nomatch (Prod.mk.inj h).1

namespace Provider

/-- Whatever the database answers, a stream that is opened begins with its start, and what was read
so far begins a word. -/
theorem goesOn_openStream {p : Provider} {plan : ReadPlan} {query : Query}
    {session after : Session} {opened : FeatureStream}
    (h : (p.openStream plan query).run session = (.ok opened, after)) :
    ∃ first source, opened = .start first source ∧ opened.GoesOn [] := by
  obtain ⟨page, middle, -, h⟩ := talk_bind_eq_ok.1 h
  dsimp only at h
  split at h
  · exact absurd h talk_throw_ne_ok
  · obtain ⟨r, middle, hr, h⟩ := talk_bind_eq_ok.1 h
    have hr := talk_lift_eq_ok hr
    obtain ⟨groups, -, hr⟩ := bind_eq_ok.1 hr
    have hcurrent : r.current.isSome = false := by
      rw [← pure_eq_ok.1 hr]
      rfl
    -- what was opened has given nothing yet, and no feature is open
    have hfront : ∀ returned matched single,
        IsFront r.current.isSome ([] ++ [.start returned matched single]) := by
      intro returned matched single
      rw [hcurrent]
      exact .start returned matched single
    split at h
    · obtain rfl := talk_pure_eq_ok h
      exact ⟨_, _, rfl, hfront _ _ _⟩
    · obtain ⟨merge, last, -, h⟩ := talk_bind_eq_ok.1 h
      obtain rfl := talk_pure_eq_ok h
      exact ⟨_, _, rfl, hfront _ _ _⟩

/-- Priming a stream for a look-up continues what begins a word. -/
theorem goesOn_primed {query : Query} {first : Event} {source : EventSource}
    {session after : Session} {opened : FeatureStream}
    (hgoes : (FeatureStream.start first source).GoesOn [])
    (h : (primed query (.start first source)).run session = (.ok opened, after)) :
    opened.GoesOn [] := by
  rw [primed] at h
  split at h
  · obtain rfl := talk_pure_eq_ok h
    exact hgoes
  · split at h
    rename_i found left hprime
    -- only a look-up with a feature in front goes on
    cases found with
    | error e =>
      obtain ⟨_, _, -, h⟩ := talk_bind_eq_ok.1 h
      exact absurd h talk_throw_ne_ok
    | ok begun =>
      cases begun with
      | false =>
        obtain ⟨_, _, -, h⟩ := talk_bind_eq_ok.1 h
        exact absurd h talk_throw_ne_ok
      | true =>
        obtain rfl := talk_pure_eq_ok h
        cases source with
        | reading m r => exact FeatureStream.goesOn_primeFrom _ _ m r hgoes hprime
        | ending r =>
          obtain ⟨-, rfl⟩ := Prod.mk.inj hprime
          exact hgoes
        | closed =>
          obtain ⟨-, rfl⟩ := Prod.mk.inj hprime
          exact hgoes

theorem isWord_empty (returned : Nat) (matched : Option Nat) (single : Bool) :
    IsWord [.start returned matched single, .stop] :=
  (IsFront.start returned matched single).isWord

/-- A failed read gives a complete word, if anything. -/
theorem isWord_degrade {p : Provider} {query : Query} {e : Error} {first : Event}
    (h : p.degrade query e = .ok first) : IsWord [first, .stop] := by
  unfold degrade at h
  split at h
  · simp at h
  · rw [← Except.ok.inj h]
    exact isWord_empty _ _ _
  · simp at h

theorem goesOn_stream {p : Provider} {query : Query} {session after : Session}
    {opened : FeatureStream} (h : p.stream query session = (.ok opened, after)) :
    opened.GoesOn [] := by
  unfold stream at h
  split at h
  · exact nomatch (Prod.mk.inj h).1
  · rename_i plan _
    dsimp only at h
    split at h
    · rename_i made middle hopening
      obtain ⟨hopened, -⟩ := Prod.mk.inj h
      obtain rfl := Except.ok.inj hopened
      obtain ⟨unprimed, between, hopen, hprime⟩ := talk_bind_eq_ok.1 hopening
      obtain ⟨first, source, rfl, hgoes⟩ := goesOn_openStream hopen
      exact goesOn_primed hgoes hprime
    · obtain ⟨hdegraded, -⟩ := Prod.mk.inj h
      obtain ⟨first, hfirst, rfl⟩ := map_eq_ok.1 hdegraded
      exact isWord_degrade hfirst

end Provider

/-- Whatever a database answers, a stream of features that was opened gives a word event by event and
then nothing, or the beginning of one, a failure, and then nothing; and a read that succeeds gives a
whole word. -/
theorem stream_givesWord (p : Provider) (query : Query) (session : Session) :
    (∀ opened after, p.stream query session = (.ok opened, after) →
      ∃ events failure, (∀ n, opened.callAfter n =
          (events.map Except.ok ++ failure.toList.map Except.error)[n]?) ∧
        FeatureStream.EndsWord events failure) ∧
    ∀ events after, p.read query session = (.ok events, after) → IsWord events := by
  constructor
  · intro opened after h
    obtain ⟨events, failure, hgives, hends⟩ := opened.exists_gives (Provider.goesOn_stream h)
    exact ⟨events, failure, hgives.callAfter_eq, hends⟩
  · intro events after h
    rw [Provider.read] at h
    split at h
    · exact nomatch (Prod.mk.inj h).1
    · rename_i opened middle hstream
      obtain ⟨given, failure, hgives, hends⟩ := opened.exists_gives (Provider.goesOn_stream hstream)
      obtain ⟨left, hdrain⟩ := hgives.drain_eq
      simp only [hdrain] at h
      -- a read gives all events or, behind a failure, what it is degraded to
      cases failure with
      | none =>
        obtain ⟨hevents, -⟩ := Prod.mk.inj h
        rw [← Except.ok.inj hevents]
        exact hends
      | some e =>
        obtain ⟨hdegraded, -⟩ := Prod.mk.inj h
        obtain ⟨first, hfirst, rfl⟩ := map_eq_ok.1 hdegraded
        exact Provider.isWord_degrade hfirst

/-- Parcels with names. -/
def namedParcels : Configuration :=
  { Configuration.default with
    types := [⟨"parcels", "parcel", [⟨"name", "name", .value, none⟩]⟩] }

/-- A database that tells of two parcels and breaks down behind the second. -/
def breakdown : Session :=
  let number (digits : String) : Option Cell := some ⟨.integer, digits⟩
  .start [.ok [.ok [number "1", number "2", number "2", number "2"]],
    .ok [.ok [number "1", some ⟨.text, "north"⟩], .ok [number "2", none],
      .error ⟨.other, "connection lost"⟩]]

/-- The stream fails within the first parcel, and the read gives no parcels at all. -/
theorem stream_givesWord_breakdown : ∃ p opened after events left,
    Provider.ofConfiguration namedParcels = .ok p ∧
      p.stream (Query.all "parcels") breakdown = (.ok opened, after) ∧
      opened.callAfter 5 = some (.error (.execution ⟨.other, "connection lost"⟩)) ∧
      p.read (Query.all "parcels") breakdown = (.ok events, left) ∧
      (∃ events failure, (∀ n, opened.callAfter n =
          (events.map Except.ok ++ failure.toList.map Except.error)[n]?) ∧
        FeatureStream.EndsWord events failure) ∧
      IsWord events := by
  have hrun : (do
      let p ← Provider.ofConfiguration namedParcels
      let opened ← (p.stream (Query.all "parcels") breakdown).1
      return opened.callAfter 5 : Except Error (Option (Except Error Event))).toOption =
      some (some (.error (.execution ⟨.other, "connection lost"⟩))) := by
    decide +kernel
  obtain ⟨p, hp, hrun⟩ := bind_eq_ok.1 (toOption_eq_some.1 hrun)
  obtain ⟨opened, hopened, hcall⟩ := bind_eq_ok.1 hrun
  have hcall := pure_eq_ok.1 hcall
  have hstream : p.stream (Query.all "parcels") breakdown =
      (.ok opened, (p.stream (Query.all "parcels") breakdown).2) := Prod.ext hopened rfl
  obtain ⟨hstreams, hreads⟩ := stream_givesWord p (Query.all "parcels") breakdown
  -- the failure ends the draining, and is one that a read of all features gives nothing for
  obtain ⟨events, failure, hgives, -⟩ := opened.exists_gives (Provider.goesOn_stream hstream)
  obtain ⟨left, hdrain⟩ := hgives.drain_eq
  rw [hgives.failure_eq hcall] at hdrain
  have hread : (p.read (Query.all "parcels") breakdown).1 = .ok [p.emptyStart, .stop] := by
    rw [Provider.read, hstream]
    simp only [hdrain]
    rfl
  have hread : p.read (Query.all "parcels") breakdown =
      (.ok [p.emptyStart, .stop], (p.read (Query.all "parcels") breakdown).2) :=
    Prod.ext hread rfl
  exact ⟨p, opened, _, _, _, hp, hstream, hcall, hread, hstreams _ _ hstream, hreads _ _ hread⟩

end FeatureStore
