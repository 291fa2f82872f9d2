import FeatureStore.Proofs.Read.Collected
import FeatureStore.Proofs.Read.Words

/-!
# Failures of a read

What a reader sees of a failure, wherever it happens. `Provider.Decodes` says what comes first when
a query is read: the failure of one of the steps from the plan to the last row, or all events. It
knows nothing of streams, and asks for no feature. The read of many features passes this on, except
that a failure of the database makes the result empty; the read of one feature gives events only if
a feature begins among them, and a failure of the database counts as no feature (`FollowsPolicy`).

A failure may be met while the stream is opened, while rows are merged for the first feature of a
look-up, or while the stream is drained, and each of these places handles it. But a stream as a
whole does not depend on how far its rows were merged in advance, so a read settles what comes first
once (`read_eq`). What that is can be computed from the answers (`decoded`, `decodes_iff`).
-/

set_option autoImplicit false

namespace FeatureStore

/-! ## What comes first -/

/-- The answer to the query with an index. A database without an answer gives no rows. -/
def Session.answerAt (answers : List QueryAnswer) (index : Nat) : QueryAnswer :=
  answers.getD index (.ok [])

namespace Provider

section Steps

variable (p : Provider) (query : Query) (answers : List QueryAnswer)

/-- The window of a query. -/
def window : Window := Window.ofQuery query (p.config.effectiveLimit query.limit)

/-- The window of a query once its page is known. -/
def rowsWindow (page : PageInfo) : Window := { p.window query with keyRange := page.keyRange }

/-- There is a plan for the query, and a text that asks for its page. -/
structure AsksPage (plan : ReadPlan) : Prop where
  plan_eq : p.plan query.featureType = .ok plan
  exists_text : ∃ text, plan.pageText (p.window query) = .ok text

/-- The first row of the first answer tells about the page. -/
structure KnowsPage (plan : ReadPlan) (page : PageInfo) : Prop
    extends p.AsksPage query plan where
  exists_row : ∃ row rest, Session.answerAt answers 0 = .ok (.ok row :: rest) ∧
    PageInfo.ofRow row = .ok page

/-- The page has features, and there are texts that ask for their rows. -/
structure AsksRows (plan : ReadPlan) (page : PageInfo) (texts : List String) : Prop
    extends p.KnowsPage query answers plan page where
  returned_ne : page.returned ≠ 0
  texts_eq : plan.rowsTexts (p.rowsWindow query page) = .ok texts

/-- All queries for rows are answered, so that there is a merge to decode. -/
inductive HasRows : Event → Reconstruction → Merge → Prop
  | opened {plan : ReadPlan} {page : PageInfo} {texts : List String} {state : Reconstruction}
      {inputs : List (List (Except ExecutionFailure Row))} :
    p.AsksRows query answers plan page texts →
    Reconstruction.start plan (query.sortKeys.map SortKey.descending) = .ok state →
    (List.range' 1 texts.length).mapM (Session.answerAt answers) = .ok inputs →
    HasRows (.start page.returned page.matched query.isLookup) state
      (Merge.start (state.layouts.zip inputs))

/-- What comes first when a query is read from a database with some answers: a failure, or all
events and the end. -/
inductive Decodes : Except Error (List Event) → Prop
  /-- The feature type is unknown. -/
  | plan {e : Error} : p.plan query.featureType = .error e → Decodes (.error e)
  /-- The query does not fit the mapping. -/
  | pageText {plan : ReadPlan} {e : Error} : p.plan query.featureType = .ok plan →
    plan.pageText (p.window query) = .error e → Decodes (.error e)
  /-- The database fails at the query for the page. -/
  | pageQuery {plan : ReadPlan} {failure : ExecutionFailure} : p.AsksPage query plan →
    Session.answerAt answers 0 = .error failure → Decodes (.error (.execution failure))
  /-- The database fails at the row of the page. -/
  | pageRow {plan : ReadPlan} {failure : ExecutionFailure}
      {rest : List (Except ExecutionFailure Row)} : p.AsksPage query plan →
    Session.answerAt answers 0 = .ok (.error failure :: rest) →
    Decodes (.error (.execution failure))
  | noPageRow {plan : ReadPlan} : p.AsksPage query plan →
    Session.answerAt answers 0 = .ok [] → Decodes (.error (.internal .noMetaRow))
  /-- The row of the page does not tell about it. -/
  | pageInfo {plan : ReadPlan} {row : Row} {rest : List (Except ExecutionFailure Row)}
      {e : Error} : p.AsksPage query plan →
    Session.answerAt answers 0 = .ok (.ok row :: rest) → PageInfo.ofRow row = .error e →
    Decodes (.error e)
  /-- The page is empty. -/
  | noFeatures {plan : ReadPlan} {page : PageInfo} : p.KnowsPage query answers plan page →
    page.returned = 0 → Decodes (.ok [.start 0 page.matched query.isLookup, .stop])
  /-- There is no text that asks for the rows. -/
  | rowsTexts {plan : ReadPlan} {page : PageInfo} {e : Error} :
    p.KnowsPage query answers plan page → page.returned ≠ 0 →
    plan.rowsTexts (p.rowsWindow query page) = .error e → Decodes (.error e)
  /-- The database fails at one of the queries for rows. -/
  | rowsQuery {plan : ReadPlan} {page : PageInfo} {texts : List String}
      {failure : ExecutionFailure} : p.AsksRows query answers plan page texts →
    (List.range' 1 texts.length).mapM (Session.answerAt answers) = .error failure →
    Decodes (.error (.execution failure))
  /-- The database fails behind some rows, whatever they were decoded to. -/
  | mergedRow {first : Event} {state last : Reconstruction} {merge : Merge}
      {rows : List MergedRow} {events : List Event} {failure : ExecutionFailure} :
    p.HasRows query answers first state merge → merge.run = (rows, some failure) →
    Pushes state rows events last → Decodes (.error (.execution failure))
  /-- A row cannot be decoded, whatever the rows in front of it were decoded to. -/
  | row {first : Event} {state next : Reconstruction} {merge : Merge}
      {before rest : List MergedRow} {x : MergedRow} {events : List Event}
      {ended : Option ExecutionFailure} {e : Error} :
    p.HasRows query answers first state merge → merge.run = (before ++ x :: rest, ended) →
    Pushes state before events next → (next.push x).1 = .error e → Decodes (.error e)
  /-- All rows are decoded. -/
  | rows {first : Event} {state last : Reconstruction} {merge : Merge} {rows : List MergedRow}
      {events : List Event} : p.HasRows query answers first state merge →
    merge.run = (rows, none) → Pushes state rows events last →
    Decodes (.ok (first :: (events ++ last.finish.1)))

end Steps

/-- What a read in a session makes of what comes first. -/
structure FollowsPolicy (p : Provider) (query : Query) (session : Session) : Prop where
  /-- Exactly one thing comes first. -/
  existsUnique : ∃! outcome, p.Decodes query session.answers outcome
  /-- A failure of the database is never passed on. -/
  ne_execution : ∀ failure, (p.read query session).1 ≠ .error (.execution failure)
  /-- Every other failure is. -/
  unchanged : ∀ e, p.Decodes query session.answers (.error e) →
    (∀ failure, e ≠ .execution failure) → (p.read query session).1 = .error e
  /-- Without an identifier a failure of the database makes the result empty. -/
  emptied : query.id = none → ∀ failure,
    p.Decodes query session.answers (.error (.execution failure)) →
    (p.read query session).1 =
      .ok [.start 0 (if p.config.countsMatched then some 0 else none) false, .stop]
  /-- Without an identifier all events are given. -/
  given : query.id = none → ∀ events, p.Decodes query session.answers (.ok events) →
    (p.read query session).1 = .ok events
  /-- With an identifier a failure of the database means that there is no such feature. -/
  lost : ∀ id, query.id = some id → ∀ failure,
    p.Decodes query session.answers (.error (.execution failure)) →
    (p.read query session).1 = .error (.notFound id)
  /-- With an identifier events without a feature mean that there is no such feature. -/
  missing : ∀ id, query.id = some id → ∀ events, p.Decodes query session.answers (.ok events) →
    (∀ event ∈ events, event.isFeatureStart = false) →
    (p.read query session).1 = .error (.notFound id)
  /-- With an identifier all events are given if a feature begins among them. -/
  found : ∀ id, query.id = some id → ∀ events, p.Decodes query session.answers (.ok events) →
    (∃ event ∈ events, event.isFeatureStart = true) → (p.read query session).1 = .ok events
  /-- With an identifier a result says that it is about one feature, and has a feature. -/
  single : ∀ id, query.id = some id → ∀ events, (p.read query session).1 = .ok events →
    (∃ event ∈ events, event.isFeatureStart = true) ∧
      ∃ returned matched rest, events = .start returned matched true :: rest

end Provider

/-! ## Validated providers -/

/-- A reconstruction starts for the plan of the query, if there is one. -/
def Provider.Starts (p : Provider) (query : Query) : Prop :=
  ∀ plan, p.plan query.featureType = .ok plan →
    ∃ state, Reconstruction.start plan (query.sortKeys.map SortKey.descending) = .ok state

/-- A reconstruction starts for every plan of a provider, because its tree was derived. -/
theorem Provider.starts_of_ofConfiguration {c : Configuration} {p : Provider}
    (h : ofConfiguration c = .ok p) (query : Query) : p.Starts query := by
  intro plan hplan
  obtain ⟨config, -, h⟩ := bind_eq_ok.1 h
  obtain ⟨plans, hplans, h⟩ := bind_eq_ok.1 h
  obtain rfl := pure_eq_ok.1 h
  unfold Provider.plan at hplan
  split at hplan
  · rename_i found hfound
    obtain rfl := Except.ok.inj hplan
    obtain ⟨mapping, -, hmapping⟩ := exists_of_mapM_eq_ok hplans (List.mem_of_find?_eq_some hfound)
    obtain ⟨tree, htree, hmapping⟩ := bind_eq_ok.1 hmapping
    have hderived : (config.storage tree).tree.IsDerived := TableTree.isDerived_of_ofMapping htree
    obtain ⟨-, -, hstart⟩ := start_ofStorage hderived hmapping
      (query.sortKeys.map SortKey.descending)
    exact ⟨_, hstart⟩
  · exact nomatch hplan

/-! ## Opening a stream -/

/-- What a sequence of talks gives, if the second part gives the same in all sessions. -/
theorem run_talk_bind_of {α β : Type} (x : Talk α) {f : α → Talk β} {g : α → Except Error β}
    (h : ∀ a session, ((f a).run session).1 = g a) (session : Session) :
    ((x >>= f).run session).1 = (x.run session).1 >>= g := by
  rw [run_talk_bind]
  rcases x.run session with ⟨e | a, after⟩
  · rfl
  · exact h a after

theorem run_talk_map {α β : Type} (x : Talk α) (f : α → β) (session : Session) :
    ((x >>= fun a => pure (f a)).run session).1 = (x.run session).1.map f :=
  (run_talk_bind_of x (fun _ _ => rfl) session).trans (bind_pure_eq_map _ f)

namespace Session

theorem answerAt_tail (answers : List QueryAnswer) (index : Nat) :
    answerAt answers.tail index = answerAt answers (index + 1) := by
  cases answers <;> rfl

/-- The answers behind the first one are those to the later queries. -/
theorem mapM_answerAt_tail (answers : List QueryAnswer) (start count : Nat) :
    (List.range' start count).mapM (answerAt answers.tail) =
      (List.range' (start + 1) count).mapM (answerAt answers) := by
  rw [Nat.add_comm, ← List.map_add_range', List.mapM_map]
  congr 1
  funext index
  rw [answerAt_tail, Function.comp_apply, Nat.add_comm]

/-- A query is answered with the first of the answers, which is gone then. -/
theorem run_query (text : String) (session : Session) :
    (query text).run session =
      ((answerAt session.answers 0).mapError Error.execution,
        { session with
          answers := session.answers.tail
          queries := session.queries ++ [text] }) := by
  rcases session with ⟨answers, queries, taken⟩
  cases answers with
  | nil => rfl
  | cons answer answers => cases answer <;> rfl

/-- Sends queries one after the other. -/
def queryAll (asked : List (String × SortLayout)) :
    Talk (List (SortLayout × List (Except ExecutionFailure Row))) :=
  asked.mapM fun (text, layout) => do
    return (layout, ← query text)

/-- Queries are answered in order, up to the first failure. -/
theorem run_queryAll {layouts : List SortLayout} {texts : List String}
    (hlength : texts.length = layouts.length) (session : Session) :
    ((queryAll (texts.zip layouts)).run session).1 =
      (((List.range' 0 texts.length).mapM (answerAt session.answers)).mapError Error.execution).map
        (layouts.zip ·) := by
  induction texts generalizing layouts session with
  | nil =>
    obtain rfl := List.eq_nil_of_length_eq_zero hlength.symm
    rfl
  | cons text texts ih =>
    obtain ⟨layout, layouts, rfl⟩ := List.exists_cons_of_length_eq_add_one hlength.symm
    -- the other texts are asked for when the first answer is gone
    have ih := ih (Nat.succ.inj hlength)
      { session with answers := session.answers.tail, queries := session.queries ++ [text] }
    rw [mapM_answerAt_tail] at ih
    rw [queryAll, List.zip_cons_cons, List.mapM_cons, bind_assoc, run_talk_bind, run_query,
      List.length_cons, List.range'_succ, List.mapM_cons]
    cases answerAt session.answers 0 with
    | error failure => rfl
    | ok rows =>
      refine (run_talk_map (queryAll (texts.zip layouts)) ((layout, rows) :: ·) _).trans ?_
      rw [ih]
      cases (List.range' (0 + 1) texts.length).mapM (answerAt session.answers) <;> rfl

end Session

namespace Provider

variable (p : Provider) (query : Query) (answers : List QueryAnswer)

/-- The page that the first row of an answer tells about. -/
def pageIn : QueryAnswer → Except Error PageInfo
  | .error failure => .error (.execution failure)
  | .ok [] => .error (.internal .noMetaRow)
  | .ok (.error failure :: _) => .error (.execution failure)
  | .ok (.ok row :: _) => PageInfo.ofRow row

/-- The page of a window, from the first answer. -/
def pageOf (plan : ReadPlan) (window : Window) : Except Error PageInfo := do
  let _ ← plan.pageText window
  pageIn (Session.answerAt answers 0)

/-- The merge of the rows of a window, from the other answers. -/
def mergeOf (plan : ReadPlan) (window : Window) (layouts : List SortLayout) :
    Except Error Merge := do
  let texts ← plan.rowsTexts window
  let inputs ← ((List.range' 1 texts.length).mapM (Session.answerAt answers)).mapError
    Error.execution
  return Merge.start (layouts.zip inputs)

/-- The merge of the rows that some texts ask for, if all of them are answered. -/
theorem mergeOf_of_texts {plan : ReadPlan} {window : Window} {texts : List String}
    (h : plan.rowsTexts window = .ok texts) (layouts : List SortLayout) :
    mergeOf answers plan window layouts =
      (((List.range' 1 texts.length).mapM (Session.answerAt answers)).mapError
        Error.execution).map fun inputs => Merge.start (layouts.zip inputs) := by
  rw [mergeOf, h]
  exact bind_pure_eq_map _ _

/-- The stream of a page, which need not have a feature. -/
def streamOf (plan : ReadPlan) (page : PageInfo) : Except Error FeatureStream := do
  let first := Event.start page.returned page.matched query.isLookup
  let state ← Reconstruction.start plan (query.sortKeys.map SortKey.descending)
  if page.returned = 0 then return .start first (.ending state)
  else
    let merge ← mergeOf answers plan (p.rowsWindow query page) state.layouts
    return .start first (.reading merge state)

/-- All events of a page, or the first failure. -/
def eventsOf (plan : ReadPlan) (page : PageInfo) : Except Error (List Event) := do
  let first := Event.start page.returned page.matched query.isLookup
  let state ← Reconstruction.start plan (query.sortKeys.map SortKey.descending)
  if page.returned = 0 then return first :: state.finish.1
  else
    let merge ← mergeOf answers plan (p.rowsWindow query page) state.layouts
    let events ← state.decode merge.run.1 merge.run.2
    return first :: events

/-- All events of a query, or the first failure, from the answers of a database. -/
def decoded : Except Error (List Event) := do
  let plan ← p.plan query.featureType
  let page ← pageOf answers plan (p.window query)
  p.eventsOf query answers plan page

/-- The stream of a page gives its events. -/
theorem collected_streamOf (plan : ReadPlan) (page : PageInfo) :
    p.streamOf query answers plan page >>= FeatureStream.collected =
      p.eventsOf query answers plan page := by
  rw [streamOf, eventsOf, bind_assoc]
  refine congrArg (Reconstruction.start _ _ >>= ·) (funext fun state => ?_)
  by_cases hreturned : page.returned = 0
  · rw [if_pos hreturned, if_pos hreturned]
    show FeatureStream.collected ⟨[_], .ending state, 0⟩ = _
    rw [FeatureStream.collected_pending, FeatureStream.collected_ending]
    rfl
  · rw [if_neg hreturned, if_neg hreturned, bind_assoc]
    refine congrArg (mergeOf _ _ _ _ >>= ·) (funext fun merge => ?_)
    show FeatureStream.collected ⟨[_], .reading merge state, 0⟩ = _
    rw [FeatureStream.collected_pending, FeatureStream.collected_reading]
    exact (bind_pure_eq_map _ _).symm

theorem run_openPage (plan : ReadPlan) (window : Window) (session : Session) :
    ∃ after, (openPage plan window).run session = (pageOf session.answers plan window, after) ∧
      ∀ page, pageOf session.answers plan window = .ok page →
        after.answers = session.answers.tail := by
  rw [openPage, pageOf]
  cases htext : plan.pageText window with
  | error e => exact ⟨session, rfl, fun _ h => nomatch h⟩
  | ok text =>
    show ∃ after, (Session.query text >>= _ : Talk PageInfo).run session = _ ∧ _
    rw [run_talk_bind, Session.run_query]
    match Session.answerAt session.answers 0 with
    | .error failure => exact ⟨_, rfl, fun _ h => nomatch h⟩
    | .ok [] => exact ⟨_, rfl, fun _ h => nomatch h⟩
    | .ok (.error failure :: _) => exact ⟨_, rfl, fun _ h => nomatch h⟩
    | .ok (.ok row :: _) => exact ⟨_, rfl, fun _ _ => rfl⟩

theorem run_openRows {plan : ReadPlan} {layouts : List SortLayout}
    (hlength : plan.groups.length = layouts.length) (window : Window) {session : Session}
    (hanswers : session.answers = answers.tail) :
    ((openRows plan window layouts).run session).1 = mergeOf answers plan window layouts := by
  rw [openRows]
  cases htexts : plan.rowsTexts window with
  | error e =>
    rw [mergeOf, htexts]
    rfl
  | ok texts =>
    have hlength : texts.length = layouts.length :=
      (mapM_eq_ok_iff.1 htexts).length_eq.symm.trans hlength
    refine (run_talk_map (Session.queryAll (texts.zip layouts)) Merge.start session).trans ?_
    rw [Session.run_queryAll hlength, hanswers, Session.mapM_answerAt_tail,
      mergeOf_of_texts answers htexts]
    cases (List.range' 1 texts.length).mapM (Session.answerAt answers) <;> rfl

theorem length_layouts_of_start {plan : ReadPlan} {descending : List Bool} {state : Reconstruction}
    (h : Reconstruction.start plan descending = .ok state) :
    plan.groups.length = state.layouts.length := by
  obtain ⟨groups, hgroups, h⟩ := bind_eq_ok.1 h
  obtain rfl := pure_eq_ok.1 h
  rw [Reconstruction.layouts, List.length_map]
  exact (mapM_eq_ok_iff.1 hgroups).length_eq

variable {p query}

/-- Opening a stream reads the page and then the rows, but a look-up ends at an empty page. -/
theorem run_openStream {plan : ReadPlan} {state : Reconstruction}
    (hstart : Reconstruction.start plan (query.sortKeys.map SortKey.descending) = .ok state)
    (session : Session) :
    ((p.openStream plan query).run session).1 =
      pageOf session.answers plan (p.window query) >>= fun page =>
        match page.returned, query.id with
        | 0, some id => .error (.notFound id)
        | _, _ => p.streamOf query session.answers plan page := by
  obtain ⟨after, hpage, hanswers⟩ := run_openPage plan (p.window query) session
  show ((openPage plan (p.window query) >>= _ : Talk _).run session).1 = _
  rw [run_talk_bind, hpage]
  cases hknown : pageOf session.answers plan (p.window query) with
  | error e => rfl
  | ok page =>
    -- unless it is a look-up of an empty page, what follows is the stream of the page
    have hstream : ((do
        let first := Event.start page.returned page.matched query.isLookup
        let state ← Reconstruction.start plan (query.sortKeys.map SortKey.descending)
        if page.returned = 0 then return .start first (.ending state)
        else
          let merge ← openRows plan (p.rowsWindow query page) state.layouts
          return .start first (.reading merge state) : Talk FeatureStream).run after).1 =
        p.streamOf query session.answers plan page := by
      rw [streamOf, hstart]
      by_cases hreturned : page.returned = 0
      · simp only [hreturned, if_true]
        rfl
      · simp only [if_neg hreturned]
        refine (run_talk_map (openRows plan (p.rowsWindow query page) state.layouts) _
          after).trans ?_
        rw [run_openRows session.answers (length_layouts_of_start hstart) _ (hanswers page hknown)]
        exact (bind_pure_eq_map _ _).symm
    show _ = match page.returned, query.id with
      | 0, some id => Except.error (Error.notFound id)
      | _, _ => p.streamOf query session.answers plan page
    dsimp only
    cases hreturned : page.returned with
    | zero =>
      rw [hreturned] at hstream
      cases query.id with
      | none => exact hstream
      | some id => rfl
    | succ count =>
      rw [hreturned] at hstream
      exact hstream

/-- The events that answer a query: all of them, but for a look-up only with a feature. -/
def demanded (query : Query) (events : List Event) : Except Error (List Event) :=
  match query.id with
  | none => .ok events
  | some id => FeatureStream.withFeature id events

theorem demanded_of_none (h : query.id = none) (events : List Event) :
    demanded query events = .ok events := by
  rw [demanded, h]

theorem demanded_of_some {id : String} (h : query.id = some id) (events : List Event) :
    demanded query events = FeatureStream.withFeature id events := by
  rw [demanded, h]

/-- What a read gives for some events or a failure. -/
def settle (p : Provider) (query : Query) : Except Error (List Event) → Except Error (List Event)
  | .ok events => .ok events
  | .error e => (p.degrade query e).map fun first => [first, .stop]

/-- The stream that answers a query, which begins a feature in advance for a look-up. -/
def primedFor (query : Query) (s : FeatureStream) : Except Error FeatureStream :=
  match query.id with
  | none => .ok s
  | some id => FeatureStream.found id s.prime

theorem run_primed (query : Query) (s : FeatureStream) (session : Session) :
    ((primed query s).run session).1 = primedFor query s := by
  rw [primed, primedFor]
  cases query.id with
  | none => rfl
  | some id => rcases s.prime with ⟨_ | _ | _, left⟩ <;> rfl

theorem collected_primedFor (query : Query) (s : FeatureStream) :
    primedFor query s >>= FeatureStream.collected = s.collected >>= demanded query := by
  unfold primedFor demanded
  cases query.id with
  | none => exact (bind_pure s.collected).symm
  | some id => exact FeatureStream.collected_found id s

/-- An empty page has only a start and an end. -/
theorem eventsOf_of_returned {plan : ReadPlan} {state : Reconstruction} {page : PageInfo}
    (hstart : Reconstruction.start plan (query.sortKeys.map SortKey.descending) = .ok state)
    (h : page.returned = 0) :
    p.eventsOf query answers plan page = .ok [.start 0 page.matched query.isLookup, .stop] := by
  have hcurrent : state.current = none := by
    obtain ⟨groups, -, hstate⟩ := bind_eq_ok.1 hstart
    rw [← pure_eq_ok.1 hstate]
  rw [eventsOf, hstart, h]
  show Except.ok (Event.start 0 page.matched query.isLookup :: (state.closing ++ [.stop])) = _
  rw [Reconstruction.closing, hcurrent]
  rfl

/-- What a stream gives once it is opened, and primed for a look-up. -/
theorem run_opening {plan : ReadPlan} {state : Reconstruction}
    (hstart : Reconstruction.start plan (query.sortKeys.map SortKey.descending) = .ok state)
    (session : Session) :
    (((p.openStream plan query >>= primed query).run session).1 >>= FeatureStream.collected) =
      pageOf session.answers plan (p.window query) >>= fun page =>
        p.eventsOf query session.answers plan page >>= demanded query := by
  rw [run_talk_bind_of _ (run_primed query), run_openStream hstart, bind_assoc, bind_assoc]
  refine congrArg (pageOf session.answers plan (p.window query) >>= ·) (funext fun page => ?_)
  -- a look-up that ends at an empty page would not have found a feature either
  split
  · rename_i id hreturned hid
    rw [eventsOf_of_returned session.answers hstart hreturned]
    show Except.error (Error.notFound id) = demanded query _
    rw [demanded_of_some hid]
    rfl
  · rw [← collected_streamOf, bind_assoc, ← funext (collected_primedFor query)]

theorem read_of_stream {session after : Session} {opened : FeatureStream}
    (h : p.stream query session = (.ok opened, after)) :
    (p.read query session).1 = p.settle query opened.collected := by
  rw [read, h, FeatureStream.collected]
  dsimp only
  rcases opened.drain with ⟨events, _ | e, left⟩ <;> rfl

/-- A read settles what comes first, with the events that answer the query. -/
theorem read_eq (p : Provider) (query : Query) (session : Session)
    (hstart : p.Starts query) :
    (p.read query session).1 =
      p.settle query (p.decoded query session.answers >>= demanded query) := by
  rw [decoded]
  cases hplan : p.plan query.featureType with
  | error e =>
    -- a type without a plan is no failure of the database, and is passed on by both
    have hstream : p.stream query session = (.error e, session) := by rw [stream, hplan]
    rw [read, hstream]
    unfold plan at hplan
    split at hplan
    · simp at hplan
    · obtain rfl := Except.error.inj hplan
      rfl
  | ok plan =>
    obtain ⟨state, hstate⟩ := hstart plan hplan
    have hopening := run_opening (p := p) hstate session
    show _ = p.settle query ((pageOf session.answers plan (p.window query) >>=
      p.eventsOf query session.answers plan) >>= demanded query)
    rw [bind_assoc, ← hopening]
    -- a failure is degraded while the stream is opened, or else when it is collected
    rcases hran : (p.openStream plan query >>= primed query).run session with
      ⟨e | opened, after⟩
    · have hstream : p.stream query session =
          ((p.degrade query e).map FeatureStream.empty, after) := by
        rw [stream, hplan]
        dsimp only
        rw [hran]
      show _ = (p.degrade query e).map fun first => [first, .stop]
      cases hfirst : p.degrade query e with
      | error e' =>
        rw [hfirst] at hstream
        rw [read, hstream]
        rfl
      | ok first =>
        rw [hfirst] at hstream
        rw [read_of_stream hstream]
        exact congrArg (p.settle query) (FeatureStream.collected_closed [first, .stop] 0)
    · have hstream : p.stream query session = (.ok opened, after) := by
        rw [stream, hplan]
        dsimp only
        rw [hran]
      exact read_of_stream hstream

/-! ## Something comes first -/

section Exists

variable {answers : List QueryAnswer}

theorem exists_decodes_of_hasRows {first : Event} {state : Reconstruction} {merge : Merge}
    (h : p.HasRows query answers first state merge) :
    ∃ outcome, p.Decodes query answers outcome := by
  rcases hrun : merge.run with ⟨rows, ended⟩
  rcases state.exists_pushes rows with ⟨events, last, hpushes⟩ |
    ⟨before, x, rest, events, next, e, rfl, hpushes, he⟩
  · cases ended with
    | none => exact ⟨_, .rows h hrun hpushes⟩
    | some failure => exact ⟨_, .mergedRow h hrun hpushes⟩
  · exact ⟨_, .row h hrun hpushes he⟩

theorem exists_decodes_of_knowsPage {plan : ReadPlan} {page : PageInfo} {state : Reconstruction}
    (h : p.KnowsPage query answers plan page)
    (hstart : Reconstruction.start plan (query.sortKeys.map SortKey.descending) = .ok state) :
    ∃ outcome, p.Decodes query answers outcome := by
  by_cases hreturned : page.returned = 0
  · exact ⟨_, .noFeatures h hreturned⟩
  cases htexts : plan.rowsTexts (p.rowsWindow query page) with
  | error e => exact ⟨_, .rowsTexts h hreturned htexts⟩
  | ok texts =>
    have hasks : p.AsksRows query answers plan page texts := ⟨h, hreturned, htexts⟩
    cases hinputs : (List.range' 1 texts.length).mapM (Session.answerAt answers) with
    | error failure => exact ⟨_, .rowsQuery hasks hinputs⟩
    | ok inputs => exact exists_decodes_of_hasRows (.opened hasks hstart hinputs)

/-- Whatever a database answers, something comes first. -/
theorem exists_decodes (p : Provider) (query : Query) (answers : List QueryAnswer)
    (hstart : p.Starts query) :
    ∃ outcome, p.Decodes query answers outcome := by
  cases hplan : p.plan query.featureType with
  | error e => exact ⟨_, .plan hplan⟩
  | ok plan =>
    obtain ⟨state, hstate⟩ := hstart plan hplan
    cases htext : plan.pageText (p.window query) with
    | error e => exact ⟨_, .pageText hplan htext⟩
    | ok text =>
      have hasks : p.AsksPage query plan := ⟨hplan, text, htext⟩
      match hanswer : Session.answerAt answers 0 with
      | .error failure => exact ⟨_, .pageQuery hasks hanswer⟩
      | .ok [] => exact ⟨_, .noPageRow hasks hanswer⟩
      | .ok (.error failure :: rest) => exact ⟨_, .pageRow hasks hanswer⟩
      | .ok (.ok row :: rest) =>
        cases hpage : PageInfo.ofRow row with
        | error e => exact ⟨_, .pageInfo hasks hanswer hpage⟩
        | ok page =>
          exact exists_decodes_of_knowsPage ⟨hasks, row, rest, hanswer, hpage⟩ hstate

end Exists

/-! ## What comes first, computed -/

section Decoded

variable {answers : List QueryAnswer} {plan : ReadPlan} {page : PageInfo} {state : Reconstruction}

theorem decoded_of_asksPage (h : p.AsksPage query plan) :
    p.decoded query answers =
      pageIn (Session.answerAt answers 0) >>= p.eventsOf query answers plan := by
  obtain ⟨text, htext⟩ := h.exists_text
  rw [decoded, h.plan_eq]
  show (pageOf answers plan (p.window query) >>= _) = _
  rw [pageOf, htext]
  rfl

theorem decoded_of_knowsPage (h : p.KnowsPage query answers plan page) :
    p.decoded query answers = p.eventsOf query answers plan page := by
  obtain ⟨row, rest, hanswer, hpage⟩ := h.exists_row
  rw [decoded_of_asksPage h.toAsksPage, hanswer, pageIn, hpage]
  rfl

/-- A page with features asks for its rows. -/
theorem decoded_of_returned_ne (h : p.KnowsPage query answers plan page)
    (hstart : Reconstruction.start plan (query.sortKeys.map SortKey.descending) = .ok state)
    (hreturned : page.returned ≠ 0) :
    p.decoded query answers =
      mergeOf answers plan (p.rowsWindow query page) state.layouts >>= fun merge =>
        (state.decode merge.run.1 merge.run.2).map
          (.start page.returned page.matched query.isLookup :: ·) := by
  rw [decoded_of_knowsPage h, eventsOf, hstart]
  show (if page.returned = 0 then _ else _) = _
  rw [if_neg hreturned]
  exact congrArg (mergeOf _ _ _ _ >>= ·) (funext fun merge => bind_pure_eq_map _ _)

theorem decoded_of_hasRows {first : Event} {merge : Merge}
    (h : p.HasRows query answers first state merge) :
    p.decoded query answers = (state.decode merge.run.1 merge.run.2).map (first :: ·) := by
  cases h with
  | opened hasks hstart hinputs =>
    rw [decoded_of_returned_ne hasks.toKnowsPage hstart hasks.returned_ne,
      mergeOf_of_texts answers hasks.texts_eq, hinputs]
    rfl

variable (hstart : p.Starts query)

include hstart

/-- What comes first is what is computed. -/
theorem Decodes.eq_decoded {outcome : Except Error (List Event)}
    (h : p.Decodes query answers outcome) : outcome = p.decoded query answers := by
  symm
  -- the steps in front have succeeded, so the computation comes as far as the last one
  cases h with
  | plan h =>
    rw [decoded, h]
    rfl
  | pageText hplan htext =>
    rw [decoded, hplan]
    show (pageOf answers _ (p.window query) >>= _) = _
    rw [pageOf, htext]
    rfl
  | pageQuery hasks hanswer =>
    rw [decoded_of_asksPage hasks, hanswer]
    rfl
  | pageRow hasks hanswer =>
    rw [decoded_of_asksPage hasks, hanswer]
    rfl
  | noPageRow hasks hanswer =>
    rw [decoded_of_asksPage hasks, hanswer]
    rfl
  | pageInfo hasks hanswer hpage =>
    rw [decoded_of_asksPage hasks, hanswer, pageIn, hpage]
    rfl
  | noFeatures hknows hreturned =>
    obtain ⟨state, hstate⟩ := hstart _ hknows.plan_eq
    rw [decoded_of_knowsPage hknows, eventsOf_of_returned answers hstate hreturned]
  | rowsTexts hknows hreturned htexts =>
    obtain ⟨state, hstate⟩ := hstart _ hknows.plan_eq
    rw [decoded_of_returned_ne hknows hstate hreturned, mergeOf, htexts]
    rfl
  | rowsQuery hasks hinputs =>
    obtain ⟨state, hstate⟩ := hstart _ hasks.plan_eq
    rw [decoded_of_returned_ne hasks.toKnowsPage hstate hasks.returned_ne,
      mergeOf_of_texts answers hasks.texts_eq, hinputs]
    rfl
  | mergedRow hrows hrun hpushes =>
    rw [decoded_of_hasRows hrows, hrun, Reconstruction.decode_of_pushes_all hpushes]
    rfl
  | row hrows hrun hpushes he =>
    rw [decoded_of_hasRows hrows, hrun, Reconstruction.decode_of_pushes hpushes,
      Reconstruction.decode_of_push_error he]
    rfl
  | rows hrows hrun hpushes =>
    rw [decoded_of_hasRows hrows, hrun, Reconstruction.decode_of_pushes_all hpushes]
    rfl

/-- Something comes first, and it is what is computed. -/
theorem decodes_iff {outcome : Except Error (List Event)} :
    p.Decodes query answers outcome ↔ outcome = p.decoded query answers := by
  refine ⟨fun h => h.eq_decoded hstart, ?_⟩
  rintro rfl
  obtain ⟨outcome, h⟩ := exists_decodes p query answers hstart
  rwa [h.eq_decoded hstart] at h

end Decoded

/-- All events of a query begin with its start. -/
theorem Decodes.exists_start_cons {answers : List QueryAnswer} {outcome : Except Error (List Event)}
    (h : p.Decodes query answers outcome) {events : List Event} (hevents : outcome = .ok events) :
    ∃ returned matched rest, events = .start returned matched query.isLookup :: rest := by
  cases h with
  | noFeatures hknows _ => exact ⟨_, _, _, (Except.ok.inj hevents).symm⟩
  | rows hrows _ _ =>
    cases hrows
    exact ⟨_, _, _, (Except.ok.inj hevents).symm⟩
  | _ => exact nomatch hevents

/-! ## The policy -/

section Policy

variable {e : Error} {failure : ExecutionFailure} {id : String}

theorem degrade_execution_of_none (h : query.id = none) :
    p.degrade query (.execution failure) = .ok p.emptyStart := by
  unfold degrade
  rw [h]

theorem degrade_execution_of_some (h : query.id = some id) :
    p.degrade query (.execution failure) = .error (.notFound id) := by
  unfold degrade
  rw [h]

theorem degrade_of_ne (h : ∀ failure, e ≠ .execution failure) :
    p.degrade query e = .error e := by
  cases e with
  | execution failure => exact absurd rfl (h failure)
  | _ => rfl

/-- No failure of a database is passed on. -/
theorem settle_ne_execution (outcome : Except Error (List Event)) :
    p.settle query outcome ≠ .error (.execution failure) := by
  intro h
  cases outcome with
  | ok events => exact nomatch h
  | error e =>
    have hdegrade : p.degrade query e = .error (.execution failure) := map_eq_error h
    by_cases he : ∃ failure, e = .execution failure
    · obtain ⟨cause, rfl⟩ := he
      cases hid : query.id with
      | none =>
        rw [degrade_execution_of_none hid] at hdegrade
        exact nomatch hdegrade
      | some id =>
        rw [degrade_execution_of_some hid] at hdegrade
        exact nomatch hdegrade
    · have hne : ∀ failure, e ≠ .execution failure := fun cause heq => he ⟨cause, heq⟩
      rw [degrade_of_ne hne] at hdegrade
      exact hne failure (Except.error.inj hdegrade)

/-- A look-up that fails does not give any events. -/
theorem settle_error_ne_ok (h : query.id = some id) (events : List Event) :
    p.settle query (.error e) ≠ .ok events := by
  intro hsettle
  obtain ⟨first, hdegrade, -⟩ := map_eq_ok.1 hsettle
  cases e with
  | execution failure =>
    rw [degrade_execution_of_some h] at hdegrade
    exact nomatch hdegrade
  | _ => exact nomatch hdegrade

/-- A look-up gives the events that come first, and only if a feature begins among them. -/
theorem eq_of_settle_demanded (h : query.id = some id) {made events : List Event}
    (hgiven : p.settle query (demanded query made) = .ok events) :
    made = events ∧ ∃ event ∈ events, event.isFeatureStart = true := by
  rw [demanded_of_some h] at hgiven
  cases hany : made.any Event.isFeatureStart with
  | false =>
    rw [FeatureStream.withFeature_of_not_any hany] at hgiven
    exact absurd hgiven (settle_error_ne_ok h events)
  | true =>
    rw [FeatureStream.withFeature_of_any hany] at hgiven
    obtain rfl : made = events := Except.ok.inj hgiven
    exact ⟨rfl, List.any_eq_true.1 hany⟩

end Policy

end Provider

/-- Whatever a database answers, a read follows the policy: a failure that comes first is passed on
unless it is one of the database, which makes the result empty or, for a look-up, means that there
is no such feature; and a look-up gives events only if a feature begins among them. -/
theorem read_followsPolicy {c : Configuration} {p : Provider}
    (h : Provider.ofConfiguration c = .ok p) (query : Query) (session : Session) :
    p.FollowsPolicy query session := by
  have hstart := Provider.starts_of_ofConfiguration h query
  have hread := Provider.read_eq p query session hstart
  have hfailed : ∀ {e}, p.Decodes query session.answers (.error e) →
      (p.read query session).1 = (p.degrade query e).map fun first => [first, .stop] := by
    intro e he
    rw [hread, ← he.eq_decoded hstart]
    rfl
  have hdecoded : ∀ {events}, p.Decodes query session.answers (.ok events) →
      (p.read query session).1 = p.settle query (Provider.demanded query events) := by
    intro events hevents
    rw [hread, ← hevents.eq_decoded hstart]
    rfl
  obtain ⟨outcome, houtcome⟩ := Provider.exists_decodes p query session.answers hstart
  constructor
  case existsUnique =>
    refine ⟨outcome, houtcome, fun other hother => ?_⟩
    exact (hother.eq_decoded hstart).trans (houtcome.eq_decoded hstart).symm
  case ne_execution =>
    intro failure
    rw [hread]
    exact Provider.settle_ne_execution _
  case unchanged =>
    intro e he hne
    rw [hfailed he, Provider.degrade_of_ne hne]
    rfl
  case emptied =>
    intro hid failure he
    rw [hfailed he, Provider.degrade_execution_of_none hid]
    rfl
  case given =>
    intro hid events hevents
    rw [hdecoded hevents, Provider.demanded_of_none hid]
    rfl
  case lost =>
    intro id hid failure he
    rw [hfailed he, Provider.degrade_execution_of_some hid]
    rfl
  case missing =>
    intro id hid events hevents hnone
    have hany : events.any Event.isFeatureStart = false := by simpa using hnone
    rw [hdecoded hevents, Provider.demanded_of_some hid, FeatureStream.withFeature_of_not_any hany]
    rfl
  case found =>
    intro id hid events hevents hsome
    rw [hdecoded hevents, Provider.demanded_of_some hid,
      FeatureStream.withFeature_of_any (List.any_eq_true.2 hsome)]
    rfl
  case single =>
    intro id hid events hgiven
    cases outcome with
    | error e =>
      rw [hread, ← houtcome.eq_decoded hstart] at hgiven
      exact absurd hgiven (Provider.settle_error_ne_ok hid events)
    | ok made =>
      obtain ⟨rfl, hfeature⟩ :=
        Provider.eq_of_settle_demanded hid ((hdecoded houtcome).symm.trans hgiven)
      obtain ⟨returned, matched, rest, hmade⟩ := houtcome.exists_start_cons rfl
      rw [Query.isLookup, hid] at hmade
      exact ⟨hfeature, returned, matched, rest, hmade⟩

/-- The database breaks down behind the second parcel. Then there are no parcels at all, and the
first one, which was read already, is not found. -/
theorem read_followsPolicy_breakdown : ∃ p, Provider.ofConfiguration namedParcels = .ok p ∧
    p.FollowsPolicy (Query.all "parcels") breakdown ∧
    p.FollowsPolicy (Query.byId "parcels" "1") breakdown ∧
    (p.read (Query.all "parcels") breakdown).1 = .ok [.start 0 (some 0) false, .stop] ∧
    (p.read (Query.byId "parcels" "1") breakdown).1 = .error (.notFound "1") := by
  have hrun : (do
      let p ← (Provider.ofConfiguration namedParcels).toOption
      return (p.decoded (Query.all "parcels") breakdown.answers,
        p.decoded (Query.byId "parcels" "1") breakdown.answers, p.config.countsMatched) :
          Option (Except Error (List Event) × Except Error (List Event) × Bool)) =
      some (.error (.execution ⟨.other, "connection lost"⟩),
        .error (.execution ⟨.other, "connection lost"⟩), true) := by
    decide +kernel
  obtain ⟨p, hp, hrun⟩ := Option.bind_eq_some_iff.1 hrun
  have hp := toOption_eq_some.1 hp
  obtain ⟨hall, hrun⟩ := Prod.mk.inj (Option.some.inj hrun)
  obtain ⟨hone, hcounts⟩ := Prod.mk.inj hrun
  -- the failure is what comes first for both queries
  have hdecodes : ∀ {query : Query} {outcome : Except Error (List Event)},
      p.decoded query breakdown.answers = outcome → p.Decodes query breakdown.answers outcome :=
    fun heq => (Provider.decodes_iff (Provider.starts_of_ofConfiguration hp _)).2 heq.symm
  have hpolicy := read_followsPolicy hp
  have hempty := (hpolicy (Query.all "parcels") breakdown).emptied rfl _ (hdecodes hall)
  rw [hcounts] at hempty
  exact ⟨p, hp, hpolicy _ _, hpolicy _ _, hempty,
    (hpolicy (Query.byId "parcels" "1") breakdown).lost "1" rfl _ (hdecodes hone)⟩

end FeatureStore
