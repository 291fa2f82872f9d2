import FeatureStore.Proofs.Read.Failures
import FeatureStore.Proofs.Read.PageCut

/-!
# Bounded reads

A reader never gets more features at once than the configuration allows: the page is cut by a clause
with a limit between one and the greatest. The same number means three things on its way there. Zero
leaves the choice to the configuration in a query, is compared as the least of all limits when a
configuration is validated, and says nothing in a clause. So every read is bounded unless the query
and the configuration both leave the limit at zero (`Provider.readsBounded_iff`).

That the clause cuts the page is a statement about what is sent. Opening a stream sends the text
that fixes the page and then the texts that read the rows of groups, as far as the database answers
(`sends_openStream`), and a read sends nothing else (`queries_read`). The text that fixes the page
ends its sub-select with the clause, and in the order of the reader every other text ends the select
of root rows with it (`Provider.SendsCut`), also where the root sort key does not tell rows apart.
-/

set_option autoImplicit false

namespace FeatureStore

/-! ## Clauses -/

/-- A clause bounds a select: it has a limit from one up to the greatest, and behind it the number
of rows left out exactly if there are any. -/
def IsBound (greatest offset : Nat) (clause : String) : Prop :=
  ∃ limit, 1 ≤ limit ∧ limit ≤ greatest ∧ clause = " LIMIT " ++ toString limit ++
    if offset = 0 then "" else " OFFSET " ++ toString offset

/-- A paging up to the greatest limit bounds a select exactly if it has a limit. -/
theorem Paging.isBound_iff {greatest : Nat} {p : Paging} (hle : p.limit ≤ greatest) :
    IsBound greatest p.offset p.text ↔ p.limit ≠ 0 := by
  constructor
  · rintro ⟨limit, -, -, htext⟩ hzero
    -- without a limit the text is empty or begins with an offset
    rw [text, if_pos hzero] at htext
    have hfront := congrArg (fun t => t.toList[1]?) htext
    by_cases hoffset : p.offset = 0
    · simp [hoffset] at hfront
    · simp [hoffset, Dialect.offsetText] at hfront
  · intro hlimit
    exact ⟨p.limit, Nat.one_le_iff_ne_zero.2 hlimit, hle, by rw [text, if_neg hlimit]; rfl⟩

namespace Configuration

variable {c : Configuration}

/-- Of a valid configuration the greatest limit is positive and not below the default. -/
theorem limits_of_validated {v : Configuration} (h : c.validated = .ok v) :
    c = v ∧ c.maxLimit ≠ 0 ∧ c.defaultLimit ≤ c.maxLimit := by
  unfold validated at h
  split at h
  · exact nomatch h
  · rename_i hfault
    unfold fault? at hfault
    split at hfault
    · exact nomatch hfault
    · rename_i hmax
      split at hfault
      · exact nomatch hfault
      · rename_i hdefault
        exact ⟨Except.ok.inj h, hmax, Nat.not_lt.1 hdefault⟩

/-- The limit that a query gets is not above the greatest. -/
theorem effectiveLimit_le (hdefault : c.defaultLimit ≤ c.maxLimit) (requested : Nat) :
    c.effectiveLimit requested ≤ c.maxLimit := by
  rw [effectiveLimit]
  split
  · exact hdefault
  · exact Nat.min_le_right _ _

/-- A query gets no limit exactly if it leaves the choice to a configuration without a default. -/
theorem effectiveLimit_ne_zero_iff (hmax : c.maxLimit ≠ 0) {requested : Nat} :
    c.effectiveLimit requested ≠ 0 ↔ requested ≠ 0 ∨ c.defaultLimit ≠ 0 := by
  rw [effectiveLimit]
  split
  · rename_i hzero
    simp [hzero]
  · rename_i hrequested
    exact iff_of_true (by omega) (.inl hrequested)

end Configuration

/-! ## What is sent -/

section Sends

variable {α β : Type}

/-- A computation sends some texts in a session. -/
def Sends (x : Talk α) (session : Session) (texts : List String) : Prop :=
  (x.run session).2.queries = session.queries ++ texts

theorem sends_nil_of_queries {x : Talk α} {session : Session}
    (h : (x.run session).2.queries = session.queries) : Sends x session [] :=
  h.trans (List.append_nil _).symm

theorem sends_pure (a : α) (session : Session) : Sends (pure a) session [] :=
  sends_nil_of_queries rfl

theorem sends_throw (e : Error) (session : Session) : Sends (throw e : Talk α) session [] :=
  sends_nil_of_queries rfl

/-- Behind a computation that fails nothing is sent. -/
theorem sends_bind_of_error {x : Talk α} {f : α → Talk β} {session after : Session} {e : Error}
    {sent : List String} (hx : x.run session = (.error e, after)) (h : Sends x session sent) :
    Sends (x >>= f) session sent := by
  rw [Sends, hx] at h
  rw [Sends, run_talk_bind, hx]
  exact h

/-- Behind a computation that succeeds comes what the next one sends. -/
theorem sends_bind_of_ok {x : Talk α} {f : α → Talk β} {session after : Session} {a : α}
    {sent more : List String} (hx : x.run session = (.ok a, after)) (h : Sends x session sent)
    (hmore : Sends (f a) after more) : Sends (x >>= f) session (sent ++ more) := by
  rw [Sends, hx] at h
  rw [Sends, run_talk_bind, hx]
  exact hmore.trans (by rw [h, List.append_assoc])

/-- If the next computation sends nothing, a sequence sends what its first part does. -/
theorem sends_bind {x : Talk α} {f : α → Talk β} {session : Session} {sent : List String}
    (h : Sends x session sent) (hf : ∀ a after, Sends (f a) after []) :
    Sends (x >>= f) session sent := by
  rcases hx : x.run session with ⟨e | a, after⟩
  · exact sends_bind_of_error hx h
  · simpa using sends_bind_of_ok hx h (hf a after)

theorem sends_query (text : String) (session : Session) :
    Sends (Session.query text) session [text] := by
  rw [Sends, Session.run_query]

/-- Queries are sent in order, up to the first failure. -/
theorem sends_queryAll (texts : List String) (layouts : List SortLayout) (session : Session) :
    ∃ sent, sent <+: texts ∧ Sends (Session.queryAll (texts.zip layouts)) session sent := by
  induction texts generalizing layouts session with
  | nil => exact ⟨[], List.nil_prefix, sends_pure _ session⟩
  | cons text texts ih =>
    cases layouts with
    | nil => exact ⟨[], List.nil_prefix, sends_pure _ session⟩
    | cons layout layouts =>
      have hfirst : Sends (do return (layout, ← Session.query text)) session [text] :=
        sends_bind (sends_query text session) fun _ => sends_pure _
      rw [Session.queryAll, List.zip_cons_cons, List.mapM_cons]
      rcases hrun : (do return (layout, ← Session.query text) : Talk _).run session with
        ⟨e | rows, after⟩
      · exact ⟨[text], (List.prefix_cons_inj text).2 List.nil_prefix,
          sends_bind_of_error hrun hfirst⟩
      · obtain ⟨sent, hfirsts, hsent⟩ := ih layouts after
        refine ⟨text :: sent, (List.prefix_cons_inj text).2 hfirsts, ?_⟩
        exact sends_bind_of_ok hrun hfirst (sends_bind hsent fun _ => sends_pure _)

end Sends

namespace Provider

variable {p : Provider} {query : Query} {plan : ReadPlan}

/-- The text that fixes a page is sent if there is one. -/
theorem sends_openPage (plan : ReadPlan) (window : Window) (session : Session) :
    Sends (openPage plan window) session (plan.pageText window).toOption.toList := by
  rw [openPage]
  cases plan.pageText window with
  | error e => exact sends_throw e session
  | ok text =>
    show Sends (Session.query text >>= _) session [text]
    refine sends_bind (sends_query text session) fun rows after => ?_
    rcases rows with _ | ⟨failure | row, rest⟩
    · exact sends_throw _ after
    · exact sends_nil_of_queries rfl
    · exact sends_nil_of_queries rfl

/-- Of the texts that read rows the first ones are sent. -/
theorem sends_openRows (plan : ReadPlan) (window : Window) (layouts : List SortLayout)
    (session : Session) : ∃ sent, sent <+: (plan.rowsTexts window).toOption.getD [] ∧
      Sends (openRows plan window layouts) session sent := by
  rw [openRows]
  cases plan.rowsTexts window with
  | error e => exact ⟨[], List.nil_prefix, sends_throw e session⟩
  | ok texts =>
    obtain ⟨sent, hfirsts, hsent⟩ := sends_queryAll texts layouts session
    refine ⟨sent, hfirsts, ?_⟩
    show Sends (Session.queryAll (texts.zip layouts) >>= _) session sent
    exact sends_bind hsent fun _ => sends_pure _

/-- Opening a stream sends the text that fixes the page, and behind it only texts that read the rows
of a page. -/
theorem sends_openStream (p : Provider) (plan : ReadPlan) (query : Query) (session : Session) :
    ∃ page sent, sent.head? = (plan.pageText (p.window query)).toOption ∧
      sent.tail <+: (plan.rowsTexts (p.rowsWindow query page)).toOption.getD [] ∧
      Sends (p.openStream plan query) session sent := by
  have hpage := sends_openPage plan (p.window query) session
  show ∃ page sent, _ ∧ _ ∧ Sends (openPage plan (p.window query) >>= _) session sent
  rcases hrun : (openPage plan (p.window query)).run session with ⟨e | page, after⟩
  · refine ⟨default, _, ?_, ?_, sends_bind_of_error hrun hpage⟩
    · cases (plan.pageText (p.window query)).toOption <;> rfl
    · cases (plan.pageText (p.window query)).toOption <;> exact List.nil_prefix
  · -- a page is known only from an answer to its text
    obtain ⟨text, htext⟩ : ∃ text, plan.pageText (p.window query) = .ok text := by
      obtain ⟨_, hknown, -⟩ := run_openPage plan (p.window query) session
      obtain ⟨text, htext, -⟩ := bind_eq_ok.1 ((Prod.mk.inj (hknown.symm.trans hrun)).1)
      exact ⟨text, htext⟩
    rw [htext] at hpage ⊢
    suffices hrows : ∃ sent, sent <+: (plan.rowsTexts (p.rowsWindow query page)).toOption.getD [] ∧
        Sends _ after sent by
      obtain ⟨sent, hfirsts, hsent⟩ := hrows
      exact ⟨page, text :: sent, rfl, hfirsts, sends_bind_of_ok hrun hpage hsent⟩
    dsimp only
    split
    · exact ⟨[], List.nil_prefix, sends_throw _ after⟩
    · cases Reconstruction.start plan (query.sortKeys.map SortKey.descending) with
      | error e => exact ⟨[], List.nil_prefix, sends_throw e after⟩
      | ok state =>
        by_cases hreturned : page.returned = 0
        · refine ⟨[], List.nil_prefix, sends_nil_of_queries ?_⟩
          simp only [if_pos hreturned]
          rfl
        · obtain ⟨sent, hfirsts, hsent⟩ :=
            sends_openRows plan (p.rowsWindow query page) state.layouts after
          refine ⟨sent, hfirsts, ?_⟩
          simp only [if_neg hreturned]
          show Sends (openRows plan (p.rowsWindow query page) state.layouts >>= _) after sent
          exact sends_bind hsent fun _ => sends_pure _

/-- Looking for a feature in advance sends nothing. -/
theorem sends_primed (query : Query) (s : FeatureStream) (session : Session) :
    Sends (primed query s) session [] := by
  refine sends_nil_of_queries ?_
  rw [primed]
  cases query.id with
  | none => rfl
  | some id => rcases s.prime with ⟨_ | _ | _, left⟩ <;> rfl

/-- A read sends what opening its stream does, and nothing without a plan. -/
theorem queries_read (p : Provider) (query : Query) (session : Session) :
    (p.read query session).2.queries = match p.plan query.featureType with
      | .ok plan => ((p.openStream plan query).run session).2.queries
      | .error _ => session.queries := by
  have hdrained : (p.read query session).2.queries = (p.stream query session).2.queries := by
    rw [read]
    rcases p.stream query session with ⟨e | opened, after⟩
    · rfl
    · dsimp only
      rcases opened.drain with ⟨events, _ | e, left⟩ <;> rfl
  rw [hdrained, stream]
  cases p.plan query.featureType with
  | error e => rfl
  | ok plan =>
    obtain ⟨_, sent, -, -, hsent⟩ := sends_openStream p plan query session
    have hprimed : Sends (p.openStream plan query >>= primed query) session sent :=
      sends_bind hsent (sends_primed query)
    dsimp only
    rw [hsent, ← hprimed]
    rcases (p.openStream plan query >>= primed query).run session with ⟨e | opened, after⟩ <;> rfl

end Provider

/-! ## Where the clause stands -/

/-- A select gives rows of a table alone, and a clause is the last of its text. -/
structure RootSelect.IsCutBy (r : RootSelect) (table clause : String) : Prop where
  table_eq : r.table = table
  joins_eq : r.joins = ""
  paging_eq : r.paging.text = clause

namespace Provider

/-- What is sent for a query cuts the page by a clause. -/
structure SendsCut (p : Provider) (plan : ReadPlan) (query : Query) (clause : String)
    (sent : List String) : Prop where
  /-- What comes first is the text that fixes the page, if there is one. -/
  head_eq : sent.head? = (plan.pageText (p.window query)).toOption
  /-- The sub-select that fixes the page ends with the clause. -/
  page : ∀ text ∈ sent.head?, ∃ (range matched : String) (select : RootSelect),
    text = "WITH NR AS (SELECT " ++ range ++ ", count(*) AS numberReturned FROM (" ++ select.text ++
      ") AS IDS), NM AS (" ++ matched ++ ") SELECT * FROM NR, NM" ∧
    select.IsCutBy plan.storage.root.name clause
  /-- In the order of the reader every other text is a select of root rows that ends with the
  clause, or asks for root rows in one. -/
  rows : query.sortKeys ≠ [] → ∀ text ∈ sent.tail, ∃ select : RootSelect,
    select.IsCutBy plan.storage.root.name clause ∧ (text = select.text ∨
      ∃ outer : RootSelect, text = outer.text ∧ outer.paging = ⟨0, 0⟩ ∧
        outer.conditions = [PagedRoots.memberText plan.storage select])

/-- The clause that the page of a query is cut by. -/
def clause (p : Provider) (query : Query) : String := (p.window query).paging.text

/-- A query never gets more features than the configuration allows: the clause that cuts its page
has a limit up to the greatest, and stands in what is sent while its stream is opened. Reading the
stream to its end sends nothing more. -/
structure ReadsBounded (p : Provider) (query : Query) : Prop where
  isBound : IsBound p.config.maxLimit query.offset (p.clause query)
  sendsCut : ∀ plan, p.plan query.featureType = .ok plan → ∀ session, ∃ sent,
    ((p.openStream plan query).run session).2.queries = session.queries ++ sent ∧
      (p.read query session).2.queries = session.queries ++ sent ∧
      p.SendsCut plan query (p.clause query) sent

variable {p : Provider} {query : Query} {plan : ReadPlan} {statement : PageStatement}

/-- The sub-select that fixes the page ends with the clause of the query. -/
theorem isCutBy_page
    (h : plan.storage.pageStatement plan.countsMatched (p.window query) = .ok statement) :
    (statement.innerSelect plan.storage).IsCutBy plan.storage.root.name (p.clause query) := by
  obtain ⟨htable, -, hpaging⟩ := Storage.pageStatement_fields h
  exact ⟨htable, rfl, congrArg Paging.text hpaging⟩

/-- In the order of the reader every statement of a group cuts root rows by the clause of the query,
itself if nothing is joined and in a sub-select otherwise. -/
theorem exists_isCutBy_rows (hlimit : (p.window query).limit ≠ 0) (hsorted : query.sortKeys ≠ [])
    (h : plan.storage.pageStatement plan.countsMatched (p.window query) = .ok statement)
    {page : PageInfo} {group : JoinGroup} {r : RowsStatement}
    (hr : plan.storage.rowsStatement (p.rowsWindow query page) group = .ok r) :
    ∃ select : RootSelect, select.IsCutBy plan.storage.root.name (p.clause query) ∧
      ((r.sql plan.storage).render 0 = select.text ∨ ∃ outer : RootSelect,
        (r.sql plan.storage).render 0 = outer.text ∧ outer.paging = ⟨0, 0⟩ ∧
          outer.conditions = [PagedRoots.memberText plan.storage select]) := by
  obtain ⟨-, -, hpaging⟩ := Storage.pageStatement_fields h
  have hclause : statement.paging.text = p.clause query := congrArg Paging.text hpaging
  obtain ⟨_, hfound, rfl, -, hcases⟩ := Storage.rowsStatement_cases h page.keyRange group
  obtain rfl := Except.ok.inj (hr.symm.trans hfound)
  have htext := r.render_readerSelect plan.storage
  rcases hcases with ⟨hsort | hall, -⟩ | ⟨-, hjoins, hcut, -⟩ | ⟨-, -, hall, hconditions⟩
  · exact absurd hsort hsorted
  · exact absurd hall (by simp [Window.paging, Paging.isAll, hlimit])
  · refine ⟨_, ⟨rfl, ?_, ?_⟩, .inl htext⟩
    · show (r.rootSelect plan.storage).joins = ""
      rw [RowsStatement.rootSelect, hjoins]
      rfl
    · show r.paging.text = p.clause query
      rw [hcut, hclause]
  · let roots : PagedRoots := ⟨statement.readerKeys, statement.restriction, statement.paging⟩
    refine ⟨roots.orderedSelect plan.storage, ⟨rfl, rfl, hclause⟩, .inr ⟨_, htext, hall, ?_⟩⟩
    show (r.rootSelect plan.storage).conditions = _
    rw [RowsStatement.rootSelect, hconditions]
    exact congrArg (fun text => [text]) (roots.render_orderedSelect plan.storage)

/-- If a query gets a limit, opening its stream sends texts that all cut the page by its clause. -/
theorem exists_sendsCut (hlimit : (p.window query).limit ≠ 0) (plan : ReadPlan)
    (session : Session) : ∃ sent, Sends (p.openStream plan query) session sent ∧
      p.SendsCut plan query (p.clause query) sent := by
  obtain ⟨page, sent, hhead, hfirsts, hsent⟩ := sends_openStream p plan query session
  have hstatement : ∀ text ∈ sent.head?, ∃ statement,
      plan.storage.pageStatement plan.countsMatched (p.window query) = .ok statement ∧
        (statement.sql plan.storage).render 0 = text := by
    intro text htext
    rw [hhead] at htext
    exact map_eq_ok.1 (toOption_eq_some.1 htext)
  refine ⟨sent, hsent, hhead, ?_, ?_⟩
  · intro text htext
    obtain ⟨statement, hfound, rfl⟩ := hstatement text htext
    exact ⟨_, _, _, statement.render_sql plan.storage, isCutBy_page hfound⟩
  · intro hsorted text htext
    -- behind a text that fixes the page, each is that of a group
    obtain ⟨first, hfirst⟩ : ∃ first, sent.head? = some first := by
      cases sent with
      | nil => exact absurd htext List.not_mem_nil
      | cons first more => exact ⟨first, rfl⟩
    obtain ⟨statement, hfound, -⟩ := hstatement first hfirst
    have hmem := hfirsts.subset htext
    cases htexts : plan.rowsTexts (p.rowsWindow query page) with
    | error e =>
      rw [htexts] at hmem
      exact absurd hmem List.not_mem_nil
    | ok texts =>
      rw [htexts] at hmem
      obtain ⟨group, -, hgroup⟩ := exists_of_mapM_eq_ok htexts hmem
      obtain ⟨r, hr, rfl⟩ := map_eq_ok.1 hgroup
      exact exists_isCutBy_rows hlimit hsorted hfound hr

/-- Reads of a valid configuration are bounded, but for a query that leaves the limit to a
configuration whose default is zero: a default of zero is below every greatest limit, and no limit
at all in a clause. -/
theorem readsBounded_iff {c : Configuration} (h : ofConfiguration c = .ok p) (query : Query) :
    p.ReadsBounded query ↔ query.limit ≠ 0 ∨ c.defaultLimit ≠ 0 := by
  obtain ⟨_, hvalid, hplans⟩ := bind_eq_ok.1 h
  obtain ⟨rfl, hmax, hdefault⟩ := Configuration.limits_of_validated hvalid
  obtain ⟨plans, -, hplans⟩ := bind_eq_ok.1 hplans
  have hconfig : p.config = c := congrArg Provider.config (pure_eq_ok.1 hplans).symm
  have hle : (p.window query).limit ≤ p.config.maxLimit := by
    rw [window, hconfig]
    exact Configuration.effectiveLimit_le hdefault query.limit
  have hlimit : (p.window query).limit ≠ 0 ↔ query.limit ≠ 0 ∨ c.defaultLimit ≠ 0 := by
    rw [window, hconfig]
    exact Configuration.effectiveLimit_ne_zero_iff hmax
  have hbound : IsBound p.config.maxLimit query.offset (p.clause query) ↔
      (p.window query).limit ≠ 0 := Paging.isBound_iff hle
  rw [← hlimit]
  refine ⟨fun hread => hbound.1 hread.isBound, fun hpositive =>
    ⟨hbound.2 hpositive, fun plan hplan session => ?_⟩⟩
  obtain ⟨sent, hsent, hcut⟩ := exists_sendsCut hpositive plan session
  have hread : (p.read query session).2.queries =
      ((p.openStream plan query).run session).2.queries := by
    rw [queries_read, hplan]
  exact ⟨sent, hsent, hread.trans hsent, hcut⟩

/-- Parcels and their cities, of which a configuration gives five at most and none by default: a
query for a hundred, but for the first twenty, gets five. -/
theorem readsBounded_iff_parcels :
    let c : Configuration := ⟨.postgis, false, 0, 5, 4326, none, [⟨"parcels", "parcel",
      [⟨"id", "id", .id, none⟩, ⟨"city", "[id=parcel_id]address/city", .value, none⟩]⟩]⟩
    let query : Query := ⟨"parcels", 100, 20, [⟨"id", false⟩], none, none⟩
    let session : Session := .start [.ok [.ok [none, none, some ⟨.integer, "1"⟩, none]]]
    let texts :=
      [ "WITH NR AS (SELECT NULL AS minKey, NULL AS maxKey, count(*) AS numberReturned FROM " ++
          "(SELECT A.id AS CSKEY_0, A.id AS SKEY FROM parcel A " ++
          "ORDER BY CSKEY_0 NULLS FIRST, SKEY LIMIT 5 OFFSET 20) AS IDS), " ++
          "NM AS (SELECT -1::bigint AS numberMatched) SELECT * FROM NR, NM",
        "SELECT A.id AS CSKEY_0, A.id AS SKEY, A.id FROM parcel A " ++
          "ORDER BY 1 NULLS FIRST,2 LIMIT 5 OFFSET 20",
        "SELECT A.id AS CSKEY_0, A.id AS SKEY, B.id AS SKEY_1, B.city FROM parcel A " ++
          "JOIN address B ON (A.id=B.parcel_id) WHERE (A.id IN (SELECT AA.id FROM parcel AA " ++
          "ORDER BY AA.id NULLS FIRST,AA.id LIMIT 5 OFFSET 20)) ORDER BY 1 NULLS FIRST,2,3" ]
    ∃ p plan, ofConfiguration c = .ok p ∧ p.plan "parcels" = .ok plan ∧
      ((p.openStream plan query).run session).2.queries = texts ∧ p.ReadsBounded query := by
  intro c query session texts
  have hrun : (do
      let p ← ofConfiguration c
      let plan ← p.plan "parcels"
      return ((p.openStream plan query).run session).2.queries :
        Except Error (List String)).toOption = some texts := by
    decide +kernel
  obtain ⟨p, hp, hrun⟩ := bind_eq_ok.1 (toOption_eq_some.1 hrun)
  obtain ⟨plan, hplan, hrun⟩ := bind_eq_ok.1 hrun
  exact ⟨p, plan, hp, hplan, pure_eq_ok.1 hrun, (readsBounded_iff hp query).2 (.inl (by decide))⟩

/-- A query for all of these parcels gets them all: no limit is sent. -/
theorem not_readsBounded_all :
    let c : Configuration := ⟨.postgis, true, 0, 5, 4326, none, [⟨"parcels", "parcel",
      [⟨"id", "id", .id, none⟩, ⟨"city", "[id=parcel_id]address/city", .value, none⟩]⟩]⟩
    let session : Session := .start [.ok [.ok [none, none, some ⟨.integer, "0"⟩, none]]]
    let text := "WITH NR AS (SELECT MIN(SKEY) AS minKey, MAX(SKEY) AS maxKey, count(*) AS " ++
      "numberReturned FROM (SELECT A.id AS SKEY FROM parcel A ORDER BY SKEY) AS IDS), NM AS " ++
      "(SELECT count(*) AS numberMatched FROM (SELECT A.id AS SKEY FROM parcel A ORDER BY 1) " ++
      "AS IDS) SELECT * FROM NR, NM"
    ∃ p plan, ofConfiguration c = .ok p ∧ p.plan "parcels" = .ok plan ∧
      ((p.openStream plan (.all "parcels")).run session).2.queries = [text] ∧
      ¬p.ReadsBounded (.all "parcels") := by
  intro c session text
  have hrun : (do
      let p ← ofConfiguration c
      let plan ← p.plan "parcels"
      return (((p.openStream plan (.all "parcels")).run session).2.queries,
        p.clause (.all "parcels")) : Except Error (List String × String)).toOption =
      some ([text], "") := by
    decide +kernel
  obtain ⟨p, hp, hrun⟩ := bind_eq_ok.1 (toOption_eq_some.1 hrun)
  obtain ⟨plan, hplan, hrun⟩ := bind_eq_ok.1 hrun
  obtain ⟨hqueries, hclause⟩ := Prod.mk.inj (pure_eq_ok.1 hrun)
  refine ⟨p, plan, hp, hplan, hqueries, fun hread => ?_⟩
  obtain ⟨limit, -, -, htext⟩ := hread.isBound
  rw [hclause] at htext
  have hfirst := congrArg (fun t => t.toList.head?) htext
  simp at hfirst

end Provider

end FeatureStore
