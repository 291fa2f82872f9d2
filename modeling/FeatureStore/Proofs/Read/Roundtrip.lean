import FeatureStore.Proofs.Read.Replay
import FeatureStore.Read.Stream

/-!
# Reading back flattened features

Reading inverts flattening (`drain_flatRows`): when the rows of nested features are flattened into
one stream for each join group, a stream of features over the merge of these streams gives exactly
the events of the nested features. The merge gives the rows back in nested order
(`run_flatRows`), pushing them gives the events feature by feature (`pushes_features`), and a stream
gives what pushing all rows of its merge gives (`drain_reading`).
-/

set_option autoImplicit false

namespace FeatureStore

open Reconstruction

/-! ## Feature by feature -/

section Features

variable {tree : TableTree} {featureType : String}

/-- The group of the root table comes first. -/
theorem group_tagged_root (htree : tree.IsDerived) {x : ListedRow}
    (hx : x.chain = [(0, tree.root)]) :
    (x.tagged tree).group = 0 ∧ x.chain ∈ tree.numberedChains ∧ isReadChain x.chain = true := by
  obtain ⟨rest, hrest⟩ := htree.readChains_eq_cons
  have hfirst : [(0, tree.root)] ∈ tree.numberedChains ∧ isReadChain [(0, tree.root)] = true := by
    refine List.mem_filter.1 ?_
    show [(0, tree.root)] ∈ tree.readChains
    rw [hrest]
    exact List.mem_cons_self
  rw [hx]
  refine ⟨?_, hfirst⟩
  show List.idxOf x.ids tree.readIds = 0
  rw [TableTree.readIds, hrest, List.map_cons, ListedRow.ids, hx, List.idxOf_cons_self]

/-- What is known once the root row of a feature was pushed. -/
theorem atRow_root (htree : tree.IsDerived) {row : NestedRow} (hkey : row.key.isSortable = true)
    {r next : Reconstruction} (hr : Replaying tree featureType r)
    (hnext : next = { r with
      rows := r.rows + 1
      multiplicities := r.multiplicities.reset.visitAll (visitsOf [(0, tree.root)] [row.key])
      current := some row.key.text
      features := r.features + 1 }) :
    AtRow tree featureType [(0, tree.root)] [row.key] next ∧
      (∀ k, 0 < k → next.multiplicities.counter k = Counter.zero) ∧
      next.multiplicities.countsOf [0] = [] := by
  have hstart := Multiplicities.isOf_start (Arena.ofTree tree)
  have hholds := Arena.holds_ofTree tree
  have hnew : (Multiplicities.start (Arena.ofTree tree)).last 0 ≠ some row.key.text := by
    rw [Multiplicities.last_eq, Multiplicities.counter_start]
    exact (Option.some_ne_none _).symm
  have hnone : (Multiplicities.start (Arena.ofTree tree)).IsAt [] := by simp [Multiplicities.IsAt]
  -- a new feature starts all counters anew and then advances that of the root table
  have hcounters : next.multiplicities =
      (Multiplicities.start (Arena.ofTree tree)).advance 0 (some row.key.text) := by
    rw [hnext, ← Multiplicities.visitAll_concat hnone hnew]
    show r.multiplicities.reset.visitAll _ = _
    rw [hr.isOf.reset]
    rfl
  refine ⟨⟨⟨?_, ?_, ?_, ?_⟩, rfl, ?_, ⟨row.key, [], rfl, by rw [hnext]⟩, ?_⟩, fun k hk => ?_, ?_⟩
  · rw [hnext]
    exact hr.featureType_eq
  · rw [hnext]
    exact hr.readerKeys_eq
  · rw [hnext]
    exact hr.groups_eq
  · rw [hcounters]
    exact hstart.advance _ _
  · intro key hmem
    rw [List.mem_singleton.1 hmem]
    exact hkey
  · rw [hcounters]
    exact Multiplicities.isAt_advance hstart hholds hnone (by simp)
  · rw [hcounters, Multiplicities.counter_advance_of_holds hstart hholds, if_neg (by omega),
      Multiplicities.counter_start, ite_self]
  · rw [hcounters, Multiplicities.countsOf, List.filter_cons_of_neg, List.filter_nil, List.map_nil]
    rw [Multiplicities.isMultiValued, show (Multiplicities.advance _ 0 _).arena =
      Arena.ofTree tree from rfl, hholds.get?_eq]
    show ¬ tree.root.kind.isMultiValued = true
    rw [Table.kind, Table.relation?, htree.root_relations]
    simp [RelationKind.isMultiValued]

/-- The root row of a feature and all rows below it: the open feature ends, and its own begins. -/
theorem pushes_feature {table : Table} {children : List TableTree} {row : NestedRow}
    {r : Reconstruction} (htree : (TableTree.node table children).IsDerived)
    (hr : Replaying (.node table children) featureType r) (hkey : row.key.isSortable = true)
    (hvalues : row.values.length = table.columns.length)
    (hfits : NestedRow.FitsBelow children row.blocks) (hnew : r.current ≠ some row.key.text) :
    ∃ next, Pushes r
        ((readRows (⟨[(0, table)], [row.key], row.values⟩ ::
          TableTree.listedBelow [(0, table)] [row.key] 1 children row.blocks)).map
            (ListedRow.tagged (.node table children)))
        (r.closing ++ .featureStart featureType (featureId table row) ::
            columnEvents [] table.columns row.values ++
          TableTree.rowEventsBelow [] children row.blocks) next ∧
      Replaying (.node table children) featureType next ∧ next.current = some row.key.text := by
  have hchains : ∀ c ∈ TableTree.numberedFromList [(0, table)] 1 children,
      c ∈ (TableTree.node table children).numberedChains := fun c hc => List.mem_cons_of_mem _ hc
  have hsound : (⟨[(0, table)], [row.key], row.values⟩ : ListedRow).IsSound :=
    ⟨rfl, by simpa using hkey, hvalues⟩
  obtain ⟨hgroup, hmem, hread⟩ := group_tagged_root htree
    (x := ⟨[(0, table)], [row.key], row.values⟩) rfl
  have hpush := push_of_new hr rfl hsound hmem hread hgroup hnew
  obtain ⟨hat, hzero, hcounts⟩ := atRow_root htree hkey hr rfl
  have hholds : (Arena.ofTree (.node table children)).HoldsList 0 1 1 children :=
    (Arena.holds_ofTree (.node table children)).below
  obtain ⟨next, hbelow, hnext, -⟩ := pushes_listedBelow hholds (by simp) hchains [row.key]
    row.blocks _ hfits hat (fun k hlow _ => hzero k hlow)
  obtain ⟨key, more, hkeys, hcurrent⟩ := hnext.current
  obtain ⟨rfl, -⟩ := List.cons.inj hkeys
  -- the root table takes no part in the counts
  have hvaluesRoot : columnEvents (Multiplicities.countsOf _ [0]) table.columns row.values =
      columnEvents [] table.columns row.values := congrArg (columnEvents · _ _) hcounts
  change Pushes _ _ (TableTree.rowEventsBelow (Multiplicities.countsOf _ [0]) _ _) _ at hbelow
  rw [hcounts] at hbelow
  refine ⟨next, ?_, hnext.replaying, hcurrent⟩
  rw [readRows_cons, if_pos hread, List.map_cons]
  exact Pushes.cons (hpush.trans (congrArg (fun events => (Except.ok (r.closing ++
    .featureStart featureType (featureId table row) :: events), _)) hvaluesRoot)) hbelow

/-- Pushing the rows of features gives their events, but for the end of the last one. -/
theorem pushes_features {table : Table} {children : List TableTree}
    (htree : (TableTree.node table children).IsDerived) : ∀ {features : List NestedRow}
    {r : Reconstruction}, Replaying (.node table children) featureType r →
    NestedRow.Fits (.node table children) features →
    (∀ row ∈ features.head?, r.current ≠ some row.key.text) →
    ∃ events last, Pushes r
        ((readRows ((TableTree.node table children).listed [] [] 0 features)).map
          (ListedRow.tagged (.node table children))) events last ∧
      events ++ last.closing = r.closing ++
        features.flatMap (featureEvents featureType (.node table children)) := by
  intro features
  induction features with
  | nil =>
    intro r _ _ _
    exact ⟨[], r, Pushes.nil r, by simp⟩
  | cons row features ih =>
    intro r hr hfits hnew
    rw [NestedRow.Fits] at hfits
    obtain ⟨hsorted, hrows⟩ := hfits
    obtain ⟨hfirst, hsorted⟩ := List.pairwise_cons.1 hsorted
    obtain ⟨⟨hkey, hvalues, hfitsBelow, -⟩, hrows⟩ := List.forall_mem_cons.1 hrows
    obtain ⟨next, hpush, hnext, hcurrent⟩ := pushes_feature htree hr hkey hvalues hfitsBelow
      (hnew row rfl)
    have hother : ∀ other ∈ features.head?, next.current ≠ some other.key.text := by
      intro other hother
      obtain ⟨hkind, hless⟩ := hfirst other (List.mem_of_mem_head? hother)
      rw [hcurrent]
      intro heq
      exact text_ne_of_compareCells_lt hkey hkind hless (Option.some.inj heq)
    obtain ⟨events, last, hrest, hevents⟩ := ih hnext (by
      rw [NestedRow.Fits]
      exact ⟨hsorted, hrows⟩) hother
    -- the end of a feature is among the events of the next row, or of the end
    have hall := hpush.append hrest
    rw [← List.map_append] at hall
    refine ⟨(r.closing ++ .featureStart featureType (featureId table row) ::
      columnEvents [] table.columns row.values ++
        TableTree.rowEventsBelow [] children row.blocks) ++ events, last, ?_, ?_⟩
    · rw [TableTree.listed, readRows, List.flatMap_cons, List.filter_append]
      rw [TableTree.listed] at hall
      exact hall
    · have hclosing : next.closing = [.featureEnd] := by rw [closing, hcurrent]; rfl
      rw [List.append_assoc, hevents, hclosing]
      simp [featureEvents, TableTree.root, TableTree.children]

end Features

/-! ## Draining a stream -/

namespace Merge

/-- A merge that runs through no rows has ended. -/
theorem next_of_run_nil {m : Merge} (h : m.run = ([], none)) : ∃ left, m.next = (none, left) := by
  rcases hnext : m.next with ⟨_ | failure | row, left⟩
  · exact ⟨left, rfl⟩
  · rw [run_of_next_failure hnext] at h
    simp at h
  · rw [run_of_next_row hnext] at h
    simp at h

/-- A merge that runs through some rows gives the first of them. -/
theorem next_of_run_cons {m : Merge} {row : MergedRow} {rows : List MergedRow}
    (h : m.run = (row :: rows, none)) :
    ∃ left, m.next = (some (.ok row), left) ∧ left.run = (rows, none) := by
  rcases hnext : m.next with ⟨_ | failure | other, left⟩
  · rw [run_of_next_none hnext] at h
    simp at h
  · rw [run_of_next_failure hnext] at h
    simp at h
  · rw [run_of_next_row hnext] at h
    obtain ⟨hall, hfailure⟩ := Prod.mk.inj h
    obtain ⟨rfl, hrest⟩ := List.cons.inj hall
    exact ⟨left, rfl, Prod.ext hrest hfailure⟩

end Merge

namespace FeatureStream

theorem drain_of_next_none {s left : FeatureStream} (h : s.next = (none, left)) :
    s.drain = ([], none, left) := by
  rw [drain]
  split <;> rename_i heq <;> rw [h] at heq <;> simp at heq
  rw [heq]

/-- A stream gives its next event and then what the stream behind it gives. -/
theorem drain_of_next_event {s left : FeatureStream} {event : Event}
    (h : s.next = (some (.ok event), left)) :
    s.drain = (event :: left.drain.1, left.drain.2) := by
  rw [drain]
  split <;> rename_i heq <;> rw [h] at heq
  · simp at heq
  · simp at heq
  · obtain ⟨hevent, rfl⟩ := Prod.mk.inj heq
    obtain rfl : event = _ := by simpa using hevent
    rfl

theorem drain_of_next_failure {s left : FeatureStream} {e : Error}
    (h : s.next = (some (.error e), left)) : s.drain = ([], some e, left) := by
  rw [drain]
  split <;> rename_i heq <;> rw [h] at heq
  · simp at heq
  · obtain ⟨he, rfl⟩ := Prod.mk.inj heq
    obtain rfl : e = _ := by simpa using he
    rfl
  · simp at heq

/-- Streams that go on in the same way give the same. -/
theorem drain_congr {s t : FeatureStream} (h : s.next = t.next) : s.drain = t.drain := by
  rcases ht : t.next with ⟨_ | e | event, left⟩ <;> rw [ht] at h
  · rw [drain_of_next_none h, drain_of_next_none ht]
  · rw [drain_of_next_failure h, drain_of_next_failure ht]
  · rw [drain_of_next_event h, drain_of_next_event ht]

/-- The events that were made already come first. -/
theorem drain_pending (events : List Event) (source : EventSource) (taken : Nat) :
    drain ⟨events, source, taken⟩ =
      (events ++ (drain ⟨[], source, taken⟩).1, (drain ⟨[], source, taken⟩).2) := by
  induction events with
  | nil => rfl
  | cons event events ih =>
    have hnext : next ⟨event :: events, source, taken⟩ =
      (some (.ok event), ⟨events, source, taken⟩) := rfl
    rw [drain_of_next_event hnext, ih]
    rfl

/-- A stream without events gives what it is filled with. -/
theorem drain_of_fill {m : Merge} {r : Reconstruction} {taken now : Nat} {event : Event}
    {events : List Event} {source : EventSource}
    (h : fill taken m r = (⟨event :: events, source, now⟩, none)) :
    drain ⟨[], .reading m r, taken⟩ = drain ⟨event :: events, source, now⟩ := by
  refine drain_congr ?_
  rw [next]
  simp only [h]
  rfl

/-- Filling a stream pushes the next row. -/
theorem fill_of_next_row {m left : Merge} {row : MergedRow} (taken : Nat) (r : Reconstruction)
    (h : m.next = (some (.ok row), left)) :
    fill taken m r =
      match r.push row with
      | (.error e, _) => (ended (taken + (m.untaken - left.untaken)), some e)
      | (.ok [], next) => fill (taken + (m.untaken - left.untaken)) left next
      | (.ok events, next) =>
        (⟨events, .reading left next, taken + (m.untaken - left.untaken)⟩, none) := by
  rw [fill]
  split <;> rename_i heq <;> rw [h] at heq
  · simp at heq
  · simp at heq
  · obtain ⟨hrow, rfl⟩ := Prod.mk.inj heq
    obtain rfl : row = _ := by simpa using hrow
    rfl

/-- A row without events is passed over. -/
theorem drain_of_push_nil {m left : Merge} {r after : Reconstruction} {row : MergedRow}
    (taken : Nat) (h : m.next = (some (.ok row), left)) (hpush : r.push row = (.ok [], after)) :
    ∃ now, drain ⟨[], .reading m r, taken⟩ = drain ⟨[], .reading left after, now⟩ := by
  have hfill := fill_of_next_row taken r h
  rw [hpush] at hfill
  refine ⟨taken + (m.untaken - left.untaken), drain_congr ?_⟩
  rw [next, next]
  simp only [hfill]

/-- A row with events gives them. -/
theorem drain_of_push_cons {m left : Merge} {r after : Reconstruction} {row : MergedRow}
    {event : Event} {events : List Event} (taken : Nat) (h : m.next = (some (.ok row), left))
    (hpush : r.push row = (.ok (event :: events), after)) :
    ∃ now, drain ⟨[], .reading m r, taken⟩ =
      drain ⟨event :: events, .reading left after, now⟩ := by
  have hfill := fill_of_next_row taken r h
  rw [hpush] at hfill
  exact ⟨_, drain_of_fill hfill⟩

/-- The end of the rows gives the last events. -/
theorem drain_of_end {m left : Merge} (r : Reconstruction) (taken : Nat)
    (h : m.next = (none, left)) :
    ∃ last, drain ⟨[], .reading m r, taken⟩ = (r.finish.1, none, last) := by
  have hfill : fill taken m r =
      (⟨r.finish.1, .closed, taken + (m.untaken - left.untaken)⟩, none) := by
    rw [fill]
    split <;> rename_i heq <;> rw [h] at heq
    · obtain ⟨-, rfl⟩ := Prod.mk.inj heq
      rfl
    · simp at heq
    · simp at heq
  -- there is at least the end of the stream to give
  obtain ⟨event, events, hfinish⟩ : ∃ event events, r.finish.1 = event :: events :=
    List.exists_cons_of_ne_nil (List.append_ne_nil_of_right_ne_nil _ (List.cons_ne_nil _ _))
  rw [hfinish] at hfill ⊢
  rw [drain_of_fill hfill, drain_pending, drain_of_next_none rfl, List.append_nil]
  exact ⟨_, rfl⟩

/-- A stream gives what pushing all rows of its merge gives, and then the end. -/
theorem drain_reading {r last : Reconstruction} {rows : List MergedRow} {events : List Event}
    (h : Pushes r rows events last) : ∀ {m : Merge} (taken : Nat), m.run = (rows, none) →
    ∃ left, drain ⟨[], .reading m r, taken⟩ = (events ++ last.finish.1, none, left) := by
  induction h with
  | nil r =>
    intro m taken hrun
    obtain ⟨left, hnext⟩ := Merge.next_of_run_nil hrun
    exact drain_of_end r taken hnext
  | cons hpush _ ih =>
    rename_i r next last row rows events more _
    intro m taken hrun
    obtain ⟨left, hnext, hleft⟩ := Merge.next_of_run_cons hrun
    -- a row without events keeps the stream filling, one with events ends that
    cases events with
    | nil =>
      obtain ⟨now, hdrain⟩ := drain_of_push_nil taken hnext hpush
      rw [hdrain]
      exact ih now hleft
    | cons event events =>
      obtain ⟨now, hdrain⟩ := drain_of_push_cons taken hnext hpush
      obtain ⟨rest, hrest⟩ := ih now hleft
      refine ⟨rest, ?_⟩
      rw [hdrain, drain_pending, hrest, List.append_assoc]

end FeatureStream

/-! ## The roundtrip -/

/-- When the rows of nested features are merged from one stream for each join group, reading them
gives exactly the events of the features. -/
theorem drain_flatRows {name : String} {s : Storage} {counted : Bool} {plan : ReadPlan}
    (htree : s.tree.IsDerived) (hplan : ReadPlan.ofStorage name s counted = .ok plan)
    {features : List NestedRow} (hfits : NestedRow.Fits s.tree features) :
    ∃ r, Reconstruction.start plan [] = .ok r ∧ ∃ left,
      FeatureStream.drain ⟨[], .reading (Merge.ofRows (r.groups.map fun group =>
        (group.sort, flatRows s.tree features group.chain))) r, 0⟩ =
          (nestedEvents name s.tree features, none, left) := by
  obtain ⟨rfl, rfl, hstart⟩ := start_ofStorage htree hplan []
  refine ⟨_, hstart, ?_⟩
  have hr : Replaying plan.storage.tree plan.featureType (initial plan []) :=
    ⟨rfl, rfl, rfl, Multiplicities.isOf_start _⟩
  have hinputs : ((initial plan []).groups.map fun group =>
      (group.sort, flatRows plan.storage.tree features group.chain)) =
      plan.storage.tree.readChains.map fun chain => ((chainLayout [] chain).sort,
        flatRows plan.storage.tree features (chain.map Prod.fst)) := List.map_map
  rw [hinputs]
  -- row by row the reconstruction gives the events of the features
  obtain ⟨events, last, hpushes, hevents⟩ : ∃ events last, Pushes (initial plan [])
      ((readRows (plan.storage.tree.listed [] [] 0 features)).map
        (ListedRow.tagged plan.storage.tree)) events last ∧
      events ++ last.closing = (initial plan []).closing ++
        features.flatMap (featureEvents plan.featureType plan.storage.tree) := by
    generalize plan.storage.tree = tree at htree hr hfits
    cases tree with
    | node table children =>
      exact pushes_features htree hr hfits fun _ _ => (Option.some_ne_none _).symm
  obtain ⟨left, hdrain⟩ := FeatureStream.drain_reading hpushes 0 (run_flatRows htree hfits)
  refine ⟨left, hdrain.trans ?_⟩
  rw [finish, ← List.append_assoc, hevents]
  rfl

/-- Two parcels, the first with two owners. -/
theorem drain_flatRows_parcels :
    let cell (text : String) : Cell := ⟨.text, text⟩
    let features : List NestedRow :=
      [ .node (cell "1") [some (cell "north")]
          [[.node (cell "7") [some (cell "Ann")] [], .node (cell "8") [none] []]],
        .node (cell "2") [none] [[]] ]
    let name := "parcel/name"
    let owner := "parcel/[id=parcel_id]owner/name"
    let events : List Event :=
      [ .featureStart "parcel" "1",
        .propertyStart name [], .text "north", .propertyEnd name,
        .propertyStart owner [1], .text "Ann", .propertyEnd owner,
        .propertyStart owner [2], .propertyEnd owner,
        .featureEnd,
        .featureStart "parcel" "2",
        .propertyStart name [], .propertyEnd name,
        .featureEnd, .stop ]
    ∃ tree plan,
      TableTree.ofPaths [name, owner] = .ok tree ∧
      ReadPlan.ofStorage "parcel" (Storage.plain tree .geopackage) false = .ok plan ∧
      NestedRow.Fits tree features ∧
      ∃ r, Reconstruction.start plan [] = .ok r ∧ ∃ left,
        FeatureStream.drain ⟨[], .reading (Merge.ofRows (r.groups.map fun group =>
          (group.sort, flatRows tree features group.chain))) r, 0⟩ = (events, none, left) := by
  intro cell features name owner events
  have hshape : (do
      let tree ← TableTree.ofPaths [name, owner]
      let _ ← ReadPlan.ofStorage "parcel" (Storage.plain tree .geopackage) false
      return (decide (NestedRow.Fits tree features), nestedEvents "parcel" tree features) :
        Except Error (Bool × List Event)).toOption = some (true, events) := by
    decide +kernel
  obtain ⟨tree, htree, hok⟩ := bind_eq_ok.1 (toOption_eq_some.1 hshape)
  obtain ⟨plan, hplan, hok⟩ := bind_eq_ok.1 hok
  obtain ⟨hfits, hevents⟩ := Prod.mk.inj (pure_eq_ok.1 hok)
  have hfits := of_decide_eq_true hfits
  rw [← hevents]
  exact ⟨tree, plan, htree, hplan, hfits,
    drain_flatRows (TableTree.isDerived_of_ofPaths htree) hplan hfits⟩

end FeatureStore
