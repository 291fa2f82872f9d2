import FeatureStore.Proofs.Read.MergeRun

/-!
# What a merge delivers

A merge of any sources, sorted or not, neither loses nor invents rows. While it goes on, the items
of every source are the rows given for it, then its pending row, then what is still to be taken
(`Delivers`), and all items that were given, are pending or are still to be taken add up. One step
keeps this (`next_cases`): it gives one more row, or nothing because every source is exhausted, or
the failure that a source has next. By induction the rows of a whole run and the failure that ends
it are those of the sources (`run_delivers`): the rows of each source come in order and stop before
its first failure, and without a failure none is missing.

The row that is pending when the refill of its source fails is not given: the failure comes in its
place. So the rows given for a source are a prefix of those that it delivers, and not always all of
them.
-/

set_option autoImplicit false

namespace FeatureStore

/-- A source of rows before the merge: its layout, and its rows and failures in order. -/
abbrev MergeInput := SortLayout × List (Except ExecutionFailure Row)

/-! ## The rows of one source -/

/-- The rows that a source delivers before its first failure. -/
def deliveredRows : List (Except ExecutionFailure Row) → List Row
  | [] => []
  | .error _ :: _ => []
  | .ok row :: items => row :: deliveredRows items

theorem deliveredRows_append (rows : List Row) (items : List (Except ExecutionFailure Row)) :
    deliveredRows (rows.map Except.ok ++ items) = rows ++ deliveredRows items := by
  induction rows with
  | nil => rfl
  | cons row rows ih => rw [List.map_cons, List.cons_append, deliveredRows, ih, List.cons_append]

/-- The rows of the source with an index among merged rows. -/
def rowsOfGroup (group : Nat) (rows : List MergedRow) : List Row :=
  (rows.filter fun x => x.group = group).map MergedRow.row

theorem rowsOfGroup_concat_self {group : Nat} (rows : List MergedRow) (row : Row) :
    rowsOfGroup group (rows ++ [⟨group, row⟩]) = rowsOfGroup group rows ++ [row] := by
  simp [rowsOfGroup]

theorem rowsOfGroup_concat_of_ne {group : Nat} (rows : List MergedRow) {x : MergedRow}
    (h : x.group ≠ group) : rowsOfGroup group (rows ++ [x]) = rowsOfGroup group rows := by
  simp [rowsOfGroup, h]

/-! ## Taking one item -/

namespace RowSource

variable {s : RowSource}

/-- A pull that does not fail moves the next row, if there is one, to the place of the pending
one. -/
theorem pull_of_none (h : s.pull.2 = none) :
    s.rows = s.pull.1.pending.toList.map Except.ok ++ s.pull.1.rows ∧
      (s.pull.1.pending = none → s.pull.1.rows = []) ∧ s.pull.1.size = s.rows.length := by
  rcases s with ⟨layout, rows, pending⟩
  match rows with
  | [] => exact ⟨rfl, fun _ => rfl, rfl⟩
  | .ok row :: rest => exact ⟨rfl, fun hp => absurd hp (Option.some_ne_none row), rfl⟩
  | .error failure :: rest => exact absurd h (Option.some_ne_none failure)

/-- A pull fails with the next item of the source. -/
theorem mem_rows_of_pull {failure : ExecutionFailure} (h : s.pull.2 = some failure) :
    .error failure ∈ s.rows := by
  rcases s with ⟨layout, rows, pending⟩
  match rows with
  | [] => exact absurd h.symm (Option.some_ne_none failure)
  | .ok row :: rest => exact absurd h.symm (Option.some_ne_none failure)
  | .error other :: rest =>
    obtain rfl : other = failure := Option.some.inj h
    exact List.mem_cons_self

theorem totalSize_set {t : RowSource} : ∀ {sources : List RowSource} {index : Nat},
    sources[index]? = some s →
      totalSize (sources.set index t) + s.size = totalSize sources + t.size
  | [], _, hs => by simp at hs
  | u :: rest, 0, hs => by
    obtain rfl : u = s := by simpa using hs
    rw [List.set_cons_zero, totalSize, totalSize]
    omega
  | u :: rest, index + 1, hs => by
    have hrest : rest[index]? = some s := by simpa using hs
    have ih := totalSize_set (t := t) hrest
    rw [List.set_cons_succ, totalSize, totalSize]
    omega

/-- Sources with nothing pending hold what is untaken, also behind a first pull of each. -/
theorem totalSize_pull : ∀ {sources : List RowSource}, (∀ s ∈ sources, s.pull.2 = none) →
    totalSize (sources.map fun s => s.pull.1) = totalUntaken sources
  | [], _ => rfl
  | s :: rest, h => by
    obtain ⟨hs, hrest⟩ := List.forall_mem_cons.1 h
    rw [List.map_cons, totalSize, totalUntaken, totalSize_pull hrest, (pull_of_none hs).2.2]

/-- At most one row of each source is pending. -/
theorem totalSize_le (sources : List RowSource) :
    totalSize sources ≤ totalUntaken sources + sources.length := by
  induction sources with
  | nil => exact Nat.le_refl 0
  | cons s rest ih =>
    have hpending : s.pending.toList.length ≤ 1 := by
      cases s.pending <;> simp
    rw [totalSize, totalUntaken, List.length_cons, size]
    omega

end RowSource

/-- Taking a first item from every source: no source fails, or one that does ends it. -/
theorem pullAll_cases (sources : List RowSource) :
    (pullAll sources = (sources.map fun s => s.pull.1, none) ∧ ∀ s ∈ sources, s.pull.2 = none) ∨
      ∃ left failure s, pullAll sources = (left, some failure) ∧ s ∈ sources ∧
        s.pull.2 = some failure := by
  induction sources with
  | nil => exact Or.inl ⟨rfl, fun s hs => absurd hs List.not_mem_nil⟩
  | cons s rest ih =>
    rcases hs : s.pull with ⟨taken, outcome⟩
    cases outcome with
    | some failure =>
      refine Or.inr ⟨taken :: rest, failure, s, ?_, List.mem_cons_self, by rw [hs]⟩
      rw [pullAll, hs]
    | none =>
      rcases ih with ⟨hall, hnone⟩ | ⟨left, failure, t, hall, ht, hfailure⟩
      · refine Or.inl ⟨?_, List.forall_mem_cons.2 ⟨by rw [hs], hnone⟩⟩
        rw [pullAll, hs]
        simp only [hall, List.map_cons, hs]
      · refine Or.inr ⟨taken :: left, failure, t, ?_, List.mem_cons_of_mem _ ht, hfailure⟩
        rw [pullAll, hs]
        simp only [hall]

namespace Merge

/-! ## One step -/

/-- Sources under way that have given some rows. The items of each input are the rows given for it,
the pending row and what is still to be taken; a source without a pending row is exhausted. -/
structure Delivers (inputs : List MergeInput) (given : List MergedRow)
    (sources : List RowSource) : Prop where
  length_eq : sources.length = inputs.length
  group_lt : ∀ x ∈ given, x.group < inputs.length
  items_eq : ∀ {group : Nat} {s : RowSource} {input : MergeInput}, sources[group]? = some s →
    inputs[group]? = some input →
      input.2 = (rowsOfGroup group given ++ s.pending.toList).map Except.ok ++ s.rows
  loaded : ∀ s ∈ sources, s.pending = none → s.rows = []
  size_eq : RowSource.totalSize sources + given.length = (start inputs).untaken

namespace Delivers

variable {inputs : List MergeInput} {given : List MergedRow} {sources : List RowSource}

/-- There is a source for every input. -/
theorem exists_source (h : Delivers inputs given sources) {group : Nat} {input : MergeInput}
    (hinput : inputs[group]? = some input) : ∃ s, sources[group]? = some s := by
  have hlt := (List.getElem?_eq_some_iff.1 hinput).1
  rw [← h.length_eq] at hlt
  exact ⟨sources[group], List.getElem?_eq_getElem hlt⟩

theorem exists_input (h : Delivers inputs given sources) {group : Nat} {s : RowSource}
    (hs : sources[group]? = some s) : ∃ input, inputs[group]? = some input := by
  have hlt := (List.getElem?_eq_some_iff.1 hs).1
  rw [h.length_eq] at hlt
  exact ⟨inputs[group], List.getElem?_eq_getElem hlt⟩

/-- The rows given for a source are the first of those that it delivers. -/
theorem prefix_deliveredRows (h : Delivers inputs given sources) {group : Nat} {input : MergeInput}
    (hinput : inputs[group]? = some input) :
    rowsOfGroup group given <+: deliveredRows input.2 := by
  obtain ⟨s, hs⟩ := h.exists_source hinput
  rw [h.items_eq hs hinput, deliveredRows_append, List.append_assoc]
  exact List.prefix_append _ _

/-- Once no row is pending, everything was given. -/
theorem items_eq_of_pending (h : Delivers inputs given sources)
    (hnone : ∀ s ∈ sources, s.pending = none) {group : Nat} {input : MergeInput}
    (hinput : inputs[group]? = some input) :
    input.2 = (rowsOfGroup group given).map Except.ok := by
  obtain ⟨s, hs⟩ := h.exists_source hinput
  have hmem := List.mem_of_getElem? hs
  have hpending := hnone s hmem
  rw [h.items_eq hs hinput, hpending, h.loaded s hmem hpending, Option.toList_none,
    List.append_nil, List.append_nil]

/-- A failure that is still to be taken is an item of an input. -/
theorem mem_inputs (h : Delivers inputs given sources) {s : RowSource} (hs : s ∈ sources)
    {item : Except ExecutionFailure Row} (hitem : item ∈ s.rows) :
    ∃ input ∈ inputs, item ∈ input.2 := by
  obtain ⟨group, hgroup⟩ := List.mem_iff_getElem?.1 hs
  obtain ⟨input, hinput⟩ := h.exists_input hgroup
  refine ⟨input, List.mem_of_getElem? hinput, ?_⟩
  rw [h.items_eq hgroup hinput]
  exact List.mem_append_right _ hitem

/-- Giving the pending row of a source and taking its next item, which is no failure. -/
theorem set_pull (h : Delivers inputs given sources) {group : Nat} {s : RowSource} {row : Row}
    (hs : sources[group]? = some s) (hp : s.pending = some row) (hpull : s.pull.2 = none) :
    Delivers inputs (given ++ [⟨group, row⟩]) (sources.set group s.pull.1) := by
  obtain ⟨hrows, hloaded, hsize⟩ := RowSource.pull_of_none hpull
  have hlt : group < sources.length := (List.getElem?_eq_some_iff.1 hs).1
  refine ⟨?_, ?_, ?_, ?_, ?_⟩
  · rw [List.length_set, h.length_eq]
  · intro x hx
    rcases List.mem_append.1 hx with hx | hx
    · exact h.group_lt x hx
    · rw [List.mem_singleton.1 hx, ← h.length_eq]
      exact hlt
  · intro index t input ht hinput
    by_cases hindex : group = index
    · -- the row moves from the pending place to the rows given
      subst hindex
      rw [List.getElem?_set_self hlt] at ht
      obtain rfl := Option.some.inj ht
      rw [h.items_eq hs hinput, hp, rowsOfGroup_concat_self, hrows]
      simp
    · rw [List.getElem?_set_ne hindex] at ht
      rw [h.items_eq ht hinput, rowsOfGroup_concat_of_ne _ hindex]
  · intro t ht
    rcases List.mem_or_eq_of_mem_set ht with ht | rfl
    · exact h.loaded t ht
    · exact hloaded
  · have hset := RowSource.totalSize_set (t := s.pull.1) hs
    have hown : s.size = s.rows.length + 1 := by
      rw [RowSource.size, hp]
      rfl
    have hall := h.size_eq
    rw [List.length_append, List.length_singleton]
    omega

end Delivers

variable {inputs : List MergeInput}

/-- Sources that have each taken a first item without failure have given nothing. -/
theorem delivers_start
    (h : ∀ s ∈ (start inputs).sources, s.pull.2 = none) :
    Delivers inputs [] ((start inputs).sources.map fun s => s.pull.1) := by
  have hrows : (start inputs).sources.map RowSource.rows = inputs.map Prod.snd := by
    rw [start, List.map_map]
    rfl
  refine ⟨by simp [start], by simp, ?_, ?_, ?_⟩
  · intro group s input hs hinput
    rw [List.getElem?_map, Option.map_eq_some_iff] at hs
    obtain ⟨t, ht, rfl⟩ := hs
    have hitems : t.rows = input.2 := by
      have hat := congrArg (·[group]?) hrows
      simpa [List.getElem?_map, ht, hinput] using hat
    rw [← hitems]
    exact (RowSource.pull_of_none (h t (List.mem_of_getElem? ht))).1
  · intro s hs
    obtain ⟨t, ht, rfl⟩ := List.mem_map.1 hs
    exact (RowSource.pull_of_none (h t ht)).2.1
  · -- a first item that is taken is still held, as the pending row
    rw [RowSource.totalSize_pull h, List.length_nil, Nat.add_zero]
    rfl

/-- A merge that has given some rows and goes on. -/
def IsUnderWay (inputs : List MergeInput) (given : List MergedRow) (m : Merge) : Prop :=
  m = start inputs ∧ given = [] ∨ m.phase = .running ∧ Delivers inputs given m.sources

/-- What the next call of a merge does: one more row is given, or all items were rows and were
given, or a failure among the items ends the merge. -/
inductive NextCase (inputs : List MergeInput) (given : List MergedRow) (m : Merge) : Prop
  | row (x : MergedRow) (left : Merge) : m.next = (some (.ok x), left) → left.phase = .running →
      Delivers inputs (given ++ [x]) left.sources → NextCase inputs given m
  | done (left : Merge) : m.next = (none, left) → left.phase = .done →
      (∀ {group : Nat} {input : MergeInput}, inputs[group]? = some input →
        input.2 = (rowsOfGroup group given).map Except.ok) → NextCase inputs given m
  | failed (failure : ExecutionFailure) (left : Merge) : m.next = (some (.error failure), left) →
      left.phase = .failed → (∃ input ∈ inputs, .error failure ∈ input.2) →
      NextCase inputs given m

/-- Giving the first pending row. -/
theorem nextCase_of_emit {given : List MergedRow} {sources : List RowSource} {m : Merge}
    (hnext : m.next = emit sources) (h : Delivers inputs given sources) :
    NextCase inputs given m := by
  cases hl : firstLead? sources with
  | none =>
    have hemit : emit sources = (none, ⟨sources, .done⟩) := by rw [emit, hl]
    exact .done _ (hnext.trans hemit) rfl fun hinput =>
      h.items_eq_of_pending (pending_of_firstLead?_eq_none hl) hinput
  | some lead =>
    obtain ⟨s, hs, hp⟩ := firstLead?_pending hl
    cases hpull : s.pull.2 with
    | none =>
      have hemit : emit sources = (some (.ok ⟨lead.group, lead.row⟩),
          ⟨sources.set lead.group s.pull.1, .running⟩) := by
        rw [emit, hl]
        simp only [pullAt_eq_set hs, hpull]
      exact .row _ _ (hnext.trans hemit) rfl (h.set_pull hs hp hpull)
    | some failure =>
      -- the pending row of the source is gone together with the failure
      have hemit : emit sources = (some (.error failure),
          ⟨sources.set lead.group s.pull.1, .failed⟩) := by
        rw [emit, hl]
        simp only [pullAt_eq_set hs, hpull]
      exact .failed _ _ (hnext.trans hemit) rfl
        (h.mem_inputs (List.mem_of_getElem? hs) (RowSource.mem_rows_of_pull hpull))

/-- What the next call of a merge under way does. -/
theorem next_cases {given : List MergedRow} {m : Merge} (h : IsUnderWay inputs given m) :
    NextCase inputs given m := by
  rcases h with ⟨rfl, rfl⟩ | ⟨hphase, h⟩
  · rcases pullAll_cases (start inputs).sources with
      ⟨hall, hnone⟩ | ⟨left, failure, s, hall, hs, hfailure⟩
    · have hnext : (start inputs).next =
          emit ((start inputs).sources.map fun s => s.pull.1) := by
        rw [next, show (start inputs).phase = .fresh from rfl]
        simp only [hall]
      exact nextCase_of_emit hnext (delivers_start hnone)
    · have hnext : (start inputs).next = (some (.error failure), ⟨left, .failed⟩) := by
        rw [next, show (start inputs).phase = .fresh from rfl]
        simp only [hall]
      refine .failed failure _ hnext rfl ?_
      obtain ⟨input, hinput, rfl⟩ := List.mem_map.1 hs
      exact ⟨input, hinput, RowSource.mem_rows_of_pull hfailure⟩
  · have hnext : m.next = emit m.sources := by rw [next, hphase]
    exact nextCase_of_emit hnext h

/-! ## A whole run -/

/-- A merge behind a number of calls. -/
def after (m : Merge) : Nat → Merge
  | 0 => m
  | n + 1 => (m.next.2).after n

/-- What a merge gives at the call behind a number of calls. -/
def callAfter (m : Merge) (n : Nat) : Option (Except ExecutionFailure MergedRow) :=
  (m.after n).next.1

/-- A merge that is done or failed has nothing to give and stays as it is. -/
theorem after_of_ended {m : Merge} (h : m.phase = .done ∨ m.phase = .failed) :
    ∀ n, m.after n = m ∧ m.callAfter n = none := by
  have hnext : m.next = (none, m) := by
    rcases h with h | h <;> rw [next, h]
  intro n
  induction n with
  | zero => exact ⟨rfl, by rw [callAfter, after, hnext]⟩
  | succ n ih =>
    obtain ⟨hafter, hcall⟩ := ih
    have hsucc : m.after (n + 1) = m := by rw [after, hnext, hafter]
    exact ⟨hsucc, by rw [callAfter, hsucc, hnext]⟩

/-- The calls of a merge give some rows one by one and then the failure, if there is one; behind
that the merge has ended and gives nothing. -/
structure Gives (m : Merge) (rows : List MergedRow) (failure : Option ExecutionFailure) :
    Prop where
  callAfter_eq : ∀ n,
    m.callAfter n = (rows.map Except.ok ++ failure.toList.map Except.error)[n]?
  phase_eq : ∀ n, rows.length < n →
    (m.after n).phase = if failure.isSome then .failed else .done
  run_eq : m.run = (rows, failure)

/-- A merge whose next call gives nothing more than a failure has ended behind it. -/
theorem gives_nil {m left : Merge} {failure : Option ExecutionFailure}
    (hnext : m.next = (failure.map Except.error, left))
    (hphase : left.phase = if failure.isSome then .failed else .done) :
    m.Gives [] failure := by
  have hended : left.phase = .done ∨ left.phase = .failed := by
    rw [hphase]
    split
    · exact Or.inr rfl
    · exact Or.inl rfl
  -- a merge that has ended stays as it is
  have hafter : ∀ n, m.after (n + 1) = left := by
    intro n
    rw [after, hnext]
    exact (after_of_ended hended n).1
  refine ⟨?_, ?_, ?_⟩
  · intro n
    cases n with
    | zero =>
      rw [callAfter, after, hnext]
      cases failure <;> rfl
    | succ n =>
      have hcall : left.next.1 = none := (after_of_ended hended 0).2
      rw [callAfter, hafter, hcall]
      cases failure <;> rfl
  · intro n hn
    cases n with
    | zero => exact absurd hn (Nat.lt_irrefl 0)
    | succ n => rw [hafter, hphase]
  · cases failure with
    | none => exact run_of_next_none hnext
    | some failure => exact run_of_next_failure hnext

/-- One row in front of what a merge gives. -/
theorem Gives.cons {m left : Merge} {x : MergedRow} {rows : List MergedRow}
    {failure : Option ExecutionFailure} (hnext : m.next = (some (.ok x), left))
    (h : left.Gives rows failure) : m.Gives (x :: rows) failure := by
  refine ⟨?_, ?_, ?_⟩
  · intro n
    cases n with
    | zero =>
      rw [callAfter, after, hnext]
      rfl
    | succ n =>
      rw [callAfter, after, hnext]
      exact h.callAfter_eq n
  · intro n hn
    cases n with
    | zero => exact absurd hn (Nat.not_lt_zero _)
    | succ n =>
      rw [after, hnext]
      exact h.phase_eq n (Nat.lt_of_succ_lt_succ hn)
  · rw [run_of_next_row hnext, h.run_eq]

/-- The rows and the failure of a run are those of the sources. -/
structure IsDelivery (inputs : List MergeInput) (rows : List MergedRow)
    (failure : Option ExecutionFailure) : Prop where
  /-- Every row comes from a source, and those of one source come in its order. -/
  group_lt : ∀ x ∈ rows, x.group < inputs.length
  inOrder : ∀ {group : Nat} {input : MergeInput}, inputs[group]? = some input →
    rowsOfGroup group rows <+: deliveredRows input.2
  /-- Without a failure no item is missing, so all of them are rows. -/
  complete : failure = none → ∀ {group : Nat} {input : MergeInput}, inputs[group]? = some input →
    input.2 = (rowsOfGroup group rows).map Except.ok
  failure_mem : ∀ f, failure = some f → ∃ input ∈ inputs, .error f ∈ input.2

/-- A run ends with a failure exactly if there is one among the items of the sources. -/
theorem IsDelivery.failure_eq_none_iff {rows : List MergedRow} {failure : Option ExecutionFailure}
    (h : IsDelivery inputs rows failure) :
    failure = none ↔ ∀ input ∈ inputs, ∀ f, .error f ∉ input.2 := by
  constructor
  · intro hnone input hinput f hf
    obtain ⟨group, hgroup⟩ := List.mem_iff_getElem?.1 hinput
    rw [h.complete hnone hgroup] at hf
    obtain ⟨row, -, hrow⟩ := List.mem_map.1 hf
    exact nomatch hrow
  · intro hall
    cases hfailure : failure with
    | none => rfl
    | some f =>
      obtain ⟨input, hinput, hf⟩ := h.failure_mem f hfailure
      exact absurd hf (hall input hinput f)

/-- A merge under way that has given some rows gives the others, one call after the other. -/
theorem exists_gives : ∀ {given : List MergedRow} {m : Merge}, IsUnderWay inputs given m →
    ∃ rows failure, m.Gives rows failure ∧ IsDelivery inputs (given ++ rows) failure ∧
      ∀ n, 0 < n → n ≤ rows.length →
        Delivers inputs (given ++ rows.take n) (m.after n).sources := by
  intro given m
  -- by induction on the number of items held, which every row given lowers
  induction hsize : m.size using Nat.strongRecOn generalizing given m with
  | ind size ih =>
    intro h
    have hgroups : ∀ x ∈ given, x.group < inputs.length := by
      rcases h with ⟨-, rfl⟩ | ⟨-, h⟩
      · exact fun x hx => absurd hx List.not_mem_nil
      · exact h.group_lt
    have hinOrder : ∀ {group : Nat} {input : MergeInput}, inputs[group]? = some input →
        rowsOfGroup group given <+: deliveredRows input.2 := by
      intro group input hinput
      rcases h with ⟨-, rfl⟩ | ⟨-, h⟩
      · exact List.nil_prefix
      · exact h.prefix_deliveredRows hinput
    cases next_cases h with
    | done left hnext hphase hall =>
      refine ⟨[], none, gives_nil hnext hphase, ?_, fun n hpos hle => ?_⟩
      · rw [List.append_nil]
        exact ⟨hgroups, hinOrder, fun _ => hall, fun f hf => nomatch hf⟩
      · exact absurd hpos (Nat.not_lt.2 hle)
    | failed failure left hnext hphase hmem =>
      refine ⟨[], some failure, gives_nil hnext hphase, ?_, fun n hpos hle => ?_⟩
      · rw [List.append_nil]
        refine ⟨hgroups, hinOrder, fun hnone => ?_, fun f hf => ?_⟩
        · exact absurd hnone (Option.some_ne_none failure)
        · rw [← Option.some.inj hf]
          exact hmem
      · exact absurd hpos (Nat.not_lt.2 hle)
    | row x left hnext hphase hdelivers =>
      have hless : left.size < size := hsize ▸ size_next_lt hnext
      obtain ⟨rows, failure, hgives, hdelivery, hafter⟩ :=
        ih left.size hless rfl (Or.inr ⟨hphase, hdelivers⟩)
      rw [List.append_assoc, List.singleton_append] at hdelivery
      refine ⟨x :: rows, failure, hgives.cons hnext, hdelivery, fun n hpos hle => ?_⟩
      cases n with
      | zero => exact absurd hpos (Nat.lt_irrefl 0)
      | succ n =>
        rw [after, hnext, List.take_succ_cons]
        cases n with
        | zero => exact hdelivers
        | succ n =>
          have hrest := hafter (n + 1) (Nat.succ_pos n) (by simpa using hle)
          rwa [List.append_assoc, List.singleton_append] at hrest

/-- What a merge of any sources does, call after call. The calls give rows and then at most one
failure, and nothing behind that. The rows of each source come in its order and stop before its
first failure; a failure comes exactly if there is one among the items of the sources, and else
every row is given once and the merge is done. Behind the call that gives row number `n` no more
than `n` items and one for each source were taken. -/
theorem run_delivers (inputs : List MergeInput) :
    ∃ rows failure, (start inputs).run = (rows, failure) ∧
      (∀ n, (start inputs).callAfter n =
        (rows.map Except.ok ++ failure.toList.map Except.error)[n]?) ∧
      (∀ n, rows.length < n → ((start inputs).after n).phase =
        if failure.isSome then .failed else .done) ∧
      (∀ x ∈ rows, x.group < inputs.length) ∧
      (∀ {group : Nat} {input : MergeInput}, inputs[group]? = some input →
        rowsOfGroup group rows <+: deliveredRows input.2) ∧
      (failure = none ↔ ∀ input ∈ inputs, ∀ f, .error f ∉ input.2) ∧
      (failure = none → ∀ {group : Nat} {input : MergeInput}, inputs[group]? = some input →
        input.2 = (rowsOfGroup group rows).map Except.ok) ∧
      ∀ n, 0 < n → n ≤ rows.length →
        (start inputs).untaken ≤ ((start inputs).after n).untaken + (n + inputs.length) := by
  have hstart : IsUnderWay inputs [] (start inputs) := Or.inl ⟨rfl, rfl⟩
  obtain ⟨rows, failure, hgives, hdelivery, hafter⟩ := exists_gives hstart
  rw [List.nil_append] at hdelivery
  refine ⟨rows, failure, hgives.run_eq, hgives.callAfter_eq, hgives.phase_eq, hdelivery.group_lt,
    hdelivery.inOrder, hdelivery.failure_eq_none_iff, hdelivery.complete, ?_⟩
  intro n hpos hle
  -- what was taken is what was given and what is pending
  have h := hafter n hpos hle
  rw [List.nil_append] at h
  have hsize := h.size_eq
  have hpending := RowSource.totalSize_le ((start inputs).after n).sources
  rw [List.length_take, Nat.min_eq_left hle] at hsize
  rw [h.length_eq] at hpending
  rw [← hsize, untaken]
  omega

end Merge

end FeatureStore
