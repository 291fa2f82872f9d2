import FeatureStore.Proofs.Read.CellOrder
import FeatureStore.Read.Merge

/-!
# Runs of a merge

`mergeOrder` is the order in which a merge gives its rows: two rows are compared on the sort cells
that their layouts share, and of equal rows that of the earlier source comes first. Where this is a
total preorder of the rows at hand (`OrdersRows`), the scan for the first pending row finds a least
one (`firstLead?_least`), and a merge of sorted sources that do not fail gives all their rows in
this order (`run_ofRows_pairwise`). Each step takes the least row out of the rows still held and
keeps the sources sorted (`emit_of_ready`); the run follows by induction on the number of rows held.
-/

set_option autoImplicit false

namespace FeatureStore

/-! ## The order of a merge -/

/-- The order of two rows of sources with some layouts: that of their shared sort cells, and for
equal rows that of their sources. -/
def mergeOrder (layouts : List SortLayout) (x y : MergedRow) : Ordering :=
  (compareRows (layouts.getD x.group []) x.row (layouts.getD y.group []) y.row).then
    (compare x.group y.group)

/-- The order of a merge is a total preorder of the rows with some property. -/
structure OrdersRows (layouts : List SortLayout) (P : MergedRow → Prop) : Prop where
  swap : ∀ {x y}, P x → P y → mergeOrder layouts x y = (mergeOrder layouts y x).swap
  trans : ∀ {x y z}, P x → P y → P z → (mergeOrder layouts x y).isLE →
    (mergeOrder layouts y z).isLE → (mergeOrder layouts x z).isLE

/-- A merge order that compares places in some preorder is itself a preorder. -/
theorem OrdersRows.of_places {α : Type} {cmp : α → α → Ordering} [Std.TransCmp cmp]
    {layouts : List SortLayout} {P : MergedRow → Prop} (place : MergedRow → α)
    (h : ∀ {x y}, P x → P y → mergeOrder layouts x y = cmp (place x) (place y)) :
    OrdersRows layouts P where
  swap := by
    intro x y hx hy
    rw [h hx hy, h hy hx]
    exact Std.OrientedCmp.eq_swap
  trans := by
    intro x y z hx hy hz hxy hyz
    rw [h hx hy] at hxy
    rw [h hy hz] at hyz
    rw [h hx hz]
    exact Std.TransCmp.isLE_trans hxy hyz

namespace OrdersRows

variable {layouts : List SortLayout} {P : MergedRow → Prop}

theorem isLE_refl (ho : OrdersRows layouts P) {x : MergedRow} (hx : P x) :
    (mergeOrder layouts x x).isLE := by
  have h := ho.swap hx hx
  cases hc : mergeOrder layouts x x <;> rw [hc] at h <;> simp at h ⊢

/-- Of two rows one comes before the other or is equal to it. -/
theorem isLE_of_not_isLE (ho : OrdersRows layouts P) {x y : MergedRow} (hx : P x) (hy : P y)
    (h : ¬ (mergeOrder layouts x y).isLE) : (mergeOrder layouts y x).isLE := by
  rw [ho.swap hy hx]
  cases hc : mergeOrder layouts x y <;> rw [hc] at h <;> simp at h ⊢

/-- Rows that come before each other are equal. -/
theorem eq_of_isLE (ho : OrdersRows layouts P) {x y : MergedRow} (hx : P x) (hy : P y)
    (hxy : (mergeOrder layouts x y).isLE) (hyx : (mergeOrder layouts y x).isLE) :
    mergeOrder layouts x y = .eq := by
  rw [ho.swap hy hx] at hyx
  cases hc : mergeOrder layouts x y <;> rw [hc] at hxy hyx <;> simp at hxy hyx ⊢

end OrdersRows

/-! ## Rows still held -/

/-- The rows that a source has still to give if it does not fail, the pending one first. -/
def RowSource.remaining (s : RowSource) : List Row :=
  s.pending.toList ++ s.rows.filterMap Except.toOption

/-- The rows that some sources have still to give, with the indexes of their sources; the first
source has the index `group`. -/
def heldFrom (group : Nat) : List RowSource → List MergedRow
  | [] => []
  | s :: rest => s.remaining.map (MergedRow.mk group) ++ heldFrom (group + 1) rest

theorem mem_heldFrom {x : MergedRow} : ∀ {sources : List RowSource} {group : Nat},
    x ∈ heldFrom group sources ↔
      ∃ index s, x.group = group + index ∧ sources[index]? = some s ∧ x.row ∈ s.remaining
  | [], group => by simp [heldFrom]
  | s :: rest, group => by
    rw [heldFrom, List.mem_append, @mem_heldFrom x rest]
    constructor
    · rintro (h | ⟨index, t, hg, ht, hx⟩)
      · obtain ⟨row, hrow, rfl⟩ := List.mem_map.1 h
        exact ⟨0, s, rfl, rfl, hrow⟩
      · exact ⟨index + 1, t, by omega, ht, hx⟩
    · rintro ⟨index, t, hg, ht, hx⟩
      cases index with
      | zero =>
        obtain rfl : s = t := by simpa using ht
        refine Or.inl (List.mem_map.2 ⟨x.row, hx, ?_⟩)
        rw [show group = x.group from hg.symm]
      | succ index => exact Or.inr ⟨index, t, by omega, ht, hx⟩

/-- A source with its pending row taken holds one row less. -/
theorem heldFrom_set_perm {s t : RowSource} {row : Row}
    (h : s.remaining = row :: t.remaining) :
    ∀ {sources : List RowSource} (group : Nat) {index : Nat}, sources[index]? = some s →
      (heldFrom group sources).Perm (⟨group + index, row⟩ :: heldFrom group (sources.set index t))
  | [], _, _, hs => by simp at hs
  | u :: rest, group, 0, hs => by
    obtain rfl : u = s := by simpa using hs
    rw [heldFrom, h, List.set_cons_zero, heldFrom]
    exact List.Perm.refl _
  | u :: rest, group, index + 1, hs => by
    have hs : rest[index]? = some s := by simpa using hs
    have ih := heldFrom_set_perm h (group + 1) hs
    have hshift : group + (index + 1) = group + 1 + index := by omega
    rw [heldFrom, List.set_cons_succ, heldFrom, hshift]
    exact (List.Perm.append_left _ ih).trans List.perm_middle

/-! ## Taking rows -/

/-- Taking a row from the source with an index changes that source alone. -/
theorem pullAt_eq_set {s : RowSource} : ∀ {sources : List RowSource} {index : Nat},
    sources[index]? = some s → pullAt index sources = (sources.set index s.pull.1, s.pull.2)
  | [], _, hs => by simp at hs
  | t :: rest, 0, hs => by
    obtain rfl : t = s := by simpa using hs
    rfl
  | t :: rest, index + 1, hs => by
    have hs : rest[index]? = some s := by simpa using hs
    rw [pullAt, pullAt_eq_set hs, List.set_cons_succ]

/-- The items of a source are rows; none is a failure. -/
def RowSource.IsErrorFree (s : RowSource) : Prop := ∀ item ∈ s.rows, ∃ row, item = .ok row

theorem RowSource.pull_layout (s : RowSource) : s.pull.1.layout = s.layout := by
  rcases s with ⟨layout, rows, pending⟩
  match rows with
  | [] => rfl
  | .ok row :: rest => rfl
  | .error failure :: rest => rfl

/-- A source without failures gives its rows one by one; its pending row is gone. -/
theorem RowSource.pull_of_isErrorFree {s : RowSource} (h : s.IsErrorFree) :
    s.pull.2 = none ∧ s.pull.1.IsErrorFree ∧
      s.pull.1.remaining = s.rows.filterMap Except.toOption ∧
      (s.pull.1.pending = none → s.pull.1.rows = []) := by
  rcases s with ⟨layout, rows, pending⟩
  match rows with
  | [] => exact ⟨rfl, h, rfl, fun _ => rfl⟩
  | .ok row :: rest =>
    refine ⟨rfl, fun item hitem => h item (List.mem_cons_of_mem _ hitem), rfl, ?_⟩
    intro hp
    exact absurd hp (Option.some_ne_none row)
  | .error failure :: rest =>
    obtain ⟨row, hrow⟩ := h (.error failure) List.mem_cons_self
    simp at hrow

/-! ## The first pending row -/

/-- The row of a lead with the index of its source. -/
def Lead.merged (l : Lead) : MergedRow := ⟨l.group, l.row⟩

/-- The pending rows of sources are held by them, and come in the order of the sources. -/
theorem leadsFrom_facts : ∀ (sources : List RowSource) (group : Nat),
    (∀ l ∈ leadsFrom group sources, group ≤ l.group ∧ ∃ s, sources[l.group - group]? = some s ∧
      s.pending = some l.row ∧ s.layout = l.layout) ∧
    (leadsFrom group sources).Pairwise (fun a b => a.group < b.group)
  | [], group => by simp [leadsFrom]
  | s :: rest, group => by
    obtain ⟨hmem, hpair⟩ := leadsFrom_facts rest (group + 1)
    -- behind the first source the numbers of the groups are one higher
    have hrest : ∀ l ∈ leadsFrom (group + 1) rest, group ≤ l.group ∧
        ∃ t, (s :: rest)[l.group - group]? = some t ∧ t.pending = some l.row ∧
          t.layout = l.layout := by
      intro l hl
      obtain ⟨hle, t, ht, hp⟩ := hmem l hl
      refine ⟨by omega, t, ?_, hp⟩
      rw [show l.group - group = (l.group - (group + 1)) + 1 by omega, List.getElem?_cons_succ]
      exact ht
    cases hs : s.pending with
    | none =>
      rw [leadsFrom, hs]
      exact ⟨hrest, hpair⟩
    | some row =>
      rw [leadsFrom, hs]
      refine ⟨?_, List.pairwise_cons.2 ⟨?_, hpair⟩⟩
      · intro l hl
        rcases List.mem_cons.1 hl with rfl | hl
        · exact ⟨Nat.le_refl _, s, by simp, hs, rfl⟩
        · exact hrest l hl
      · intro l hl
        obtain ⟨hle, -⟩ := hmem l hl
        exact Nat.lt_of_succ_le hle

/-- A source with a pending row leads. -/
theorem mem_leadsFrom_of_pending {s : RowSource} {row : Row} :
    ∀ {sources : List RowSource} (group : Nat) {index : Nat}, sources[index]? = some s →
      s.pending = some row → ⟨group + index, s.layout, row⟩ ∈ leadsFrom group sources
  | [], _, _, hs, _ => by simp at hs
  | t :: rest, group, 0, hs, hp => by
    obtain rfl : t = s := by simpa using hs
    rw [leadsFrom, hp]
    exact List.mem_cons_self
  | t :: rest, group, index + 1, hs, hp => by
    have hs : rest[index]? = some s := by simpa using hs
    have ih := mem_leadsFrom_of_pending (group + 1) hs hp
    rw [show group + (index + 1) = group + 1 + index by omega, leadsFrom]
    split
    · exact List.mem_cons_of_mem _ ih
    · exact ih

/-- Without a first pending row no source has one. -/
theorem pending_of_firstLead?_eq_none {sources : List RowSource}
    (h : firstLead? sources = none) : ∀ s ∈ sources, s.pending = none := by
  intro s hs
  obtain ⟨index, hindex⟩ := List.mem_iff_getElem?.1 hs
  refine Option.eq_none_iff_forall_ne_some.2 fun row hrow => ?_
  have hlead := mem_leadsFrom_of_pending 0 hindex hrow
  unfold firstLead? at h
  split at h
  · rename_i hleads
    rw [hleads] at hlead
    exact List.not_mem_nil hlead
  · exact Option.some_ne_none _ h

section Least

variable {layouts : List SortLayout} {P : MergedRow → Prop}

/-- A lead that stands for a row of the sources with some layouts. -/
def Lead.IsOf (layouts : List SortLayout) (P : MergedRow → Prop) (l : Lead) : Prop :=
  P l.merged ∧ l.layout = layouts.getD l.group []

/-- The earlier of two leads comes before both. -/
theorem earlier_isLE (ho : OrdersRows layouts P) {a b : Lead} (ha : a.IsOf layouts P)
    (hb : b.IsOf layouts P) (hab : a.group < b.group) :
    (mergeOrder layouts (earlier a b).merged a.merged).isLE ∧
      (mergeOrder layouts (earlier a b).merged b.merged).isLE := by
  have hcompare : mergeOrder layouts a.merged b.merged =
      (compareRows a.layout a.row b.layout b.row).then .lt := by
    rw [ha.2, hb.2, mergeOrder, show compare a.merged.group b.merged.group = .lt from
      Nat.compare_eq_lt.2 hab]
    rfl
  unfold earlier
  split
  · rename_i hgt
    rw [hgt] at hcompare
    -- the scan leaves the first lead only for one that is strictly before it
    refine ⟨ho.isLE_of_not_isLE ha.1 hb.1 ?_, ho.isLE_refl hb.1⟩
    rw [hcompare]
    simp
  · rename_i hgt
    refine ⟨ho.isLE_refl ha.1, ?_⟩
    rw [hcompare]
    cases hc : compareRows a.layout a.row b.layout b.row with
    | lt => rfl
    | eq => rfl
    | gt => exact absurd hc hgt

/-- The scan over leads in the order of their sources ends with a least one. -/
theorem foldl_earlier_isLE (ho : OrdersRows layouts P) : ∀ (rest : List Lead) (lead : Lead),
    (∀ l ∈ lead :: rest, l.IsOf layouts P) →
      (lead :: rest).Pairwise (fun a b => a.group < b.group) →
      ∀ l ∈ lead :: rest, (mergeOrder layouts (rest.foldl earlier lead).merged l.merged).isLE
  | [], lead, hof, _, l, hl => by
    obtain rfl : l = lead := by simpa using hl
    exact ho.isLE_refl (hof l hl).1
  | other :: rest, lead, hof, hpair, l, hl => by
    have hlead := hof lead List.mem_cons_self
    have hother := hof other (List.mem_cons_of_mem _ List.mem_cons_self)
    rw [List.pairwise_cons] at hpair
    obtain ⟨hfirst, hpair⟩ := hpair
    have hboth := earlier_isLE ho hlead hother (hfirst other List.mem_cons_self)
    have hchoice : earlier lead other = lead ∨ earlier lead other = other := by
      unfold earlier
      split
      · exact Or.inr rfl
      · exact Or.inl rfl
    -- the better of the first two stands in front of the rest, as both of them did
    have hof' : ∀ k ∈ earlier lead other :: rest, k.IsOf layouts P := by
      intro k hk
      rcases List.mem_cons.1 hk with rfl | hk
      · rcases hchoice with h | h <;> rw [h]
        · exact hlead
        · exact hother
      · exact hof k (List.mem_cons_of_mem _ (List.mem_cons_of_mem _ hk))
    have hpair' : (earlier lead other :: rest).Pairwise (fun a b => a.group < b.group) := by
      rw [List.pairwise_cons] at hpair ⊢
      refine ⟨fun k hk => ?_, hpair.2⟩
      rcases hchoice with h | h <;> rw [h]
      · exact hfirst k (List.mem_cons_of_mem _ hk)
      · exact hpair.1 k hk
    have ih := foldl_earlier_isLE ho rest (earlier lead other) hof' hpair'
    have hbest := ih (earlier lead other) List.mem_cons_self
    have hmem := Merge.foldl_earlier_mem rest (earlier lead other)
    rw [List.foldl_cons]
    rcases List.mem_cons.1 hl with rfl | hl
    · exact ho.trans (hof' _ hmem).1 (hof' _ List.mem_cons_self).1 hlead.1 hbest hboth.1
    · rcases List.mem_cons.1 hl with rfl | hl
      · exact ho.trans (hof' _ hmem).1 (hof' _ List.mem_cons_self).1 hother.1 hbest hboth.2
      · exact ih l (List.mem_cons_of_mem _ hl)

end Least

/-! ## One step -/

/-- Sources with some layouts under way: none fails, each has a pending row unless it is exhausted,
and the rows that each has still to give are sorted and of a kind that the merge order orders. -/
structure SourcesReady (layouts : List SortLayout) (P : MergedRow → Prop)
    (sources : List RowSource) : Prop where
  layouts_eq : sources.map RowSource.layout = layouts
  errorFree : ∀ s ∈ sources, s.IsErrorFree
  loaded : ∀ s ∈ sources, s.pending = none → s.rows = []
  sorted : ∀ (group : Nat) (s : RowSource), sources[group]? = some s →
    (s.remaining.map (MergedRow.mk group)).Pairwise (fun x y => (mergeOrder layouts x y).isLE)
  covered : ∀ x ∈ heldFrom 0 sources, P x

namespace SourcesReady

variable {layouts : List SortLayout} {P : MergedRow → Prop} {sources : List RowSource}

theorem layout_at (h : SourcesReady layouts P sources) {group : Nat} {s : RowSource}
    (hs : sources[group]? = some s) : s.layout = layouts.getD group [] := by
  rw [← h.layouts_eq, List.getD_eq_getElem?_getD, List.getElem?_map, hs]
  rfl

theorem isOf (h : SourcesReady layouts P sources) {l : Lead} (hl : l ∈ leadsFrom 0 sources) :
    l.IsOf layouts P := by
  obtain ⟨-, s, hs, hp, hlayout⟩ := (leadsFrom_facts sources 0).1 l hl
  have hs : sources[l.group]? = some s := hs
  refine ⟨h.covered _ (mem_heldFrom.2 ⟨l.group, s, by simp [Lead.merged], hs, ?_⟩), ?_⟩
  · simp [RowSource.remaining, hp, Lead.merged]
  · rw [← hlayout, h.layout_at hs]

/-- Without a pending row nothing is held any more. -/
theorem heldFrom_eq_nil (h : SourcesReady layouts P sources)
    (hnone : ∀ s ∈ sources, s.pending = none) : heldFrom 0 sources = [] := by
  refine List.eq_nil_iff_forall_not_mem.2 fun x hx => ?_
  obtain ⟨index, s, -, hs, hrow⟩ := mem_heldFrom.1 hx
  have hmem := List.mem_of_getElem? hs
  rw [RowSource.remaining, hnone s hmem, h.loaded s hmem (hnone s hmem)] at hrow
  simp at hrow

/-- The first pending row comes before every row that is held. -/
theorem firstLead?_least (ho : OrdersRows layouts P) (h : SourcesReady layouts P sources)
    {lead : Lead} (hlead : firstLead? sources = some lead) :
    ∀ x ∈ heldFrom 0 sources, (mergeOrder layouts lead.merged x).isLE := by
  intro x hx
  obtain ⟨index, s, hg, hs, hrow⟩ := mem_heldFrom.1 hx
  have hg : x.group = index := by omega
  have hpx : P x := h.covered x hx
  cases hp : s.pending with
  | none =>
    rw [RowSource.remaining, hp, h.loaded s (List.mem_of_getElem? hs) hp] at hrow
    simp at hrow
  | some row =>
    have hfirst := mem_leadsFrom_of_pending 0 hs hp
    have hof := h.isOf hfirst
    -- the pending row of its source comes before `x`, and the lead before that
    have hsource : (mergeOrder layouts (Lead.merged ⟨0 + index, s.layout, row⟩) x).isLE := by
      have hsorted := h.sorted index s hs
      rw [RowSource.remaining, hp] at hrow hsorted
      rcases List.mem_cons.1 hrow with hr | hr
      · have hxeq : x = Lead.merged ⟨0 + index, s.layout, row⟩ := by
          rw [Lead.merged, ← hr, Nat.zero_add, ← hg]
        rw [← hxeq]
        exact ho.isLE_refl hpx
      · have hall := (List.pairwise_cons.1 hsorted).1 x
          (List.mem_map.2 ⟨x.row, hr, by rw [← hg]⟩)
        rw [Lead.merged, Nat.zero_add]
        exact hall
    obtain ⟨first, rest, hleads, rfl⟩ := Merge.firstLead?_eq_some hlead
    have hofall : ∀ l ∈ first :: rest, l.IsOf layouts P := fun l hl => h.isOf (hleads ▸ hl)
    have hpair := (leadsFrom_facts sources 0).2
    rw [hleads] at hpair hfirst
    have hle := foldl_earlier_isLE ho rest first hofall hpair _ hfirst
    exact ho.trans (hofall _ (Merge.foldl_earlier_mem rest first)).1 hof.1 hpx hle hsource

/-- Sources whose first row is taken stay ready. -/
theorem set_pull (h : SourcesReady layouts P sources) {group : Nat} {s : RowSource} {row : Row}
    (hs : sources[group]? = some s) (hp : s.pending = some row) :
    s.remaining = row :: s.pull.1.remaining ∧
      SourcesReady layouts P (sources.set group s.pull.1) := by
  have hmem := List.mem_of_getElem? hs
  obtain ⟨-, hfree, hremaining, hloaded⟩ := RowSource.pull_of_isErrorFree (h.errorFree s hmem)
  have hhead : s.remaining = row :: s.pull.1.remaining := by
    rw [hremaining, RowSource.remaining, hp]
    rfl
  have hperm := heldFrom_set_perm hhead 0 hs
  refine ⟨hhead, ⟨?_, ?_, ?_, ?_, ?_⟩⟩
  · -- the layouts stay where they are
    rw [← h.layouts_eq, List.map_set, RowSource.pull_layout]
    refine List.ext_getElem? fun index => ?_
    rw [List.getElem?_set]
    split
    · rename_i hindex
      subst hindex
      rw [List.getElem?_map, hs, List.length_map, if_pos (List.getElem?_eq_some_iff.1 hs).1]
      rfl
    · rfl
  · intro t ht
    rcases List.mem_or_eq_of_mem_set ht with ht | rfl
    · exact h.errorFree t ht
    · exact hfree
  · intro t ht
    rcases List.mem_or_eq_of_mem_set ht with ht | rfl
    · exact h.loaded t ht
    · exact hloaded
  · intro index t ht
    -- what a sorted source holds behind its first row is sorted as well
    by_cases hi : group = index
    · subst hi
      rw [List.getElem?_set_self (List.getElem?_eq_some_iff.1 hs).1] at ht
      obtain rfl := Option.some.inj ht
      have hsorted := h.sorted group s hs
      rw [hhead] at hsorted
      exact (List.pairwise_cons.1 hsorted).2
    · rw [List.getElem?_set_ne hi] at ht
      exact h.sorted index t ht
  · intro x hx
    exact h.covered x (hperm.mem_iff.2 (List.mem_cons_of_mem _ hx))

end SourcesReady

namespace Merge

variable {layouts : List SortLayout} {P : MergedRow → Prop} {sources : List RowSource}

/-- What one step of a merge of ready sources does: nothing is held and the merge is done, or a
least row is given and the sources stay ready with the other rows. -/
theorem emit_of_ready (ho : OrdersRows layouts P) (h : SourcesReady layouts P sources) :
    (heldFrom 0 sources = [] ∧ emit sources = (none, ⟨sources, .done⟩)) ∨
      ∃ row left, emit sources = (some (.ok row), ⟨left, .running⟩) ∧
        SourcesReady layouts P left ∧ (heldFrom 0 sources).Perm (row :: heldFrom 0 left) ∧
        ∀ x ∈ heldFrom 0 sources, (mergeOrder layouts row x).isLE := by
  cases hl : firstLead? sources with
  | none =>
    exact Or.inl ⟨h.heldFrom_eq_nil (pending_of_firstLead?_eq_none hl), by rw [emit, hl]⟩
  | some lead =>
    obtain ⟨s, hs, hp⟩ := firstLead?_pending hl
    obtain ⟨hhead, hready⟩ := h.set_pull hs hp
    obtain ⟨hnone, -⟩ := RowSource.pull_of_isErrorFree (h.errorFree s (List.mem_of_getElem? hs))
    refine Or.inr ⟨lead.merged, sources.set lead.group s.pull.1, ?_, hready, ?_,
      h.firstLead?_least ho hl⟩
    · rw [emit, hl]
      simp only [pullAt_eq_set hs, hnone]
      rfl
    · have hperm := heldFrom_set_perm hhead 0 hs
      rw [Nat.zero_add] at hperm
      exact hperm

/-! ## A whole run -/

/-- A merge without a next row gives nothing. -/
theorem run_of_next_none {m left : Merge} (h : m.next = (none, left)) : m.run = ([], none) := by
  rw [run]
  split <;> rename_i heq <;> rw [h] at heq <;> simp at heq ⊢

/-- A merge gives its next row and then what the merge behind it gives. -/
theorem run_of_next_row {m left : Merge} {row : MergedRow}
    (h : m.next = (some (.ok row), left)) : m.run = (row :: left.run.1, left.run.2) := by
  rw [run]
  split <;> rename_i heq <;> rw [h] at heq
  · simp at heq
  · simp at heq
  · obtain ⟨h1, rfl⟩ := Prod.mk.inj heq
    obtain rfl : row = _ := by simpa using h1
    rfl

/-- A merge ends with the failure of its next step. -/
theorem run_of_next_failure {m left : Merge} {failure : ExecutionFailure}
    (h : m.next = (some (.error failure), left)) : m.run = ([], some failure) := by
  rw [run]
  split <;> rename_i heq <;> rw [h] at heq
  · simp at heq
  · obtain ⟨h1, -⟩ := Prod.mk.inj heq
    obtain rfl : failure = _ := by simpa using h1
    rfl
  · simp at heq

/-- Merges that go on in the same way run in the same way. -/
theorem run_congr {m n : Merge} (h : m.next = n.next) : m.run = n.run := by
  cases hn : n.next with
  | mk item left =>
    rw [hn] at h
    match item with
    | none => rw [run_of_next_none h, run_of_next_none hn]
    | some (.ok row) => rw [run_of_next_row h, run_of_next_row hn]
    | some (.error failure) => rw [run_of_next_failure h, run_of_next_failure hn]

/-- A merge under way gives all rows that its sources hold, in order. -/
theorem run_running_pairwise (ho : OrdersRows layouts P) :
    ∀ (n : Nat) (sources : List RowSource), (heldFrom 0 sources).length = n →
      SourcesReady layouts P sources →
      ∃ rows, (⟨sources, .running⟩ : Merge).run = (rows, none) ∧
        rows.Pairwise (fun x y => (mergeOrder layouts x y).isLE) ∧
        rows.Perm (heldFrom 0 sources) := by
  -- by induction on the number of rows held, which every step lowers
  intro n
  induction n with
  | zero =>
    intro sources hn h
    have hnil := List.eq_nil_of_length_eq_zero hn
    rcases emit_of_ready ho h with ⟨-, hemit⟩ | ⟨row, left, -, -, hperm, -⟩
    · exact ⟨[], run_of_next_none hemit, List.Pairwise.nil, by rw [hnil]⟩
    · rw [hnil] at hperm
      exact absurd hperm.length_eq (by simp)
  | succ n ih =>
    intro sources hn h
    rcases emit_of_ready ho h with ⟨hnil, -⟩ | ⟨row, left, hemit, hready, hperm, hleast⟩
    · rw [hnil] at hn
      simp at hn
    · have hlength : (heldFrom 0 left).length = n := by
        have := hperm.length_eq
        rw [hn, List.length_cons] at this
        omega
      obtain ⟨rows, hrun, hpair, hrows⟩ := ih left hlength hready
      have hnext : (⟨sources, .running⟩ : Merge).next = (some (.ok row), ⟨left, .running⟩) := hemit
      refine ⟨row :: rows, ?_, List.pairwise_cons.2 ⟨fun x hx => ?_, hpair⟩, ?_⟩
      · rw [run_of_next_row hnext, hrun]
      · exact hleast x (hperm.mem_iff.2 (List.mem_cons_of_mem _ (hrows.mem_iff.1 hx)))
      · exact (List.Perm.cons row hrows).trans hperm.symm

/-! ## The beginning -/

/-- Taking a first row from every source that does not fail. -/
theorem pullAll_of_isErrorFree : ∀ {sources : List RowSource},
    (∀ s ∈ sources, s.IsErrorFree) →
      pullAll sources = (sources.map fun s => s.pull.1, none)
  | [], _ => rfl
  | s :: rest, h => by
    have hs := (RowSource.pull_of_isErrorFree (h s List.mem_cons_self)).1
    have hrest := pullAll_of_isErrorFree fun t ht => h t (List.mem_cons_of_mem _ ht)
    rw [pullAll, List.map_cons]
    split
    · rename_i taken failure hp
      rw [hp] at hs
      simp at hs
    · rename_i taken hp
      rw [hp, hrest]

/-- Rows with the index of their source; the first list has the index `group`. -/
def taggedFrom (group : Nat) : List (List Row) → List MergedRow
  | [] => []
  | rows :: rest => rows.map (MergedRow.mk group) ++ taggedFrom (group + 1) rest

/-- A merge that has not begun, of sources that give some rows and do not fail. -/
def ofRows (inputs : List (SortLayout × List Row)) : Merge :=
  start (inputs.map fun input => (input.1, input.2.map Except.ok))

/-- The sources of a merge with their first rows taken. -/
def loaded (inputs : List (SortLayout × List Row)) : List RowSource :=
  inputs.map fun input => (RowSource.start input.1 (input.2.map Except.ok)).pull.1

theorem isErrorFree_start (layout : SortLayout) (rows : List Row) :
    (RowSource.start layout (rows.map Except.ok)).IsErrorFree := by
  intro item hitem
  obtain ⟨row, -, rfl⟩ := List.mem_map.1 hitem
  exact ⟨row, rfl⟩

theorem remaining_start (layout : SortLayout) (rows : List Row) :
    (RowSource.start layout (rows.map Except.ok)).pull.1.remaining = rows := by
  obtain ⟨-, -, hremaining, -⟩ := RowSource.pull_of_isErrorFree (isErrorFree_start layout rows)
  rw [hremaining]
  show (rows.map Except.ok).filterMap Except.toOption = rows
  rw [List.filterMap_map]
  exact List.filterMap_some

theorem heldFrom_loaded (group : Nat) (inputs : List (SortLayout × List Row)) :
    heldFrom group (loaded inputs) = taggedFrom group (inputs.map Prod.snd) := by
  induction inputs generalizing group with
  | nil => rfl
  | cons input rest ih =>
    rw [loaded, List.map_cons, heldFrom, remaining_start, List.map_cons, taggedFrom]
    exact congrArg _ (ih (group + 1))

/-- A merge begins with a row of every source. -/
theorem next_ofRows (inputs : List (SortLayout × List Row)) :
    (ofRows inputs).next = emit (loaded inputs) := by
  have hfree : ∀ s ∈ inputs.map fun input => RowSource.start input.1 (input.2.map Except.ok),
      s.IsErrorFree := by
    intro s hs
    obtain ⟨input, -, rfl⟩ := List.mem_map.1 hs
    exact isErrorFree_start _ _
  have hpull := pullAll_of_isErrorFree hfree
  rw [ofRows, start, next, List.map_map]
  simp only [Function.comp_def]
  rw [hpull, List.map_map]
  rfl

/-- A merge that has not begun runs as it does behind its beginning. -/
theorem run_ofRows (inputs : List (SortLayout × List Row)) :
    (ofRows inputs).run = (⟨loaded inputs, .running⟩ : Merge).run :=
  run_congr (next_ofRows inputs)

/-- A merge of sorted sources that do not fail gives all their rows in the order of the merge. -/
theorem run_ofRows_pairwise {inputs : List (SortLayout × List Row)}
    (ho : OrdersRows (inputs.map Prod.fst) P)
    (hsorted : ∀ (group : Nat) (input : SortLayout × List Row), inputs[group]? = some input →
      (input.2.map (MergedRow.mk group)).Pairwise
        (fun x y => (mergeOrder (inputs.map Prod.fst) x y).isLE))
    (hcovered : ∀ x ∈ taggedFrom 0 (inputs.map Prod.snd), P x) :
    ∃ rows, (ofRows inputs).run = (rows, none) ∧
      rows.Pairwise (fun x y => (mergeOrder (inputs.map Prod.fst) x y).isLE) ∧
      rows.Perm (taggedFrom 0 (inputs.map Prod.snd)) := by
  have hready : SourcesReady (inputs.map Prod.fst) P (loaded inputs) := by
    refine ⟨?_, ?_, ?_, ?_, ?_⟩
    · rw [loaded, List.map_map]
      exact List.map_congr_left fun input _ => RowSource.pull_layout _
    · intro s hs
      obtain ⟨input, -, rfl⟩ := List.mem_map.1 hs
      exact (RowSource.pull_of_isErrorFree (isErrorFree_start _ _)).2.1
    · intro s hs
      obtain ⟨input, -, rfl⟩ := List.mem_map.1 hs
      exact (RowSource.pull_of_isErrorFree (isErrorFree_start _ _)).2.2.2
    · intro group s hs
      rw [loaded, List.getElem?_map, Option.map_eq_some_iff] at hs
      obtain ⟨input, hinput, rfl⟩ := hs
      rw [remaining_start]
      exact hsorted group input hinput
    · rw [heldFrom_loaded]
      exact hcovered
  rw [run_ofRows, ← heldFrom_loaded]
  exact run_running_pairwise ho _ (loaded inputs) rfl hready

end Merge

end FeatureStore
