import FeatureStore.Proofs.Read.Places

/-!
# The order of merged rows

What a merge of all join groups of a derived tree gives when each group is sorted by its own sort
cells: the rows never step back on the sort cells that two of them share, rows of one table with
equal keys down to it stand together, and a row comes before the rows below it (`merged_inOrder`).
All three are read off the places of rows. A merge gives its rows in the order of their places, an
earlier place is none that steps back on the cells shared, equal keys down to a table are an equal
front of places, and the place of a row is the front of the places of all rows below it.
-/

set_option autoImplicit false

namespace FeatureStore

namespace Reconstruction

/-- The tables from the root down to that of a merged row. -/
def chainOf (r : Reconstruction) (x : MergedRow) : List Nat :=
  ((r.groups[x.group]?).map GroupLayout.chain).getD []

/-- The order of two merged rows on the sort cells that their layouts share. -/
def compareMerged (r : Reconstruction) (x y : MergedRow) : Ordering :=
  compareRows (r.layouts.getD x.group []) x.row (r.layouts.getD y.group []) y.row

/-- The rows of all groups are in order. -/
structure InOrder (r : Reconstruction) (rows : List MergedRow) : Prop where
  /-- No row comes before an earlier one, and of equal rows that of the group declared first
  does. -/
  sorted : ∀ {i j : Nat} {x y : MergedRow}, i < j → rows[i]? = some x → rows[j]? = some y →
    r.compareMerged x y ≠ .gt ∧ (r.compareMerged x y = .eq → x.group ≤ y.group)
  /-- Between two rows whose chains run through a table, with equal keys of the reader and equal sort
  keys down to that table, there are only rows of that kind. -/
  contiguous : ∀ {table i j k : Nat} {x y z : MergedRow}, i < j → j < k → rows[i]? = some x →
    rows[j]? = some y → rows[k]? = some z → table ∈ r.chainOf x → table ∈ r.chainOf z →
    AgreeOn (r.readerKeys + (r.multiplicities.arena.chain table).length) x.row z.row →
    table ∈ r.chainOf y ∧
      AgreeOn (r.readerKeys + (r.multiplicities.arena.chain table).length) x.row y.row
  /-- A row of an ancestor comes before the rows below it, which repeat all its sort cells. -/
  ancestorFirst : ∀ {i j : Nat} {x y : MergedRow}, rows[i]? = some x → rows[j]? = some y →
    r.chainOf x <+: r.chainOf y → r.chainOf x ≠ r.chainOf y →
    AgreeOn (r.readerKeys + (r.chainOf x).length) x.row y.row → i < j

end Reconstruction

/-- The rows of a source have sort cells where its layout asks for them, and are sorted by them. -/
def IsSortedInput (input : SortLayout × List Row) : Prop :=
  (∀ row ∈ input.2, HasSortCells input.1.length row) ∧
    input.2.Pairwise fun x y => compareRows input.1 x input.1 y ≠ .gt

instance (input : SortLayout × List Row) : Decidable (IsSortedInput input) :=
  inferInstanceAs (Decidable (_ ∧ _))

namespace Merge

/-- A row with an index comes from the source with that index. -/
theorem mem_taggedFrom {x : MergedRow} : ∀ {streams : List (List Row)} {group : Nat},
    x ∈ taggedFrom group streams ↔
      ∃ index rows, x.group = group + index ∧ streams[index]? = some rows ∧ x.row ∈ rows
  | [], group => by simp [taggedFrom]
  | rows :: rest, group => by
    rw [taggedFrom, List.mem_append, @mem_taggedFrom x rest]
    constructor
    · rintro (h | ⟨index, more, hg, hmore, hx⟩)
      · obtain ⟨row, hrow, rfl⟩ := List.mem_map.1 h
        exact ⟨0, rows, rfl, rfl, hrow⟩
      · exact ⟨index + 1, more, by omega, hmore, hx⟩
    · rintro ⟨index, more, hg, hmore, hx⟩
      cases index with
      | zero =>
        obtain rfl : rows = more := by simpa using hmore
        exact Or.inl (List.mem_map.2 ⟨x.row, hx, by rw [show group = x.group from hg.symm]⟩)
      | succ index => exact Or.inr ⟨index, more, by omega, hmore, hx⟩

end Merge

section Places

variable {tree : TableTree} {flags : List Bool}

theorem length_chainLayout_sort (flags : List Bool) (chain : List (Nat × Table)) :
    (chainLayout flags chain).sort.length = flags.length + chain.length := by
  rw [← columns_sortColumns, List.length_map, length_sortColumns]

/-- The rows of sorted inputs with the layouts of a tree have places. -/
theorem isPlaced_of_mem_taggedFrom {inputs : List (SortLayout × List Row)}
    (hlayouts : inputs.map Prod.fst = sortLayouts tree flags)
    (hinputs : ∀ input ∈ inputs, IsSortedInput input) {x : MergedRow}
    (hx : x ∈ Merge.taggedFrom 0 (inputs.map Prod.snd)) : IsPlaced tree flags x := by
  obtain ⟨index, rows, hg, hrows, hrow⟩ := Merge.mem_taggedFrom.1 hx
  rw [Nat.zero_add] at hg
  subst hg
  rw [List.getElem?_map, Option.map_eq_some_iff] at hrows
  obtain ⟨input, hinput, rfl⟩ := hrows
  have hlayout : (sortLayouts tree flags)[x.group]? = some input.1 := by
    rw [← hlayouts, List.getElem?_map, hinput]
    rfl
  rw [sortLayouts, List.getElem?_map, Option.map_eq_some_iff] at hlayout
  obtain ⟨chain, hchain, hsort⟩ := hlayout
  refine ⟨chain, hchain, ?_⟩
  rw [← length_chainLayout_sort, hsort]
  exact (hinputs input (List.mem_of_getElem? hinput)).1 x.row hrow

/-- An input sorted by its layout is sorted in the order of the merge. -/
theorem pairwise_mergeOrder_of_isSortedInput {layouts : List SortLayout} {group : Nat}
    {input : SortLayout × List Row} (hlayout : layouts.getD group [] = input.1)
    (h : IsSortedInput input) :
    (input.2.map (MergedRow.mk group)).Pairwise
      (fun x y => (mergeOrder layouts x y).isLE) := by
  rw [List.pairwise_map]
  refine h.2.imp fun {x y} hxy => ?_
  show ((compareRows (layouts.getD group []) x (layouts.getD group []) y).then
    (compare group group)).isLE
  rw [hlayout, @Std.ReflCmp.compare_self _ compare, Ordering.then_eq]
  exact Ordering.isLE_iff_ne_gt.2 hxy

/-- A merge of sorted inputs with the layouts of a derived tree gives all rows in the order of the
merge. -/
theorem run_of_isSortedInput (htree : tree.IsDerived) {inputs : List (SortLayout × List Row)}
    (hlayouts : inputs.map Prod.fst = sortLayouts tree flags)
    (hinputs : ∀ input ∈ inputs, IsSortedInput input) :
    ∃ rows, (Merge.ofRows inputs).run = (rows, none) ∧
      rows.Pairwise (fun x y => (mergeOrder (sortLayouts tree flags) x y).isLE) ∧
      rows.Perm (Merge.taggedFrom 0 (inputs.map Prod.snd)) := by
  rw [← hlayouts]
  refine Merge.run_ofRows_pairwise (P := IsPlaced tree flags) ?_ (fun group input hinput => ?_)
    fun x hx => isPlaced_of_mem_taggedFrom hlayouts hinputs hx
  · rw [hlayouts]
    exact ordersRows_of_isPlaced htree
  · refine pairwise_mergeOrder_of_isSortedInput ?_ (hinputs input (List.mem_of_getElem? hinput))
    rw [List.getD_eq_getElem?_getD, List.getElem?_map, hinput]
    rfl

theorem chainOf_initial {plan : ReadPlan} (x : MergedRow) :
    (initial plan flags).chainOf x = groupChain plan.storage.tree x := by
  rw [Reconstruction.chainOf, initial, List.getElem?_map, groupChain]
  cases plan.storage.tree.readChains[x.group]? <;> rfl

theorem layouts_initial (plan : ReadPlan) :
    (initial plan flags).layouts = sortLayouts plan.storage.tree flags := by
  rw [Reconstruction.layouts, initial, List.map_map]
  rfl

/-- The chain of a table that a row's chain runs through begins the chain of the row. -/
theorem chain_prefix_of_mem {x : MergedRow} {table : Nat} (hx : IsPlaced tree flags x)
    (h : table ∈ groupChain tree x) :
    (Arena.ofTree tree).chain table <+: groupChain tree x ∧
      table ∈ (Arena.ofTree tree).chain table := by
  obtain ⟨chain, hchain, -⟩ := hx
  have hmem : chain ∈ tree.numberedChains :=
    (List.mem_filter.1 (List.mem_of_getElem? hchain)).1
  rw [groupChain_eq hchain, TableTree.ids_eq_chain hmem] at h ⊢
  exact ⟨Arena.chain_prefix_of_mem h, Arena.mem_chain_self _ _⟩

/-- The front of a place that belongs to some first tables of the row's chain. -/
theorem take_place {x : MergedRow} {ids : List Nat} (h : ids <+: groupChain tree x) :
    (place tree flags x).take (flags.length + ids.length) =
      placeOf (placeKeys flags ids) x.row := by
  obtain ⟨rest, hrest⟩ := h
  rw [place, take_placeOf, ← hrest, placeKeys, placeKeys, List.map_append, ← List.append_assoc,
    List.take_left' (by simp)]

/-- A place whose front belongs to some tables is that of a row whose chain begins with them. -/
theorem prefix_of_take_place {x : MergedRow} {row : Row} {ids : List Nat}
    (h : (place tree flags x).take (flags.length + ids.length) =
      placeOf (placeKeys flags ids) row) : ids <+: groupChain tree x := by
  have htables := congrArg (List.map PlaceKey.table) h
  rw [List.map_take, place, table_placeOf, table_placeOf, placeKeys, placeKeys, List.map_append,
    List.map_append, List.take_append, List.map_map, List.map_map, List.map_map] at htables
  obtain ⟨-, hids⟩ := List.append_inj' htables (by
    have := congrArg List.length htables
    simp at this ⊢
    omega)
  simp only [List.length_map, Nat.add_sub_cancel_left] at hids
  rw [show (Prod.snd ∘ fun id : Nat => (false, id)) = id from rfl, List.map_id, List.map_id] at hids
  rw [← hids]
  exact List.take_prefix _ _

theorem length_placeKeys (flags : List Bool) (ids : List Nat) :
    (placeKeys flags ids).length = flags.length + ids.length := by
  rw [placeKeys, List.length_append, List.length_map, List.length_map]

/-- The cells of a row for some first tables of its chain are sort cells. -/
theorem hasSortCells_of_isPlaced {x : MergedRow} {ids : List Nat} (hx : IsPlaced tree flags x)
    (hids : ids <+: groupChain tree x) : HasSortCells (placeKeys flags ids).length x.row := by
  obtain ⟨chain, hchain, hcells⟩ := hx
  refine hcells.mono ?_
  have hle := hids.length_le
  rw [groupChain_eq hchain, List.length_map] at hle
  rw [length_placeKeys]
  omega

/-- Rows whose chains share some first tables agree down to these tables exactly if their places
have the same front. -/
theorem agreeOn_iff_take_place {x y : MergedRow} {ids : List Nat} (hx : IsPlaced tree flags x)
    (hy : IsPlaced tree flags y) (hidsx : ids <+: groupChain tree x)
    (hidsy : ids <+: groupChain tree y) :
    AgreeOn (flags.length + ids.length) x.row y.row ↔
      (place tree flags x).take (flags.length + ids.length) =
        (place tree flags y).take (flags.length + ids.length) := by
  rw [take_place hidsx, take_place hidsy, placeOf_eq_iff (hasSortCells_of_isPlaced hx hidsx)
    (hasSortCells_of_isPlaced hy hidsy), length_placeKeys]

/-- A row between two rows that share some first tables and agree down to them is of that kind. -/
theorem agreeOn_of_between {x y z : MergedRow} {ids : List Nat} (hx : IsPlaced tree flags x)
    (hy : IsPlaced tree flags y) (hz : IsPlaced tree flags z)
    (hidsx : ids <+: groupChain tree x) (hidsz : ids <+: groupChain tree z)
    (hxy : (List.compareLex PlaceKey.order (place tree flags x) (place tree flags y)).isLE)
    (hyz : (List.compareLex PlaceKey.order (place tree flags y) (place tree flags z)).isLE)
    (h : AgreeOn (flags.length + ids.length) x.row z.row) :
    ids <+: groupChain tree y ∧ AgreeOn (flags.length + ids.length) x.row y.row := by
  have hfront := take_eq_of_between hxy hyz ((agreeOn_iff_take_place hx hz hidsx hidsz).1 h)
  have hidsy : ids <+: groupChain tree y := prefix_of_take_place (hfront.trans (take_place hidsx))
  exact ⟨hidsy, (agreeOn_iff_take_place hx hy hidsx hidsy).2 hfront.symm⟩

/-- The place of a row comes before the places of the rows below it, which go on behind it. -/
theorem place_lt_of_descendant {x y : MergedRow} (hx : IsPlaced tree flags x)
    (hy : IsPlaced tree flags y) (hbegins : groupChain tree x <+: groupChain tree y)
    (hne : groupChain tree x ≠ groupChain tree y)
    (h : AgreeOn (flags.length + (groupChain tree x).length) x.row y.row) :
    List.compareLex PlaceKey.order (place tree flags x) (place tree flags y) = .lt := by
  have hlength : ∀ z : MergedRow, (place tree flags z).length =
      flags.length + (groupChain tree z).length := by
    intro z
    rw [place, length_placeOf, length_placeKeys]
  have hfront := (agreeOn_iff_take_place hx hy List.prefix_rfl hbegins).1 h
  rw [← hlength x, List.take_length] at hfront
  rw [← List.take_append_drop (place tree flags x).length (place tree flags y), ← hfront]
  -- what is left of the longer place is not empty, since the chains differ
  cases hdrop : (place tree flags y).drop (place tree flags x).length with
  | nil =>
    have hle := List.drop_eq_nil_iff.1 hdrop
    rw [hlength, hlength] at hle
    exact absurd (hbegins.eq_of_length_le (by omega)) hne
  | cons key keys =>
    have hcancel := @compareLex_append_left _ PlaceKey.order _ (place tree flags x) []
      (key :: keys)
    rw [List.append_nil] at hcancel
    rw [hcancel, List.compareLex_nil_cons]

/-- Rows that come in the order of their places are in order. -/
theorem inOrder_of_pairwise {plan : ReadPlan} (htree : plan.storage.tree.IsDerived)
    {rows : List MergedRow} (hplaced : ∀ x ∈ rows, IsPlaced plan.storage.tree flags x)
    (hpair : rows.Pairwise fun x y =>
      (mergeOrder (sortLayouts plan.storage.tree flags) x y).isLE) :
    (initial plan flags).InOrder rows := by
  have hat : ∀ {i : Nat} {x : MergedRow}, rows[i]? = some x →
      IsPlaced plan.storage.tree flags x := fun hx => hplaced _ (List.mem_of_getElem? hx)
  have hle : ∀ {i j : Nat} {x y : MergedRow}, i < j → rows[i]? = some x → rows[j]? = some y →
      (mergeOrder (sortLayouts plan.storage.tree flags) x y).isLE := by
    intro i j x y hij hx hy
    obtain ⟨hi, rfl⟩ := List.getElem?_eq_some_iff.1 hx
    obtain ⟨hj, rfl⟩ := List.getElem?_eq_some_iff.1 hy
    exact List.pairwise_iff_getElem.1 hpair i j hi hj hij
  have hplace : ∀ {i j : Nat} {x y : MergedRow}, i < j → rows[i]? = some x → rows[j]? = some y →
      (List.compareLex PlaceKey.order (place plan.storage.tree flags x)
        (place plan.storage.tree flags y)).isLE := by
    intro i j x y hij hx hy
    rw [← mergeOrder_eq_order htree (hat hx) (hat hy)]
    exact hle hij hx hy
  refine ⟨?_, ?_, ?_⟩
  · -- the order of the merge breaks ties by the group
    intro i j x y hij hx hy
    have hxy := hle hij hx hy
    rw [mergeOrder, Ordering.isLE_then_iff_or] at hxy
    rw [Reconstruction.compareMerged, layouts_initial]
    rcases hxy with hlt | ⟨heq, hgroup⟩
    · rw [hlt]
      exact ⟨by simp, fun h => by simp at h⟩
    · rw [heq]
      exact ⟨by simp, fun _ => Nat.isLE_compare.1 hgroup⟩
  · -- rows that share the front of their places have no other rows between them
    intro table i j k x y z hij hjk hx hy hz htx htz hagree
    rw [chainOf_initial] at htx htz ⊢
    obtain ⟨hidsx, hself⟩ := chain_prefix_of_mem (hat hx) htx
    obtain ⟨hidsz, -⟩ := chain_prefix_of_mem (hat hz) htz
    obtain ⟨hidsy, hxy⟩ := agreeOn_of_between (hat hx) (hat hy) (hat hz) hidsx hidsz
      (hplace hij hx hy) (hplace hjk hy hz) hagree
    exact ⟨hidsy.subset hself, hxy⟩
  · -- were the row of the ancestor later, it would not have the smaller place
    intro i j x y hx hy hbegins hne hagree
    rw [chainOf_initial, chainOf_initial] at hbegins hne
    rw [chainOf_initial] at hagree
    have hlt := place_lt_of_descendant (hat hx) (hat hy) hbegins hne hagree
    by_contra hij
    rcases Nat.lt_or_eq_of_le (Nat.not_lt.1 hij) with hji | rfl
    · have hge := hplace hji hy hx
      rw [@Std.OrientedCmp.eq_swap _ (List.compareLex PlaceKey.order), hlt] at hge
      simp at hge
    · rw [hx] at hy
      exact hne (by rw [Option.some.inj hy])

end Places

/-- A merge of the join groups of a derived tree, in any directions of the reader's keys, gives the
rows of all groups in order if the rows of each group are sorted. -/
theorem merged_inOrder {name : String} {s : Storage} {counted : Bool} {plan : ReadPlan}
    (htree : s.tree.IsDerived) (hplan : ReadPlan.ofStorage name s counted = .ok plan)
    (flags : List Bool) :
    ∃ r, Reconstruction.start plan flags = .ok r ∧
      ∀ inputs : List (SortLayout × List Row), inputs.map Prod.fst = r.layouts →
        (∀ input ∈ inputs, IsSortedInput input) →
        ∃ rows, (Merge.ofRows inputs).run = (rows, none) ∧
          rows.Perm (Merge.taggedFrom 0 (inputs.map Prod.snd)) ∧ r.InOrder rows := by
  obtain ⟨rfl, -, hstart⟩ := start_ofStorage htree hplan flags
  refine ⟨initial plan flags, hstart, fun inputs hlayouts hinputs => ?_⟩
  rw [layouts_initial] at hlayouts
  obtain ⟨rows, hrun, hpair, hperm⟩ := run_of_isSortedInput htree hlayouts hinputs
  exact ⟨rows, hrun, hperm, inOrder_of_pairwise htree
    (fun x hx => isPlaced_of_mem_taggedFrom hlayouts hinputs (hperm.mem_iff.1 hx)) hpair⟩

/-- Two parcels in the falling order of a key of the reader, each with owners. -/
theorem merged_inOrder_parcels :
    let cell (text : String) : Option Cell := some ⟨.text, text⟩
    let inputs : List (SortLayout × List Row) :=
      [ ([⟨"CSKEY_0", true⟩, ⟨"parcel", false⟩],
          [[cell "z", cell "1", cell "north"], [none, cell "0", none]]),
        ([⟨"CSKEY_0", true⟩, ⟨"parcel", false⟩, ⟨"parcel/[id=parcel_id]owner", false⟩],
          [[cell "z", cell "1", cell "7", cell "Ann"], [cell "z", cell "1", cell "7", cell "Bob"],
            [none, cell "0", cell "3", none]]) ]
    ∃ tree plan r rows,
      TableTree.ofPaths ["parcel/name", "parcel/[id=parcel_id]owner/name"] = .ok tree ∧
      ReadPlan.ofStorage "parcel" (Storage.plain tree .geopackage) false = .ok plan ∧
      Reconstruction.start plan [true] = .ok r ∧ inputs.map Prod.fst = r.layouts ∧
      (∀ input ∈ inputs, IsSortedInput input) ∧ (Merge.ofRows inputs).run = (rows, none) ∧
      rows.Perm (Merge.taggedFrom 0 (inputs.map Prod.snd)) ∧ r.InOrder rows := by
  intro cell inputs
  have hlayouts : (do
      let tree ← TableTree.ofPaths ["parcel/name", "parcel/[id=parcel_id]owner/name"]
      let plan ← ReadPlan.ofStorage "parcel" (Storage.plain tree .geopackage) false
      let r ← Reconstruction.start plan [true]
      return r.layouts : Except Error (List SortLayout)).toOption = some (inputs.map Prod.fst) := by
    decide +kernel
  obtain ⟨tree, htree, hok⟩ := bind_eq_ok.1 (toOption_eq_some.1 hlayouts)
  obtain ⟨plan, hplan, hok⟩ := bind_eq_ok.1 hok
  obtain ⟨r, hr, hok⟩ := bind_eq_ok.1 hok
  have hsorted : ∀ input ∈ inputs, IsSortedInput input := by decide +kernel
  obtain ⟨r', hr', hall⟩ :=
    merged_inOrder (TableTree.isDerived_of_ofPaths htree) hplan [true]
  obtain rfl : r = r' := Except.ok.inj (hr.symm.trans hr')
  obtain ⟨rows, hrun, hperm, horder⟩ := hall inputs (pure_eq_ok.1 hok).symm hsorted
  exact ⟨tree, plan, r, rows, htree, hplan, hr, (pure_eq_ok.1 hok).symm, hsorted, hrun, hperm,
    horder⟩

end FeatureStore
