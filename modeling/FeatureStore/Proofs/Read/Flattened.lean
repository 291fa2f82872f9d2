import FeatureStore.Proofs.Read.MergeOrder
import FeatureStore.Proofs.Read.Nested

/-!
# Merging flattened rows

A merge of the streams of all join groups gives the rows back in nested order (`run_flatRows`). The
streams hold exactly the rows that are read (`taggedFrom_filter_perm`), in nested order their places
rise strictly, and a merge gives its rows in the order of their places; since no two of them are
equal there, that leaves one order only.
-/

set_option autoImplicit false

namespace FeatureStore

variable {tree : TableTree} {features : List NestedRow}

/-- The numbers of the chains that are read. -/
def TableTree.readIds (t : TableTree) : List (List Nat) := t.readChains.map (List.map Prod.fst)

/-- A listed row with the index of its group. -/
def ListedRow.tagged (tree : TableTree) (x : ListedRow) : MergedRow :=
  ⟨tree.readIds.idxOf x.ids, x.row⟩

/-- The rows listed that are read. -/
def readRows (rows : List ListedRow) : List ListedRow :=
  rows.filter fun x => isReadChain x.chain

/-! ## Groups of listed rows -/

theorem nodup_readIds (tree : TableTree) : tree.readIds.Nodup := by
  refine List.Pairwise.map _ (fun c d h => ?_) (tree.pairwise_numberedChains.filter _)
  intro heq
  rw [TableTree.compareChains, heq, @Std.ReflCmp.compare_self _ (List.compareLex compare)] at h
  simp at h

/-- A chain of the tree is read exactly if its numbers are those of a read chain. -/
theorem ids_mem_readIds_iff {x : ListedRow} (hx : x.chain ∈ tree.numberedChains) :
    x.ids ∈ tree.readIds ↔ isReadChain x.chain = true := by
  constructor
  · intro h
    obtain ⟨c, hc, hids⟩ := List.mem_map.1 h
    obtain ⟨hmem, hread⟩ := List.mem_filter.1 hc
    rwa [TableTree.eq_of_ids_eq hmem hx hids] at hread
  · intro h
    exact List.mem_map_of_mem (List.mem_filter.2 ⟨hx, h⟩)

/-- The group of a row that is read has the chain of the row. -/
theorem readChains_tagged {x : ListedRow} (hx : x.chain ∈ tree.numberedChains)
    (hread : isReadChain x.chain = true) :
    tree.readChains[(x.tagged tree).group]? = some x.chain := by
  have hmem := (ids_mem_readIds_iff hx).2 hread
  have hget : tree.readIds[tree.readIds.idxOf x.ids]? = some x.ids := List.getElem?_idxOf hmem
  rw [TableTree.readIds, List.getElem?_map, Option.map_eq_some_iff] at hget
  obtain ⟨c, hc, hids⟩ := hget
  obtain ⟨hc', -⟩ := List.mem_filter.1 (List.mem_of_getElem? hc)
  rw [← TableTree.eq_of_ids_eq hc' hx hids]
  exact hc

/-- The layout of the group of a row that is read is that of its chain. -/
theorem layout_tagged {x : ListedRow} (hx : x.chain ∈ tree.numberedChains)
    (hread : isReadChain x.chain = true) :
    (sortLayouts tree []).getD (x.tagged tree).group [] = (chainLayout [] x.chain).sort := by
  rw [sortLayouts, List.getD_eq_getElem?_getD, List.getElem?_map, readChains_tagged hx hread]
  rfl

theorem hasSortCells_row {x : ListedRow} (hx : x.IsSound) : HasSortCells x.chain.length x.row := by
  intro cell hcell
  rw [ListedRow.row, hx.length_eq, List.take_left' (by simp)] at hcell
  obtain ⟨key, hkey, rfl⟩ := List.mem_map.1 hcell
  exact hx.sortable key hkey

theorem placeOf_keys : ∀ {ids : List Nat} {keys : List Cell} (values : List (Option Cell)),
    ids.length = keys.length → placeOf (ids.map fun id => (false, id)) (keys.map some ++ values) =
      (ids.zip keys).map fun (id, key) => PlaceKey.ofCell id false (some key)
  | [], [], _, _ => rfl
  | id :: ids, key :: keys, values, h => by
    rw [List.map_cons, List.map_cons, List.cons_append, placeOf, List.zip_cons_cons, List.map_cons]
    exact congrArg _ (placeOf_keys values (by simpa using h))

section Places

variable {x : ListedRow} (hx : x.IsSound) (hmem : x.chain ∈ tree.numberedChains)
  (hread : isReadChain x.chain = true)

include hx hmem hread

theorem isPlaced_tagged : IsPlaced tree [] (x.tagged tree) := by
  refine ⟨x.chain, readChains_tagged hmem hread, ?_⟩
  rw [List.length_nil, Nat.zero_add]
  exact hasSortCells_row hx

/-- Among the merged rows a row has the place that it is listed with. -/
theorem place_tagged : place tree [] (x.tagged tree) = x.place := by
  rw [place, groupChain_eq (readChains_tagged hmem hread), placeKeys, List.map_nil, List.nil_append]
  exact placeOf_keys x.values (by rw [List.length_map, hx.length_eq])

end Places

/-! ## The rows of all streams -/

theorem filter_append_perm_of_disjoint {α : Type} {p q r : α → Bool} (l : List α)
    (hr : ∀ a ∈ l, r a = (p a || q a)) (hpq : ∀ a ∈ l, p a = true → q a = false) :
    (l.filter p ++ l.filter q).Perm (l.filter r) := by
  have hp : (l.filter r).filter p = l.filter p := by
    rw [List.filter_filter]
    refine List.filter_congr fun a ha => ?_
    rw [hr a ha]
    cases p a <;> simp
  have hq : (l.filter r).filter (fun a => !p a) = l.filter q := by
    rw [List.filter_filter]
    refine List.filter_congr fun a ha => ?_
    rw [hr a ha]
    cases hpa : p a with
    | true => simp [hpq a ha hpa]
    | false => simp
  have hsplit := List.filter_append_perm p (l.filter r)
  rwa [hp, hq] at hsplit

/-- The streams of different chains hold the rows of all of these chains. -/
theorem taggedFrom_filter_perm (rows : List ListedRow) : ∀ (chains : List (List Nat)) (group : Nat),
    chains.Nodup → (Merge.taggedFrom group (chains.map fun chain =>
      (rows.filter fun x => x.ids = chain).map ListedRow.row)).Perm
        ((rows.filter fun x => x.ids ∈ chains).map fun x =>
          ⟨group + chains.idxOf x.ids, x.row⟩)
  | [], group, _ => by simp [Merge.taggedFrom]
  | chain :: chains, group, hnodup => by
    obtain ⟨hchain, hnodup⟩ := List.nodup_cons.1 hnodup
    -- the first stream holds the rows of its chain, and the others those of the other chains
    have ih := taggedFrom_filter_perm rows chains (group + 1) hnodup
    have hfirst : ((rows.filter fun x => x.ids = chain).map ListedRow.row).map
        (MergedRow.mk group) = (rows.filter fun x => x.ids = chain).map fun x =>
          ⟨group + (chain :: chains).idxOf x.ids, x.row⟩ := by
      rw [List.map_map]
      refine List.map_congr_left fun x hx => ?_
      have hids : x.ids = chain := by simpa using (List.mem_filter.1 hx).2
      rw [hids, List.idxOf_cons_self]
      rfl
    have hothers : ((rows.filter fun x => x.ids ∈ chains).map fun x : ListedRow =>
        (⟨group + 1 + chains.idxOf x.ids, x.row⟩ : MergedRow)) =
        (rows.filter fun x => x.ids ∈ chains).map fun x =>
          ⟨group + (chain :: chains).idxOf x.ids, x.row⟩ := by
      refine List.map_congr_left fun x hx => ?_
      have hids : x.ids ∈ chains := by simpa using (List.mem_filter.1 hx).2
      have hne : chain ≠ x.ids := by
        rintro rfl
        exact hchain hids
      rw [List.idxOf_cons_ne _ hne]
      congr 1
      omega
    rw [List.map_cons, Merge.taggedFrom, hfirst]
    refine (ih.append_left _).trans ?_
    rw [hothers, ← List.map_append]
    refine (filter_append_perm_of_disjoint rows (fun x _ => ?_) fun x _ hx => ?_).map _
    · simp [List.mem_cons]
    · have hids : x.ids = chain := by simpa using hx
      simpa [hids] using hchain

/-- The streams of all join groups hold the rows that are read. -/
theorem taggedFrom_flatRows_perm (tree : TableTree) (features : List NestedRow) :
    (Merge.taggedFrom 0 (tree.readIds.map fun ids => flatRows tree features ids)).Perm
      ((readRows (tree.listed [] [] 0 features)).map (ListedRow.tagged tree)) := by
  have hlisted := taggedFrom_filter_perm (tree.listed [] [] 0 features) tree.readIds 0
    (nodup_readIds tree)
  have hread : ((tree.listed [] [] 0 features).filter fun x => x.ids ∈ tree.readIds) =
      readRows (tree.listed [] [] 0 features) := by
    refine List.filter_congr fun x hx => ?_
    have hiff := ids_mem_readIds_iff (TableTree.chain_mem_of_mem_listed hx)
    rw [Bool.eq_iff_iff, decide_eq_true_iff, hiff]
  rw [hread] at hlisted
  simp only [Nat.zero_add] at hlisted
  exact hlisted

/-! ## The merge -/

section Run

variable (htree : tree.IsDerived) (hfits : NestedRow.Fits tree features)

include hfits

theorem isSound_of_mem {x : ListedRow} (hx : x ∈ tree.listed [] [] 0 features) : x.IsSound :=
  TableTree.isSound_of_mem_listed rfl (by simp) hfits hx

include htree

/-- Of two rows that are read, the one listed first comes first in a merge. -/
theorem pairwise_mergeOrder_readRows :
    (readRows (tree.listed [] [] 0 features)).Pairwise fun x y =>
      mergeOrder (sortLayouts tree []) (x.tagged tree) (y.tagged tree) = .lt := by
  refine ((TableTree.pairwise_listed rfl hfits).filter _).imp_of_mem fun {x y} hx hy hxy => ?_
  obtain ⟨hx, hreadx⟩ := List.mem_filter.1 hx
  obtain ⟨hy, hready⟩ := List.mem_filter.1 hy
  have hmemx := TableTree.chain_mem_of_mem_listed hx
  have hmemy := TableTree.chain_mem_of_mem_listed hy
  have hsx := isSound_of_mem hfits hx
  have hsy := isSound_of_mem hfits hy
  rw [mergeOrder_eq_order htree (isPlaced_tagged hsx hmemx hreadx)
    (isPlaced_tagged hsy hmemy hready), place_tagged hsx hmemx hreadx,
    place_tagged hsy hmemy hready]
  exact hxy

/-- The stream of a join group is sorted by the layout of the group. -/
theorem isSortedInput_flatRows {chain : List (Nat × Table)} (hchain : chain ∈ tree.readChains) :
    IsSortedInput ((chainLayout [] chain).sort, flatRows tree features (chain.map Prod.fst)) := by
  obtain ⟨hmem, hread⟩ := List.mem_filter.1 hchain
  have hrow : ∀ x ∈ (tree.listed [] [] 0 features).filter fun x => x.ids = chain.map Prod.fst,
      x ∈ tree.listed [] [] 0 features ∧ x.chain = chain := by
    intro x hx
    obtain ⟨hx, hids⟩ := List.mem_filter.1 hx
    exact ⟨hx, TableTree.eq_of_ids_eq (TableTree.chain_mem_of_mem_listed hx) hmem
      (of_decide_eq_true hids)⟩
  refine ⟨fun row h => ?_, ?_⟩
  · obtain ⟨x, hx, rfl⟩ := List.mem_map.1 h
    obtain ⟨hlisted, hx⟩ := hrow x hx
    rw [length_chainLayout_sort, List.length_nil, Nat.zero_add, ← hx]
    exact hasSortCells_row (isSound_of_mem hfits hlisted)
  · rw [flatRows, List.pairwise_map]
    have hfilter : ((tree.listed [] [] 0 features).filter fun x => x.ids = chain.map Prod.fst) =
        (readRows (tree.listed [] [] 0 features)).filter fun x => x.ids = chain.map Prod.fst := by
      rw [readRows, List.filter_filter]
      refine List.filter_congr fun x hx => ?_
      by_cases hids : x.ids = chain.map Prod.fst
      · obtain ⟨-, hx⟩ := hrow x (List.mem_filter.2 ⟨hx, by simpa using hids⟩)
        simp [hids, hx, hread]
      · simp [hids]
    have hpair := (pairwise_mergeOrder_readRows htree hfits).filter fun x =>
      x.ids = chain.map Prod.fst
    rw [← hfilter] at hpair
    refine hpair.imp_of_mem fun {x y} hx hy hxy => ?_
    have hlayout : ∀ {z : ListedRow}, z.chain = chain →
        (sortLayouts tree []).getD (z.tagged tree).group [] = (chainLayout [] chain).sort := by
      rintro z rfl
      exact layout_tagged hmem hread
    rw [mergeOrder, hlayout (hrow x hx).2, hlayout (hrow y hy).2] at hxy
    -- within a group the order of the merge is that of the rows
    intro hgt
    rw [show (x.tagged tree).row = x.row from rfl, show (y.tagged tree).row = y.row from rfl,
      hgt] at hxy
    simp at hxy

/-- A merge of the streams of all join groups gives the rows that are read in nested order. -/
theorem run_flatRows :
    (Merge.ofRows (tree.readChains.map fun chain =>
      ((chainLayout [] chain).sort, flatRows tree features (chain.map Prod.fst)))).run =
        ((readRows (tree.listed [] [] 0 features)).map (ListedRow.tagged tree), none) := by
  have hlayouts : (tree.readChains.map fun chain =>
      ((chainLayout [] chain).sort, flatRows tree features (chain.map Prod.fst))).map Prod.fst =
        sortLayouts tree [] := by
    rw [List.map_map]
    rfl
  have hinputs : ∀ input ∈ tree.readChains.map fun chain =>
      ((chainLayout [] chain).sort, flatRows tree features (chain.map Prod.fst)),
      IsSortedInput input := by
    intro input hinput
    obtain ⟨chain, hchain, rfl⟩ := List.mem_map.1 hinput
    exact isSortedInput_flatRows htree hfits hchain
  have hstreams : (tree.readChains.map fun chain =>
      ((chainLayout [] chain).sort, flatRows tree features (chain.map Prod.fst))).map Prod.snd =
        tree.readIds.map fun ids => flatRows tree features ids := by
    rw [List.map_map, TableTree.readIds, List.map_map]
    rfl
  obtain ⟨rows, hrun, hpair, hperm⟩ := run_of_isSortedInput htree hlayouts hinputs
  rw [hstreams] at hperm
  have hplaced : ∀ x ∈ rows, IsPlaced tree [] x := fun x hx => by
    refine isPlaced_of_mem_taggedFrom hlayouts hinputs ?_
    rw [hstreams]
    exact hperm.mem_iff.1 hx
  have hall := hperm.trans (taggedFrom_flatRows_perm tree features)
  have hsorted := pairwise_mergeOrder_readRows htree hfits
  rw [← List.pairwise_map (f := ListedRow.tagged tree)
    (R := fun x y => mergeOrder (sortLayouts tree []) x y = .lt)] at hsorted
  rw [hrun]
  refine Prod.ext (List.Perm.eq_of_pairwise (fun a b ha hb hab hba => ?_) hpair
    (hsorted.imp fun h => by rw [h]; rfl) hall) rfl
  -- two rows that come before each other are equal, and equal rows that are read are the same
  have hb := hall.mem_iff.2 hb
  have ho : OrdersRows (sortLayouts tree []) (IsPlaced tree []) := ordersRows_of_isPlaced htree
  exact eq_of_pairwise_lt hsorted (hall.mem_iff.1 ha) (hall.mem_iff.1 hb)
    (ho.eq_of_isLE (hplaced a ha) (hplaced b hb) hab hba)
    (ho.eq_of_isLE (hplaced b hb) (hplaced a ha) hba hab)

end Run

end FeatureStore
