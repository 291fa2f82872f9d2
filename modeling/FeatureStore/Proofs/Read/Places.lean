import FeatureStore.Proofs.Read.Groups
import FeatureStore.Proofs.Read.MergeRun

/-!
# Places of rows

The order behind a merge. Rows of different groups are compared on sort cells that their layouts
share, which is not one order on all rows. Each row has a place (`placeOf`): for every sort cell
the number of the table that the cell belongs to and the value of the cell. Places are ordered
lexicographically, by table before value. Since the groups come in the order of their chains, the
order of a merge is that of the places (`mergeOrder_eq_order`): rows are told apart by a table
exactly where their chains part, and a chain that ends comes before those that go on. So the order
of a merge is a total preorder (`ordersRows_of_isPlaced`), and the rows that share the front of
their places stand together (`take_eq_of_between`).
-/

set_option autoImplicit false

namespace FeatureStore

open Std

/-! ## Keys of places -/

/-- What the order of a merge depends on at one sort cell: the number of its table, and its value on
the side of rising or falling cells. -/
structure PlaceKey where
  table : Nat
  rising : SortValue
  falling : SortValue
  deriving DecidableEq

/-- The value of the side that a cell is not on. -/
def SortValue.base : SortValue := sortValue none

namespace PlaceKey

/-- The key of a cell of a table. -/
def ofCell (table : Nat) (descending : Bool) (cell : Option Cell) : PlaceKey :=
  if descending then ⟨table, SortValue.base, sortValue cell⟩
  else ⟨table, sortValue cell, SortValue.base⟩

/-- The order of two keys: by table, then by rising values, then by falling ones. -/
def order (a b : PlaceKey) : Ordering :=
  (compare a.table b.table).then
    ((SortValue.order a.rising b.rising).then (SortValue.order b.falling a.falling))

instance : TransCmp (fun a b : PlaceKey => SortValue.order a.rising b.rising) where
  eq_swap := by
    intro a b
    exact @OrientedCmp.eq_swap _ SortValue.order _ a.rising b.rising
  isLE_trans := by
    intro a b c
    exact @TransCmp.isLE_trans _ SortValue.order _ a.rising b.rising c.rising

instance : TransCmp (fun a b : PlaceKey => SortValue.order b.falling a.falling) where
  eq_swap := by
    intro a b
    exact @OrientedCmp.eq_swap _ SortValue.order _ b.falling a.falling
  isLE_trans := by
    intro a b c hab hbc
    exact @TransCmp.isLE_trans _ SortValue.order _ c.falling b.falling a.falling hbc hab

instance : TransCmp order :=
  inferInstanceAs (TransCmp (compareLex (compareOn PlaceKey.table)
    (compareLex (fun a b : PlaceKey => SortValue.order a.rising b.rising)
      (fun a b : PlaceKey => SortValue.order b.falling a.falling))))

instance : LawfulEqCmp order where
  compare_self := ReflCmp.compare_self
  eq_of_compare := by
    intro a b h
    rw [order, Ordering.then_eq_eq, Ordering.then_eq_eq] at h
    obtain ⟨htable, hrising, hfalling⟩ := h
    rcases a with ⟨t, r, f⟩
    rcases b with ⟨t', r', f'⟩
    obtain rfl : t = t' := LawfulEqOrd.compare_eq_iff_eq.1 htable
    obtain rfl : r = r' := SortValue.eq_of_order_eq hrising
    obtain rfl : f' = f := SortValue.eq_of_order_eq hfalling
    rfl

theorem order_of_table_ne {a b : PlaceKey} (h : a.table ≠ b.table) :
    order a b = compare a.table b.table := by
  cases hc : compare a.table b.table with
  | lt => rw [order, hc]; rfl
  | eq => exact absurd (LawfulEqOrd.compare_eq_iff_eq.1 hc) h
  | gt => rw [order, hc]; rfl

theorem table_ofCell (table : Nat) (descending : Bool) (cell : Option Cell) :
    (ofCell table descending cell).table = table := by
  unfold ofCell
  split <;> rfl

/-- Keys of one table and one direction are ordered as their cells are in that direction. -/
theorem order_ofCell {table : Nat} {descending : Bool} {a b : Option Cell}
    (ha : isSortCell a = true) (hb : isSortCell b = true) :
    order (ofCell table descending a) (ofCell table descending b) =
      directed descending (compareCells a b) := by
  have hbase : SortValue.order SortValue.base SortValue.base = .eq := ReflCmp.compare_self
  have htable : compare table table = .eq := ReflCmp.compare_self
  rw [compareCells_eq_order ha hb]
  cases descending with
  | false => simp [order, ofCell, directed, hbase]
  | true =>
    simp only [order, ofCell, directed, if_pos, htable, hbase, Ordering.eq_then]
    exact OrientedCmp.eq_swap

/-- Keys of one table and one direction are the same exactly if their cells are equal. -/
theorem ofCell_eq_iff {table : Nat} {descending : Bool} {a b : Option Cell}
    (ha : isSortCell a = true) (hb : isSortCell b = true) :
    ofCell table descending a = ofCell table descending b ↔ compareCells a b = .eq := by
  rw [← @LawfulEqCmp.compare_eq_iff_eq _ order, order_ofCell ha hb]
  cases descending with
  | false => rfl
  | true => exact Ordering.swap_eq_eq

end PlaceKey

/-! ## Places -/

/-- The place of a row with some sort cells, each given by its direction and the number of its
table. -/
def placeOf : List (Bool × Nat) → Row → List PlaceKey
  | [], _ => []
  | (descending, table) :: keys, row =>
    PlaceKey.ofCell table descending row.head?.join :: placeOf keys row.tail

/-- The first cells of a row are sort cells. -/
def HasSortCells (n : Nat) (row : Row) : Prop := ∀ cell ∈ row.take n, isSortCell cell = true

instance (n : Nat) (row : Row) : Decidable (HasSortCells n row) :=
  inferInstanceAs (Decidable (∀ cell ∈ row.take n, isSortCell cell = true))

/-- The first cells of two rows are equal. -/
def AgreeOn (n : Nat) (x y : Row) : Prop :=
  ∀ i < n, compareCells (x[i]?.join) (y[i]?.join) = .eq

namespace HasSortCells

theorem tail {n : Nat} {row : Row} (h : HasSortCells (n + 1) row) : HasSortCells n row.tail := by
  cases row with
  | nil => simp [HasSortCells]
  | cons cell row => exact (List.forall_mem_cons.1 h).2

theorem head {n : Nat} {row : Row} (h : HasSortCells (n + 1) row) :
    isSortCell row.head?.join = true := by
  cases row with
  | nil => rfl
  | cons cell row => exact (List.forall_mem_cons.1 h).1

theorem mono {m n : Nat} {row : Row} (hmn : m ≤ n) (h : HasSortCells n row) :
    HasSortCells m row := fun cell hcell =>
  h cell (List.take_subset_take_left row hmn hcell)

end HasSortCells

theorem agreeOn_succ {n : Nat} {x y : Row} :
    AgreeOn (n + 1) x y ↔
      compareCells x.head?.join y.head?.join = .eq ∧ AgreeOn n x.tail y.tail := by
  unfold AgreeOn
  rw [Nat.forall_lt_succ_left]
  simp [List.head?_eq_getElem?]

theorem length_placeOf : ∀ (keys : List (Bool × Nat)) (row : Row),
    (placeOf keys row).length = keys.length
  | [], _ => rfl
  | (descending, table) :: keys, row => by
    rw [placeOf, List.length_cons, length_placeOf, List.length_cons]

theorem table_placeOf : ∀ (keys : List (Bool × Nat)) (row : Row),
    (placeOf keys row).map PlaceKey.table = keys.map Prod.snd
  | [], _ => rfl
  | (descending, table) :: keys, row => by
    rw [placeOf, List.map_cons, table_placeOf, PlaceKey.table_ofCell, List.map_cons]

theorem take_placeOf : ∀ (n : Nat) (keys : List (Bool × Nat)) (row : Row),
    (placeOf keys row).take n = placeOf (keys.take n) row
  | 0, _, _ => by simp [placeOf]
  | n + 1, [], _ => by simp [placeOf]
  | n + 1, (descending, table) :: keys, row => by
    rw [placeOf, List.take_succ_cons, take_placeOf, List.take_succ_cons, placeOf]

/-- Rows with the same sort columns have the same place exactly if their sort cells are equal. -/
theorem placeOf_eq_iff : ∀ {keys : List (Bool × Nat)} {x y : Row}, HasSortCells keys.length x →
    HasSortCells keys.length y → (placeOf keys x = placeOf keys y ↔ AgreeOn keys.length x y)
  | [], _, _, _, _ => by simp [placeOf, AgreeOn]
  | (descending, table) :: keys, x, y, hx, hy => by
    rw [placeOf, placeOf, List.cons.injEq, PlaceKey.ofCell_eq_iff hx.head hy.head,
      placeOf_eq_iff hx.tail hy.tail, List.length_cons, agreeOn_succ]

/-- The fronts of two lists are ordered as the lists are. -/
theorem isLE_compareLex_take {α : Type} {cmp : α → α → Ordering} (n : Nat) : ∀ {as bs : List α},
    (List.compareLex cmp as bs).isLE → (List.compareLex cmp (as.take n) (bs.take n)).isLE := by
  induction n with
  | zero =>
    intro as bs _
    simp [List.compareLex_nil_nil]
  | succ n ih =>
    intro as bs hle
    cases as with
    | nil => simp [List.isLE_compareLex_nil_left]
    | cons a as =>
      cases bs with
      | nil => simp [List.compareLex_cons_nil] at hle
      | cons b bs =>
        rw [List.compareLex_cons_cons, Ordering.isLE_then_iff_or] at hle
        rw [List.take_succ_cons, List.take_succ_cons, List.compareLex_cons_cons,
          Ordering.isLE_then_iff_or]
        rcases hle with hlt | ⟨heq, hle⟩
        · exact Or.inl hlt
        · exact Or.inr ⟨heq, ih hle⟩

/-- A list between two lists with the same front has that front as well. -/
theorem take_eq_of_between {α : Type} {cmp : α → α → Ordering} [TransCmp cmp] [LawfulEqCmp cmp]
    {n : Nat} {xs ys zs : List α} (hxy : (List.compareLex cmp xs ys).isLE)
    (hyz : (List.compareLex cmp ys zs).isLE) (h : xs.take n = zs.take n) :
    ys.take n = xs.take n := by
  have hle := isLE_compareLex_take n hxy
  have hge := isLE_compareLex_take n hyz
  rw [← h] at hge
  exact (LawfulEqCmp.eq_of_compare (OrientedCmp.isLE_antisymm hle hge)).symm

/-! ## Rows compared as their places -/

/-- Two sort columns, each with the number of its table, have one name exactly if they belong to one
table, and have one direction. -/
def Matching (a b : SortColumn × Nat) : Prop :=
  (a.1.name = b.1.name ↔ a.2 = b.2) ∧ a.1.descending = b.1.descending

/-- A sort column with a table as the order of places takes it. -/
def sortKeyOf (a : SortColumn × Nat) : Bool × Nat := (a.1.descending, a.2)

/-- Comparing rows on what their layouts share, and where that is equal by the tables of the sort
columns, compares their places. -/
theorem compareRows_then_eq : ∀ {as bs : List (SortColumn × Nat)} {x y : Row},
    (∀ p ∈ as.zip bs, Matching p.1 p.2) → HasSortCells as.length x → HasSortCells bs.length y →
      (compareRows (as.map Prod.fst) x (bs.map Prod.fst) y).then
          (List.compareLex compare (as.map Prod.snd) (bs.map Prod.snd)) =
        List.compareLex PlaceKey.order (placeOf (as.map sortKeyOf) x) (placeOf (bs.map sortKeyOf) y)
  | [], [], _, _, _, _, _ => rfl
  | [], _ :: _, _, _, _, _, _ => rfl
  | _ :: _, [], _, _, _, _, _ => rfl
  | a :: as, b :: bs, x, y, hmatch, hx, hy => by
    rw [List.zip_cons_cons, List.forall_mem_cons] at hmatch
    obtain ⟨⟨hname, hdirection⟩, hmatch⟩ := hmatch
    simp only [List.map_cons, placeOf, sortKeyOf, compareRows, List.compareLex_cons_cons]
    by_cases htable : a.2 = b.2
    · -- one table: the cells decide, or else what comes behind them
      rw [if_pos (hname.2 htable), ← hdirection, ← htable,
        PlaceKey.order_ofCell hx.head hy.head, @ReflCmp.compare_self _ compare,
        Ordering.eq_then, Ordering.then_assoc, compareRows_then_eq hmatch hx.tail hy.tail]
    · rw [if_neg fun h => htable (hname.1 h), Ordering.eq_then,
        PlaceKey.order_of_table_ne (by simpa [PlaceKey.table_ofCell] using htable),
        PlaceKey.table_ofCell, PlaceKey.table_ofCell]
      -- the tables differ, so what comes behind them does not count on either side
      cases hc : compare a.2 b.2 with
      | lt => rfl
      | eq => exact absurd (LawfulEqOrd.compare_eq_iff_eq.1 hc) htable
      | gt => rfl

/-! ## Sort columns of a chain -/

/-- The sort columns of the reader, all of which stand for table zero. -/
def readerColumns (flags : List Bool) : List (SortColumn × Nat) :=
  flags.zipIdx.map fun (descending, index) => (⟨readerKeyName index, descending⟩, 0)

/-- The sort columns of a chain with their tables, those of the reader first. -/
def sortColumns (flags : List Bool) (chain : List (Nat × Table)) : List (SortColumn × Nat) :=
  readerColumns flags ++ chain.map fun e => (⟨e.2.path, false⟩, e.1)

/-- The directions and tables of sort columns for a chain of numbers. -/
def placeKeys (flags : List Bool) (ids : List Nat) : List (Bool × Nat) :=
  flags.map (fun descending => (descending, 0)) ++ ids.map fun id => (false, id)

theorem length_sortColumns (flags : List Bool) (chain : List (Nat × Table)) :
    (sortColumns flags chain).length = flags.length + chain.length := by
  simp [sortColumns, readerColumns]

/-- Without tables, the sort columns are the layout of the chain. -/
theorem columns_sortColumns (flags : List Bool) (chain : List (Nat × Table)) :
    (sortColumns flags chain).map Prod.fst = (chainLayout flags chain).sort := by
  refine List.ext_getElem? fun i => ?_
  rw [chainLayout, SortLayout.ofFlags, List.getElem?_map, List.getElem?_map, List.getElem?_zipIdx,
    sortColumns, List.getElem?_append, List.getElem?_append]
  by_cases hi : i < flags.length
  · simp [readerColumns, hi]
  · have hnone : flags[i]? = none := List.getElem?_eq_none (by omega)
    simp only [readerColumns, List.length_map, List.length_zipIdx, List.length_range, hi,
      if_false, List.getElem?_map, Option.map_map]
    cases chain[i - flags.length]? with
    | none => rfl
    | some e => simp [hnone]

theorem keys_sortColumns (flags : List Bool) (chain : List (Nat × Table)) :
    (sortColumns flags chain).map sortKeyOf = placeKeys flags (chain.map Prod.fst) := by
  rw [sortColumns, List.map_append, readerColumns, List.map_map, placeKeys, List.map_map,
    List.map_map]
  congr 1
  refine List.ext_getElem? fun i => ?_
  rw [List.getElem?_map, List.getElem?_zipIdx, Option.map_map, List.getElem?_map]
  rfl

/-- The tables of sort columns are ordered as their chains are. -/
theorem compareLex_sortColumns (flags : List Bool) (c d : List (Nat × Table)) :
    List.compareLex compare ((sortColumns flags c).map Prod.snd)
      ((sortColumns flags d).map Prod.snd) = TableTree.compareChains c d := by
  rw [sortColumns, sortColumns, List.map_append, List.map_append, compareLex_append_left,
    List.map_map, List.map_map]
  rfl

/-- The sort columns of two chains of a derived tree match at each place. -/
theorem matching_sortColumns {tree : TableTree} (htree : tree.IsDerived) {flags : List Bool}
    {c d : List (Nat × Table)} (hc : c ∈ tree.numberedChains) (hd : d ∈ tree.numberedChains) :
    ∀ p ∈ (sortColumns flags c).zip (sortColumns flags d), Matching p.1 p.2 := by
  intro p hp
  rw [sortColumns, sortColumns, List.zip_append rfl] at hp
  rcases List.mem_append.1 hp with hp | hp
  · -- the columns of the reader are the same in both lists
    obtain ⟨i, hi, hp⟩ := List.mem_iff_getElem.1 hp
    rw [List.getElem_zip] at hp
    rw [← hp]
    exact ⟨Iff.intro (fun _ => rfl) (fun _ => rfl), rfl⟩
  · obtain ⟨hleft, hright⟩ := List.of_mem_zip hp
    obtain ⟨e, he, hpe⟩ := List.mem_map.1 hleft
    obtain ⟨f, hf, hpf⟩ := List.mem_map.1 hright
    rw [← hpe, ← hpf]
    have hpart := TableTree.isPart_of_mem hc he
    have hpart' := TableTree.isPart_of_mem hd hf
    -- names are paths, and every table of a derived tree has a path of its own
    refine ⟨⟨fun hname => ?_, fun hid => ?_⟩, rfl⟩
    · have hfound := TableTree.idOf?_of_isPart htree hpart
      have hname : e.2.path = f.2.path := hname
      rw [hname, TableTree.idOf?_of_isPart htree hpart'] at hfound
      exact (Option.some.inj hfound).symm
    · have hid : e.1 = f.1 := hid
      obtain ⟨_, _, _, hsub, hroot⟩ := hpart
      obtain ⟨_, _, _, hsub', hroot'⟩ := hpart'
      show e.2.path = f.2.path
      rw [← hroot, ← hroot', ← hsub.path_eq, ← hsub'.path_eq, hid]

/-! ## The order of a merge -/

section Merge

variable {tree : TableTree} {flags : List Bool}

/-- The sort layouts of the groups of a tree. -/
def sortLayouts (tree : TableTree) (flags : List Bool) : List SortLayout :=
  tree.readChains.map fun chain => (chainLayout flags chain).sort

/-- The row belongs to the group of a chain, and its sort cells are such. -/
def IsPlaced (tree : TableTree) (flags : List Bool) (x : MergedRow) : Prop :=
  ∃ chain, tree.readChains[x.group]? = some chain ∧
    HasSortCells (flags.length + chain.length) x.row

/-- The chain of the group that a row belongs to. -/
def groupChain (tree : TableTree) (x : MergedRow) : List Nat :=
  ((tree.readChains[x.group]?).getD []).map Prod.fst

/-- The place of a row of some group. -/
def place (tree : TableTree) (flags : List Bool) (x : MergedRow) : List PlaceKey :=
  placeOf (placeKeys flags (groupChain tree x)) x.row

theorem groupChain_eq {x : MergedRow} {chain : List (Nat × Table)}
    (h : tree.readChains[x.group]? = some chain) : groupChain tree x = chain.map Prod.fst := by
  rw [groupChain, h]
  rfl

/-- In a list of chains in their order, chains are ordered as their indexes are. -/
theorem compare_index_eq {l : List (List (Nat × Table))}
    (hl : l.Pairwise fun c d => TableTree.compareChains c d = .lt) {i j : Nat}
    {c d : List (Nat × Table)} (hc : l[i]? = some c) (hd : l[j]? = some d) :
    compare i j = TableTree.compareChains c d := by
  obtain ⟨hi, rfl⟩ := List.getElem?_eq_some_iff.1 hc
  obtain ⟨hj, rfl⟩ := List.getElem?_eq_some_iff.1 hd
  rw [List.pairwise_iff_getElem] at hl
  rcases Nat.lt_trichotomy i j with h | rfl | h
  · rw [hl i j hi hj h, Nat.compare_eq_lt.2 h]
  · rw [@ReflCmp.compare_self _ compare, @ReflCmp.compare_self _ TableTree.compareChains]
  · rw [Nat.compare_eq_gt.2 h, @OrientedCmp.eq_swap _ TableTree.compareChains,
      hl j i hj hi h]
    rfl

/-- The order of a merge is that of the places. -/
theorem mergeOrder_eq_order (htree : tree.IsDerived) {x y : MergedRow}
    (hx : IsPlaced tree flags x) (hy : IsPlaced tree flags y) :
    mergeOrder (sortLayouts tree flags) x y =
      List.compareLex PlaceKey.order (place tree flags x) (place tree flags y) := by
  obtain ⟨c, hc, hcells⟩ := hx
  obtain ⟨d, hd, hcells'⟩ := hy
  have hlayout : ∀ {z : MergedRow} {e : List (Nat × Table)}, tree.readChains[z.group]? = some e →
      (sortLayouts tree flags).getD z.group [] = (sortColumns flags e).map Prod.fst := by
    intro z e he
    rw [sortLayouts, List.getD_eq_getElem?_getD, List.getElem?_map, he, columns_sortColumns]
    rfl
  have hmem : ∀ {z : MergedRow} {e : List (Nat × Table)}, tree.readChains[z.group]? = some e →
      e ∈ tree.numberedChains := fun he => (List.mem_filter.1 (List.mem_of_getElem? he)).1
  have hindex : compare x.group y.group = TableTree.compareChains c d :=
    compare_index_eq (tree.pairwise_numberedChains.filter _) hc hd
  rw [mergeOrder, hlayout hc, hlayout hd, hindex, ← compareLex_sortColumns flags,
    compareRows_then_eq (matching_sortColumns htree (hmem hc) (hmem hd))
      (by rwa [length_sortColumns]) (by rwa [length_sortColumns]),
    keys_sortColumns, keys_sortColumns, place, place, groupChain_eq hc, groupChain_eq hd]

/-- The order of a merge is a total preorder of the rows whose sort cells are such. -/
theorem ordersRows_of_isPlaced (htree : tree.IsDerived) :
    OrdersRows (sortLayouts tree flags) (IsPlaced tree flags) :=
  OrdersRows.of_places (place tree flags) fun hx hy => mergeOrder_eq_order htree hx hy

end Merge

end FeatureStore
