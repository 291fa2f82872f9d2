import FeatureStore.Proofs.Read.Places

/-!
# Nested rows

Features before they are flattened: a row of a table and below it, for each child table, the rows
that belong to it (`NestedRow`). `NestedRow.Fits` says when rows make sense for a tree: siblings
come in strictly rising order of their keys, a row has a value for each column, and a row that is
not read itself is seen through some row below it. `listed` puts all rows in nested order, each
with the chain of its table and the keys along it, and `nestedEvents` says what a reader should
see of the features. The rows listed have strictly rising places (`pairwise_listed`).
-/

set_option autoImplicit false

namespace FeatureStore

/-- A row and, for each table below its own, the rows that belong to it. -/
inductive NestedRow where
  | node (key : Cell) (values : List (Option Cell)) (blocks : List (List NestedRow))

namespace NestedRow

/-- The sort key of a row. -/
def key : NestedRow → Cell
  | .node key _ _ => key

/-- The values of the columns of a row. -/
def values : NestedRow → List (Option Cell)
  | .node _ values _ => values

/-- The rows below a row, table by table. -/
def blocks : NestedRow → List (List NestedRow)
  | .node _ _ blocks => blocks

mutual
/-- Some of the rows of the tables of a tree belong to a table with columns. -/
def Shows : TableTree → List NestedRow → Prop
  | .node table children, rows =>
    ∃ row ∈ rows, table.columns ≠ [] ∨ ShowsBelow children row.blocks

/-- Some of the rows below a row belong to a table with columns. -/
def ShowsBelow : List TableTree → List (List NestedRow) → Prop
  | tree :: trees, rows :: others => Shows tree rows ∨ ShowsBelow trees others
  | _, _ => False
end

mutual
instance decidableShows : (tree : TableTree) → (rows : List NestedRow) → Decidable (Shows tree rows)
  | .node table children, rows =>
    have := decidableShowsBelow children
    decidable_of_iff (∃ row ∈ rows, table.columns ≠ [] ∨ ShowsBelow children row.blocks)
      (by rw [Shows])

instance decidableShowsBelow : (trees : List TableTree) → (blocks : List (List NestedRow)) →
    Decidable (ShowsBelow trees blocks)
  | tree :: trees, rows :: others =>
    have := decidableShows tree rows
    have := decidableShowsBelow trees others
    decidable_of_iff (Shows tree rows ∨ ShowsBelow trees others) (by rw [ShowsBelow])
  | [], _ => isFalse (by simp [ShowsBelow])
  | _ :: _, [] => isFalse (by simp [ShowsBelow])
end

/-- Of two siblings the first has the smaller key, and their keys are of one class. -/
def Precedes (a b : NestedRow) : Prop :=
  a.key.kind = b.key.kind ∧ compareCells (some a.key) (some b.key) = .lt

instance (a b : NestedRow) : Decidable (a.Precedes b) := inferInstanceAs (Decidable (_ ∧ _))

mutual
/-- The rows can stand under one row of the parent of a tree. -/
def Fits : TableTree → List NestedRow → Prop
  | .node table children, rows =>
    rows.Pairwise Precedes ∧ ∀ row ∈ rows, row.key.isSortable = true ∧
      row.values.length = table.columns.length ∧ FitsBelow children row.blocks ∧
      (table.isRead = false → ShowsBelow children row.blocks)

/-- The rows below a row fit the tables below its table. -/
def FitsBelow : List TableTree → List (List NestedRow) → Prop
  | [], [] => True
  | tree :: trees, rows :: others => Fits tree rows ∧ FitsBelow trees others
  | _, _ => False
end

mutual
instance decidableFits : (tree : TableTree) → (rows : List NestedRow) → Decidable (Fits tree rows)
  | .node table children, rows =>
    have := decidableFitsBelow children
    decidable_of_iff (rows.Pairwise Precedes ∧ ∀ row ∈ rows, row.key.isSortable = true ∧
      row.values.length = table.columns.length ∧ FitsBelow children row.blocks ∧
      (table.isRead = false → ShowsBelow children row.blocks)) (by rw [Fits])

instance decidableFitsBelow : (trees : List TableTree) → (blocks : List (List NestedRow)) →
    Decidable (FitsBelow trees blocks)
  | [], [] => isTrue (by simp [FitsBelow])
  | tree :: trees, rows :: others =>
    have := decidableFits tree rows
    have := decidableFitsBelow trees others
    decidable_of_iff (Fits tree rows ∧ FitsBelow trees others) (by rw [FitsBelow])
  | [], _ :: _ => isFalse (by simp [FitsBelow])
  | _ :: _, [] => isFalse (by simp [FitsBelow])
end

end NestedRow

/-! ## Rows in nested order -/

/-- A row of some table with the tables and the keys from the root down to it. -/
structure ListedRow where
  chain : List (Nat × Table)
  keys : List Cell
  values : List (Option Cell)

namespace ListedRow

/-- The numbers of the tables of the chain. -/
def ids (x : ListedRow) : List Nat := x.chain.map Prod.fst

/-- The row as it is read: the keys of its chain, and then its columns. -/
def row (x : ListedRow) : Row := x.keys.map some ++ x.values

/-- The place of a row among all rows. -/
def place (x : ListedRow) : List PlaceKey :=
  (x.ids.zip x.keys).map fun (id, key) => PlaceKey.ofCell id false (some key)

end ListedRow

mutual
/-- The rows of all tables of a tree in nested order: a row before those below it, and these table
by table. `above` and `keys` lead to the row that all rows belong to, and `id` is the number of the
top. -/
def TableTree.listed (above : List (Nat × Table)) (keys : List Cell) (id : Nat) :
    TableTree → List NestedRow → List ListedRow
  | .node table children, rows => rows.flatMap fun row =>
    ⟨above ++ [(id, table)], keys ++ [row.key], row.values⟩ ::
      TableTree.listedBelow (above ++ [(id, table)]) (keys ++ [row.key]) (id + 1) children
        row.blocks

/-- The rows below a row in nested order. -/
def TableTree.listedBelow (above : List (Nat × Table)) (keys : List Cell) (id : Nat) :
    List TableTree → List (List NestedRow) → List ListedRow
  | tree :: trees, rows :: others =>
    tree.listed above keys id rows ++
      TableTree.listedBelow above keys (id + tree.size) trees others
  | _, _ => []
end

/-- The stream of a join group: the rows of its table in nested order. -/
def flatRows (tree : TableTree) (features : List NestedRow) (chain : List Nat) : List Row :=
  ((tree.listed [] [] 0 features).filter fun x => x.ids = chain).map ListedRow.row

/-! ## What a reader sees -/

/-- The events of the columns of a row. -/
def columnEvents (counts : List Nat) (columns : List Column) (values : List (Option Cell)) :
    List Event :=
  (columns.zip values).flatMap fun (column, value) =>
    Reconstruction.valueEvents counts column.property (value.map Cell.text)

/-- The multiplicities along a chain down to the row with an index among its siblings; only a table
that may have several rows counts. -/
def countsWith (counts : List Nat) (table : Table) (index : Nat) : List Nat :=
  if table.kind.isMultiValued then counts ++ [index + 1] else counts

mutual
/-- The events of the rows of a tree under one row, beginning with the sibling at an index. -/
def TableTree.rowEvents (counts : List Nat) :
    TableTree → Nat → List NestedRow → List Event
  | .node table children, index, rows => (rows.zipIdx index).flatMap fun (row, i) =>
    columnEvents (countsWith counts table i) table.columns row.values ++
      TableTree.rowEventsBelow (countsWith counts table i) children row.blocks

/-- The events of the rows below a row. -/
def TableTree.rowEventsBelow (counts : List Nat) :
    List TableTree → List (List NestedRow) → List Event
  | tree :: trees, rows :: others =>
    tree.rowEvents counts 0 rows ++ TableTree.rowEventsBelow counts trees others
  | _, _ => []
end

/-- The identifier of a feature: the value of the first identifier column of the root table, or else
the root key. -/
def featureId (table : Table) (row : NestedRow) : String :=
  ((table.columns.findIdx? (·.kind == .identifier)).bind fun i =>
    (row.values[i]?.join).map Cell.text).getD row.key.text

/-- The events of one feature. -/
def featureEvents (featureType : String) (tree : TableTree) (row : NestedRow) : List Event :=
  .featureStart featureType (featureId tree.root row) ::
    columnEvents [] tree.root.columns row.values ++
    TableTree.rowEventsBelow [] tree.children row.blocks ++ [.featureEnd]

/-- The events of some features and the end. -/
def nestedEvents (featureType : String) (tree : TableTree) (features : List NestedRow) :
    List Event :=
  features.flatMap (featureEvents featureType tree) ++ [.stop]

/-! ## Listed rows have rising places -/

namespace TableTree

mutual
/-- A row listed goes on from the row above through a row of the top. -/
theorem begins_of_mem_listed : ∀ {t : TableTree} {above : List (Nat × Table)} {keys : List Cell}
    {id : Nat} {rows : List NestedRow} {x : ListedRow}, x ∈ t.listed above keys id rows →
      ∃ row ∈ rows, ∃ chain more, x.chain = above ++ (id, t.root) :: chain ∧
        x.keys = keys ++ row.key :: more
  | .node table children, above, keys, id, rows, x, h => by
    rw [listed] at h
    obtain ⟨row, hrow, hx⟩ := List.mem_flatMap.1 h
    rcases List.mem_cons.1 hx with rfl | hx
    · exact ⟨row, hrow, [], [], rfl, rfl⟩
    · obtain ⟨k, next, chain, key, more, -, hchain, hkeys⟩ := begins_of_mem_listedBelow hx
      refine ⟨row, hrow, (k, next) :: chain, key :: more, ?_, ?_⟩
      · rw [hchain, List.append_assoc]
        rfl
      · rw [hkeys, List.append_assoc]
        rfl

theorem begins_of_mem_listedBelow : ∀ {l : List TableTree} {above : List (Nat × Table)}
    {keys : List Cell} {id : Nat} {blocks : List (List NestedRow)} {x : ListedRow},
    x ∈ listedBelow above keys id l blocks →
      ∃ k table chain key more, id ≤ k ∧ x.chain = above ++ (k, table) :: chain ∧
        x.keys = keys ++ key :: more
  | tree :: trees, above, keys, id, rows :: others, x, h => by
    rw [listedBelow] at h
    rcases List.mem_append.1 h with h | h
    · obtain ⟨row, -, chain, more, hx⟩ := begins_of_mem_listed h
      exact ⟨id, tree.root, chain, row.key, more, Nat.le_refl _, hx⟩
    · obtain ⟨k, table, chain, key, more, hk, hx⟩ := begins_of_mem_listedBelow h
      exact ⟨k, table, chain, key, more, by omega, hx⟩
  | [], _, _, _, [], _, h => by simp [listedBelow] at h
  | [], _, _, _, _ :: _, _, h => by simp [listedBelow] at h
  | _ :: _, _, _, _, [], _, h => by simp [listedBelow] at h
end

mutual
/-- The chain of a row listed is one of the tree. -/
theorem chain_mem_of_mem_listed : ∀ {t : TableTree} {above : List (Nat × Table)}
    {keys : List Cell} {id : Nat} {rows : List NestedRow} {x : ListedRow},
    x ∈ t.listed above keys id rows → x.chain ∈ t.numberedFrom above id
  | .node table children, above, keys, id, rows, x, h => by
    rw [listed] at h
    obtain ⟨row, -, hx⟩ := List.mem_flatMap.1 h
    rw [numberedFrom]
    rcases List.mem_cons.1 hx with rfl | hx
    · exact List.mem_cons_self
    · exact List.mem_cons_of_mem _ (chain_mem_of_mem_listedBelow hx)

theorem chain_mem_of_mem_listedBelow : ∀ {l : List TableTree} {above : List (Nat × Table)}
    {keys : List Cell} {id : Nat} {blocks : List (List NestedRow)} {x : ListedRow},
    x ∈ listedBelow above keys id l blocks → x.chain ∈ numberedFromList above id l
  | tree :: trees, above, keys, id, rows :: others, x, h => by
    rw [listedBelow] at h
    rw [numberedFromList]
    rcases List.mem_append.1 h with h | h
    · exact List.mem_append_left _ (chain_mem_of_mem_listed h)
    · exact List.mem_append_right _ (chain_mem_of_mem_listedBelow h)
  | [], _, _, _, [], _, h => by simp [listedBelow] at h
  | [], _, _, _, _ :: _, _, h => by simp [listedBelow] at h
  | _ :: _, _, _, _, [], _, h => by simp [listedBelow] at h
end

end TableTree

/-- A row has a key for each table of its chain and a value for each column of its table. -/
structure ListedRow.IsSound (x : ListedRow) : Prop where
  length_eq : x.chain.length = x.keys.length
  sortable : ∀ key ∈ x.keys, key.isSortable = true
  values_length : x.values.length = (lastTable x.chain).columns.length

namespace TableTree

mutual
/-- The rows listed are sound. -/
theorem isSound_of_mem_listed : ∀ {t : TableTree} {above : List (Nat × Table)} {keys : List Cell}
    {id : Nat} {rows : List NestedRow} {x : ListedRow}, above.length = keys.length →
    (∀ key ∈ keys, key.isSortable = true) → NestedRow.Fits t rows →
      x ∈ t.listed above keys id rows → x.IsSound
  | .node table children, above, keys, id, rows, x, hlength, hkeys, hfits, h => by
    rw [NestedRow.Fits] at hfits
    rw [listed] at h
    obtain ⟨row, hrow, hx⟩ := List.mem_flatMap.1 h
    obtain ⟨hkey, hvalues, hbelow, -⟩ := hfits.2 row hrow
    have hkeys' : ∀ key ∈ keys ++ [row.key], key.isSortable = true := by
      intro key hmem
      rcases List.mem_append.1 hmem with hmem | hmem
      · exact hkeys key hmem
      · rw [List.mem_singleton.1 hmem]
        exact hkey
    rcases List.mem_cons.1 hx with rfl | hx
    · exact ⟨by simp [hlength], hkeys', by rw [hvalues, lastTable_append]⟩
    · exact isSound_of_mem_listedBelow (by simp [hlength]) hkeys' hbelow hx

theorem isSound_of_mem_listedBelow : ∀ {l : List TableTree} {above : List (Nat × Table)}
    {keys : List Cell} {id : Nat} {blocks : List (List NestedRow)} {x : ListedRow},
    above.length = keys.length → (∀ key ∈ keys, key.isSortable = true) →
    NestedRow.FitsBelow l blocks → x ∈ listedBelow above keys id l blocks → x.IsSound
  | tree :: trees, above, keys, id, rows :: others, x, hlength, hkeys, hfits, h => by
    rw [NestedRow.FitsBelow] at hfits
    rw [listedBelow] at h
    rcases List.mem_append.1 h with h | h
    · exact isSound_of_mem_listed hlength hkeys hfits.1 h
    · exact isSound_of_mem_listedBelow hlength hkeys hfits.2 h
  | [], _, _, _, [], _, _, _, _, h => by simp [listedBelow] at h
  | [], _, _, _, _ :: _, _, _, _, _, h => by simp [listedBelow] at h
  | _ :: _, _, _, _, [], _, _, _, _, h => by simp [listedBelow] at h
end

/-- The place of a row that goes on from the row above. -/
theorem place_eq {x : ListedRow} {above chain : List (Nat × Table)} {keys more : List Cell}
    (h : above.length = keys.length) (hchain : x.chain = above ++ chain)
    (hkeys : x.keys = keys ++ more) :
    x.place = ListedRow.place ⟨above, keys, []⟩ ++ ListedRow.place ⟨chain, more, []⟩ := by
  rw [ListedRow.place, ListedRow.ids, hchain, hkeys, List.map_append,
    List.zip_append (by rw [List.length_map, h]), List.map_append]
  rfl

/-- Rows that go on from the row above are ordered as what they go on with. -/
theorem compareLex_place {x y : ListedRow} {above chain chain' : List (Nat × Table)}
    {keys more more' : List Cell} (h : above.length = keys.length)
    (hchain : x.chain = above ++ chain) (hkeys : x.keys = keys ++ more)
    (hchain' : y.chain = above ++ chain') (hkeys' : y.keys = keys ++ more') :
    List.compareLex PlaceKey.order x.place y.place = List.compareLex PlaceKey.order
      (ListedRow.place ⟨chain, more, []⟩) (ListedRow.place ⟨chain', more', []⟩) := by
  rw [place_eq h hchain hkeys, place_eq h hchain' hkeys', compareLex_append_left]

theorem compareLex_place_of_lt {j k : Nat} (h : j < k) (s t : Table) (a b : Cell)
    (chain chain' : List (Nat × Table)) (more more' : List Cell) :
    List.compareLex PlaceKey.order (ListedRow.place ⟨(j, s) :: chain, a :: more, []⟩)
      (ListedRow.place ⟨(k, t) :: chain', b :: more', []⟩) = .lt := by
  have hkey : PlaceKey.order (PlaceKey.ofCell j false (some a))
      (PlaceKey.ofCell k false (some b)) = .lt := by
    rw [PlaceKey.order_of_table_ne, PlaceKey.table_ofCell, PlaceKey.table_ofCell]
    · exact Nat.compare_eq_lt.2 h
    · rw [PlaceKey.table_ofCell, PlaceKey.table_ofCell]
      omega
  simp only [ListedRow.place, ListedRow.ids, List.map_cons, List.zip_cons_cons,
    List.compareLex_cons_cons, hkey, Ordering.lt_then]

/-- The rows below a later sibling come behind those below an earlier one. -/
theorem compareLex_place_of_precedes {id : Nat} (t : Table) {a b : NestedRow}
    (ha : a.key.isSortable = true) (hb : b.key.isSortable = true) (h : a.Precedes b)
    (chain chain' : List (Nat × Table)) (more more' : List Cell) :
    List.compareLex PlaceKey.order (ListedRow.place ⟨(id, t) :: chain, a.key :: more, []⟩)
      (ListedRow.place ⟨(id, t) :: chain', b.key :: more', []⟩) = .lt := by
  have hkey : PlaceKey.order (PlaceKey.ofCell id false (some a.key))
      (PlaceKey.ofCell id false (some b.key)) = .lt := by
    rw [PlaceKey.order_ofCell (a := some a.key) (b := some b.key) ha hb]
    exact h.2
  simp only [ListedRow.place, ListedRow.ids, List.map_cons, List.zip_cons_cons,
    List.compareLex_cons_cons, hkey, Ordering.lt_then]

mutual
/-- The rows listed have strictly rising places. -/
theorem pairwise_listed : ∀ {t : TableTree} {above : List (Nat × Table)} {keys : List Cell}
    {id : Nat} {rows : List NestedRow}, above.length = keys.length → NestedRow.Fits t rows →
      (t.listed above keys id rows).Pairwise fun x y =>
        List.compareLex PlaceKey.order x.place y.place = .lt
  | .node table children, above, keys, id, rows, hlength, hfits => by
    rw [NestedRow.Fits] at hfits
    obtain ⟨hsorted, hrows⟩ := hfits
    rw [listed, List.pairwise_flatMap]
    refine ⟨fun row hrow => List.pairwise_cons.2 ⟨fun x hx => ?_, ?_⟩, ?_⟩
    · -- a row and one below it
      obtain ⟨k, next, chain, key, more, -, hchain, hkeys⟩ := begins_of_mem_listedBelow hx
      rw [List.append_assoc] at hchain hkeys
      rw [compareLex_place hlength rfl rfl hchain hkeys]
      simp [ListedRow.place, ListedRow.ids, List.compareLex_cons_cons, List.compareLex_nil_cons,
        @Std.ReflCmp.compare_self _ PlaceKey.order]
    · exact pairwise_listedBelow (by simp [hlength]) (hrows row hrow).2.2.1
    · -- rows below two siblings are told apart by the keys of the siblings
      refine hsorted.imp_of_mem fun {a b} ha hb hab x hx y hy => ?_
      have hbegins : ∀ {row : NestedRow} {z : ListedRow},
          z ∈ (⟨above ++ [(id, table)], keys ++ [row.key], row.values⟩ : ListedRow) ::
            listedBelow (above ++ [(id, table)]) (keys ++ [row.key]) (id + 1) children row.blocks →
          ∃ chain more, z.chain = above ++ (id, table) :: chain ∧
            z.keys = keys ++ row.key :: more := by
        intro row z hz
        rcases List.mem_cons.1 hz with rfl | hz
        · exact ⟨[], [], rfl, rfl⟩
        · obtain ⟨k, next, chain, key, more, -, hchain, hkeys⟩ := begins_of_mem_listedBelow hz
          rw [List.append_assoc] at hchain hkeys
          exact ⟨_, _, hchain, hkeys⟩
      obtain ⟨chain, more, hchain, hkeys⟩ := hbegins hx
      obtain ⟨chain', more', hchain', hkeys'⟩ := hbegins hy
      rw [compareLex_place hlength hchain hkeys hchain' hkeys']
      exact compareLex_place_of_precedes table (hrows a ha).1 (hrows b hb).1 hab _ _ _ _

theorem pairwise_listedBelow : ∀ {l : List TableTree} {above : List (Nat × Table)}
    {keys : List Cell} {id : Nat} {blocks : List (List NestedRow)}, above.length = keys.length →
    NestedRow.FitsBelow l blocks → (listedBelow above keys id l blocks).Pairwise fun x y =>
      List.compareLex PlaceKey.order x.place y.place = .lt
  | tree :: trees, above, keys, id, rows :: others, hlength, hfits => by
    rw [NestedRow.FitsBelow] at hfits
    rw [listedBelow]
    refine List.pairwise_append.2 ⟨pairwise_listed hlength hfits.1,
      pairwise_listedBelow hlength hfits.2, fun x hx y hy => ?_⟩
    obtain ⟨row, -, chain, more, hchain, hkeys⟩ := begins_of_mem_listed hx
    obtain ⟨k, table, chain', key, more', hk, hchain', hkeys'⟩ := begins_of_mem_listedBelow hy
    rw [compareLex_place hlength hchain hkeys hchain' hkeys']
    -- all rows of a table come before those of the tables behind it
    have := tree.size_pos
    exact compareLex_place_of_lt (by omega) _ _ _ _ _ _ _ _
  | [], _, _, _, [], _, _ => by simp [listedBelow]
  | [], _, _, _, _ :: _, _, _ => by simp [listedBelow]
  | _ :: _, _, _, _, [], _, _ => by simp [listedBelow]
end

end TableTree

end FeatureStore
