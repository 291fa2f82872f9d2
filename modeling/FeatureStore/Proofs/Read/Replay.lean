import FeatureStore.Proofs.Read.Flattened
import FeatureStore.Proofs.Read.Tracking

/-!
# Replaying nested rows

Pushing rows in nested order gives the events of the nested rows. `Pushes` is a run of `push` over
some rows. A row below the open feature gives the values of its columns with the counts along its
chain (`push_of_current`), and the root row of another feature closes the open one and begins its
own (`push_of_new`). The main induction follows the tree: the rows below a row give their events
and leave the counters of all other tables alone (`pushes_listedBelow`), so the counter of a table
is the index of its row among the siblings (`pushes_rows`). A row that is not read is replayed
with the first row below it that is.
-/

set_option autoImplicit false

namespace FeatureStore

open Reconstruction

/-- Some rows are pushed one after the other and give some events. -/
inductive Pushes : Reconstruction → List MergedRow → List Event → Reconstruction → Prop
  | nil (r : Reconstruction) : Pushes r [] [] r
  | cons {r next last : Reconstruction} {x : MergedRow} {rows : List MergedRow}
      {events more : List Event} : r.push x = (.ok events, next) → Pushes next rows more last →
      Pushes r (x :: rows) (events ++ more) last

theorem Pushes.append {r next last : Reconstruction} {rows others : List MergedRow}
    {events more : List Event} (h : Pushes r rows events next) (h' : Pushes next others more last) :
    Pushes r (rows ++ others) (events ++ more) last := by
  induction h with
  | nil => exact h'
  | cons hpush _ ih =>
    rw [List.cons_append, List.append_assoc]
    exact Pushes.cons hpush (ih h')

/-- What is known when rows of a tree are read: how they are laid out, and a counter for each
table. -/
structure Replaying (tree : TableTree) (featureType : String) (r : Reconstruction) : Prop where
  featureType_eq : r.featureType = featureType
  readerKeys_eq : r.readerKeys = 0
  groups_eq : r.groups = tree.readChains.map (chainLayout [])
  isOf : r.multiplicities.IsOf (Arena.ofTree tree)

/-- The tables and the keys along a chain as the counters take them. -/
def visitsOf (chain : List (Nat × Table)) (keys : List Cell) : List (Nat × Option String) :=
  (chain.map Prod.fst).zip (keys.map fun key => some key.text)

theorem visitsOf_append {above chain : List (Nat × Table)} {keys more : List Cell}
    (h : above.length = keys.length) :
    visitsOf (above ++ chain) (keys ++ more) = visitsOf above keys ++ visitsOf chain more := by
  rw [visitsOf, List.map_append, List.map_append, List.zip_append (by simp [h])]
  rfl

theorem lt_of_mem_visitsOf {chain : List (Nat × Table)} {keys : List Cell} {id : Nat}
    (h : ∀ e ∈ chain, e.1 < id) : ∀ v ∈ visitsOf chain keys, v.1 < id := by
  intro v hv
  obtain ⟨hleft, -⟩ := List.of_mem_zip hv
  obtain ⟨e, he, hid⟩ := List.mem_map.1 hleft
  rw [← hid]
  exact h e he

/-! ## Pushing one row -/

theorem mapM_eq_some_map {α β : Type} {f : α → Option β} {g : α → β} : ∀ {l : List α},
    (∀ a ∈ l, f a = some (g a)) → l.mapM f = some (l.map g)
  | [], _ => rfl
  | a :: l, h => by
    obtain ⟨ha, h⟩ := List.forall_mem_cons.1 h
    rw [List.mapM_cons, ha, mapM_eq_some_map h]
    rfl

/-- The keys in front of a row are read off it. -/
theorem mapM_text?_row (x : ListedRow) :
    ((List.range x.keys.length).map (0 + ·)).mapM x.row.text? = some (x.keys.map Cell.text) := by
  have htext : ∀ i ∈ (List.range x.keys.length).map (0 + ·),
      x.row.text? i = some ((x.row.text? i).getD "") := by
    intro i hi
    obtain ⟨j, hj, rfl⟩ := List.mem_map.1 hi
    rw [List.mem_range] at hj
    simp [Row.text?, ListedRow.row, List.getElem?_append_left, hj]
  rw [mapM_eq_some_map htext]
  congr 1
  refine List.ext_getElem (by simp) fun i hi hi' => ?_
  rw [List.length_map] at hi'
  simp [Row.text?, ListedRow.row, List.getElem?_append_left, hi']

/-- The values behind the keys of a row are read off it. -/
theorem text?_row (x : ListedRow) (i : Nat) :
    x.row.text? (x.keys.length + i) = (x.values[i]?.join).map Cell.text := by
  rw [Row.text?, ListedRow.row, List.getElem?_append_right (by simp)]
  simp

theorem flatMap_zipIdx_eq_columnEvents (counts : List Nat) (x : ListedRow) {columns : List Column}
    (h : x.values.length = columns.length) :
    (columns.zipIdx.flatMap fun (column, i) =>
      valueEvents counts column.property (x.row.text? (x.keys.length + i))) =
      columnEvents counts columns x.values := by
  rw [columnEvents, List.flatMap_def, List.flatMap_def]
  congr 1
  refine List.ext_getElem (by simp [h]) fun i hi hi' => ?_
  have hlt : i < columns.length := by simpa using hi
  simp only [List.getElem_map, List.getElem_zipIdx, List.getElem_zip, text?_row]
  rw [Nat.zero_add, List.getElem?_eq_getElem (by omega)]
  rfl

section Push

variable {tree : TableTree} {featureType : String} {r : Reconstruction} {x : ListedRow}

/-- A row that is read is laid out as its group asks for. -/
theorem push_eq_pushKeyed (hr : Replaying tree featureType r) (hx : x.IsSound)
    (hmem : x.chain ∈ tree.numberedChains) (hread : isReadChain x.chain = true) :
    r.push (x.tagged tree) =
      (.ok (pushKeyed { r with rows := r.rows + 1 } (x.tagged tree).group (chainLayout [] x.chain)
          x.row (x.keys.map Cell.text)).1,
        (pushKeyed { r with rows := r.rows + 1 } (x.tagged tree).group (chainLayout [] x.chain)
          x.row (x.keys.map Cell.text)).2) := by
  have hgroup : r.groups[(x.tagged tree).group]? = some (chainLayout [] x.chain) := by
    rw [hr.groups_eq, List.getElem?_map, readChains_tagged hmem hread]
    rfl
  have hlength : (chainLayout [] x.chain).chain.length = x.keys.length := by
    rw [chainLayout, List.length_map, hx.length_eq]
  have hlong : r.readerKeys + (chainLayout [] x.chain).chain.length +
      (chainLayout [] x.chain).columns.length ≤ (x.tagged tree).row.length := by
    rw [hr.readerKeys_eq, hlength]
    show 0 + x.keys.length + (lastTable x.chain).columns.length ≤ x.row.length
    rw [ListedRow.row, List.length_append, List.length_map, hx.values_length]
    omega
  refine push_of_keys hgroup hlong ?_
  rw [hlength, hr.readerKeys_eq]
  exact mapM_text?_row x

/-- A row of the open feature gives the values of its columns. -/
theorem push_of_current (hr : Replaying tree featureType r) (hx : x.IsSound)
    (hmem : x.chain ∈ tree.numberedChains) (hread : isReadChain x.chain = true)
    (hcurrent : r.current = some ((x.keys.map Cell.text).headD "")) :
    r.push (x.tagged tree) =
      (.ok (columnEvents ((r.multiplicities.visitAll (visitsOf x.chain x.keys)).countsOf x.ids)
          (lastTable x.chain).columns x.values),
        { r with
          rows := r.rows + 1
          multiplicities := r.multiplicities.visitAll (visitsOf x.chain x.keys) }) := by
  have hkeysEnd : r.readerKeys + (chainLayout [] x.chain).chain.length = x.keys.length := by
    rw [hr.readerKeys_eq, chainLayout, List.length_map, hx.length_eq, Nat.zero_add]
  rw [push_eq_pushKeyed hr hx hmem hread]
  simp only [pushKeyed, openFeature, if_pos hcurrent, hkeysEnd, Multiplicities.track_eq,
    List.nil_append, List.map_map]
  rw [← flatMap_zipIdx_eq_columnEvents _ x hx.values_length]
  rfl

/-- The root row of another feature closes the open one and begins its own. -/
theorem push_of_new {row : NestedRow} (hr : Replaying tree featureType r)
    (hx : x = ⟨[(0, tree.root)], [row.key], row.values⟩) (hsound : x.IsSound)
    (hmem : x.chain ∈ tree.numberedChains) (hread : isReadChain x.chain = true)
    (hfirst : (x.tagged tree).group = 0) (hcurrent : r.current ≠ some row.key.text) :
    r.push (x.tagged tree) =
      (.ok (r.closing ++ .featureStart featureType (featureId tree.root row) ::
          columnEvents ((r.multiplicities.reset.visitAll (visitsOf x.chain x.keys)).countsOf x.ids)
            tree.root.columns row.values),
        { r with
          rows := r.rows + 1
          multiplicities := r.multiplicities.reset.visitAll (visitsOf x.chain x.keys)
          current := some row.key.text
          features := r.features + 1 }) := by
  have hkeysEnd : r.readerKeys + (chainLayout [] x.chain).chain.length = x.keys.length := by
    rw [hr.readerKeys_eq, chainLayout, List.length_map, hsound.length_eq, Nat.zero_add]
  have hid : (((chainLayout [] x.chain).identifier?.bind fun i =>
      x.row.text? (x.keys.length + i)).getD row.key.text) = featureId tree.root row := by
    simp only [text?_row, featureId, GroupLayout.identifier?]
    subst hx
    rfl
  have hkeys : x.keys.map Cell.text = [row.key.text] := by
    rw [hx]
    rfl
  have hvalues : ∀ counts, columnEvents counts tree.root.columns row.values =
      (chainLayout [] x.chain).columns.zipIdx.flatMap fun (column, i) =>
        valueEvents counts column.property (x.row.text? (x.keys.length + i)) := by
    intro counts
    rw [chainLayout, flatMap_zipIdx_eq_columnEvents counts x hsound.values_length, hx]
    rfl
  rw [push_eq_pushKeyed hr hsound hmem hread, hvalues]
  simp only [pushKeyed, hkeys, List.headD_cons, hfirst, if_true, hkeysEnd, hid, openFeature,
    if_neg hcurrent, Multiplicities.track_eq]
  subst hx
  simp only [hr.featureType_eq, List.append_assoc, List.cons_append, List.nil_append]
  rfl

end Push

/-! ## Rows below a row -/

section Below

variable {tree : TableTree} {featureType : String}

/-- The rows with these keys along a chain were read last, and belong to the open feature. -/
structure AtRow (tree : TableTree) (featureType : String) (above : List (Nat × Table))
    (keys : List Cell) (r : Reconstruction) : Prop where
  replaying : Replaying tree featureType r
  length_eq : above.length = keys.length
  sortable : ∀ key ∈ keys, key.isSortable = true
  current : ∃ key more, keys = key :: more ∧ r.current = some key.text
  isAt : r.multiplicities.IsAt (visitsOf above keys)

/-- The rows below a row of a chain give their events and change only the counters of their tables,
if those are at zero before. -/
def ReplaysBelow (tree : TableTree) (featureType : String) (above : List (Nat × Table)) (id : Nat)
    (l : List TableTree) : Prop :=
  ∀ (keys : List Cell) (blocks : List (List NestedRow)) (r : Reconstruction),
    NestedRow.FitsBelow l blocks → AtRow tree featureType above keys r →
    (∀ k, id ≤ k → k < id + TableTree.sizeOfList l →
      r.multiplicities.counter k = Counter.zero) →
    ∃ last, Pushes r
        ((readRows (TableTree.listedBelow above keys id l blocks)).map (ListedRow.tagged tree))
        (TableTree.rowEventsBelow (r.multiplicities.countsOf (above.map Prod.fst)) l blocks) last ∧
      AtRow tree featureType above keys last ∧
      Multiplicities.SameOutside id (id + TableTree.sizeOfList l) r.multiplicities
        last.multiplicities

variable {parent : Option Nat} {depth id : Nat} {table : Table} {children : List TableTree}
  {above : List (Nat × Table)} {keys : List Cell} {row : NestedRow} {r : Reconstruction}

/-- The state in which a new row of a table was read, together with the rows above it. -/
def Reconstruction.advanced (r : Reconstruction) (rows id : Nat) (key : Cell) : Reconstruction :=
  { r with rows := rows, multiplicities := r.multiplicities.advance id (some key.text) }

theorem atRow_advanced (hat : AtRow tree featureType above keys r)
    (hholds : (Arena.ofTree tree).Holds parent depth id (.node table children))
    (hlt : ∀ e ∈ above, e.1 < id) (hkey : row.key.isSortable = true) (rows : Nat) :
    AtRow tree featureType (above ++ [(id, table)]) (keys ++ [row.key])
      (r.advanced rows id row.key) := by
  obtain ⟨key, more, rfl, hcurrent⟩ := hat.current
  refine ⟨⟨hat.replaying.featureType_eq, hat.replaying.readerKeys_eq, hat.replaying.groups_eq,
    hat.replaying.isOf.advance _ _⟩, by simp [hat.length_eq], ?_, ⟨key, more ++ [row.key], rfl,
    hcurrent⟩, ?_⟩
  · intro other hother
    rcases List.mem_append.1 hother with hother | hother
    · exact hat.sortable other hother
    · rw [List.mem_singleton.1 hother]
      exact hkey
  · rw [visitsOf_append hat.length_eq]
    exact Multiplicities.isAt_advance hat.replaying.isOf hholds hat.isAt (lt_of_mem_visitsOf hlt)

/-- The counts along a chain when a new row was read at its end. -/
theorem countsOf_advanced (hat : AtRow tree featureType above keys r)
    (hholds : (Arena.ofTree tree).Holds parent depth id (.node table children))
    (hlt : ∀ e ∈ above, e.1 < id) (key : Option String) :
    (r.multiplicities.advance id key).countsOf ((above ++ [(id, table)]).map Prod.fst) =
      countsWith (r.multiplicities.countsOf (above.map Prod.fst)) table
        (r.multiplicities.counter id).count := by
  have hisOf := hat.replaying.isOf
  have hmulti : (r.multiplicities.advance id key).isMultiValued id = table.kind.isMultiValued := by
    rw [Multiplicities.isMultiValued, show (r.multiplicities.advance id key).arena = _ from
      hisOf.arena_eq, hholds.get?_eq]
    rfl
  have habove : (r.multiplicities.advance id key).countsOf (above.map Prod.fst) =
      r.multiplicities.countsOf (above.map Prod.fst) := by
    refine Multiplicities.countsOf_congr rfl fun k hk => ?_
    obtain ⟨e, he, rfl⟩ := List.mem_map.1 hk
    exact Multiplicities.counter_advance_of_lt hisOf hholds (hlt e he)
  rw [← habove, List.map_append, Multiplicities.countsOf, List.filter_append, List.map_append,
    countsWith, ← hmulti]
  show _ ++ ([id].filter _).map _ = _
  -- only a table that may have several rows adds a count
  cases hm : (r.multiplicities.advance id key).isMultiValued id with
  | false =>
    rw [List.filter_cons_of_neg (by simp [hm])]
    simp [Multiplicities.countsOf]
  | true =>
    rw [List.filter_cons_of_pos hm, if_pos rfl, List.filter_nil, List.map_singleton,
      Multiplicities.count_eq, Multiplicities.counter_advance_of_holds hisOf hholds, if_pos rfl]
    rfl

/-- A row listed below the rows read last is a row of the open feature. -/
theorem current_of_begins {x : ListedRow} {more : List Cell}
    (hat : AtRow tree featureType above keys r) (hkeys : x.keys = keys ++ more) :
    r.current = some ((x.keys.map Cell.text).headD "") := by
  obtain ⟨key, others, rfl, hcurrent⟩ := hat.current
  rw [hcurrent, hkeys]
  rfl

/-- Rows below a new row can be pushed without it. -/
theorem pushes_of_advanced {rows : List ListedRow} {events : List Event} {last : Reconstruction}
    (hat : AtRow tree featureType above keys r)
    (hholds : (Arena.ofTree tree).Holds parent depth id (.node table children))
    (hlt : ∀ e ∈ above, e.1 < id) (hkey : row.key.isSortable = true)
    (hnew : r.multiplicities.last id ≠ some row.key.text) (hne : rows ≠ [])
    (hrows : ∀ x ∈ rows, x.IsSound ∧ x.chain ∈ tree.numberedChains ∧
      isReadChain x.chain = true ∧ ∃ chain more, x.chain = above ++ [(id, table)] ++ chain ∧
        x.keys = keys ++ [row.key] ++ more)
    (h : Pushes (r.advanced r.rows id row.key) (rows.map (ListedRow.tagged tree)) events last) :
    Pushes r (rows.map (ListedRow.tagged tree)) events last := by
  obtain ⟨x, rest, rfl⟩ := List.exists_cons_of_ne_nil hne
  obtain ⟨hsound, hmem, hread, chain, more, hchain, hkeys⟩ := hrows x List.mem_cons_self
  have hat' := atRow_advanced hat hholds hlt hkey r.rows
  have hvisits : visitsOf x.chain x.keys =
      visitsOf above keys ++ [(id, some row.key.text)] ++ visitsOf chain more := by
    rw [hchain, hkeys, visitsOf_append hat'.length_eq, visitsOf_append hat.length_eq]
    rfl
  -- the first of the rows brings the counters to the same state from both sides
  have hsame := Multiplicities.visitAll_of_advance hat.replaying.isOf hholds hat.isAt
    (lt_of_mem_visitsOf hlt) hnew (visitsOf chain more)
  have hpush : r.push (x.tagged tree) =
      (r.advanced r.rows id row.key).push (x.tagged tree) := by
    rw [push_of_current hat.replaying hsound hmem hread
        (current_of_begins hat (by rw [hkeys, List.append_assoc])),
      push_of_current hat'.replaying hsound hmem hread (current_of_begins hat' hkeys)]
    simp only [Reconstruction.advanced, hvisits, hsame]
  rw [List.map_cons] at h ⊢
  cases h with
  | cons hfirst hrest => exact Pushes.cons (hpush.trans hfirst) hrest

theorem readRows_cons (x : ListedRow) (rows : List ListedRow) :
    readRows (x :: rows) =
      if isReadChain x.chain = true then x :: readRows rows else readRows rows := by
  rw [readRows, List.filter_cons]
  rfl

mutual
/-- Rows that show something are not all left out. -/
theorem readRows_ne_nil_of_shows : ∀ {t : TableTree} {above : List (Nat × Table)}
    {keys : List Cell} {id : Nat} {rows : List NestedRow}, NestedRow.Shows t rows →
      readRows (t.listed above keys id rows) ≠ []
  | .node table children, above, keys, id, rows, h => by
    rw [NestedRow.Shows] at h
    obtain ⟨row, hrow, hcolumns | hbelow⟩ := h
    · refine List.ne_nil_of_mem (List.mem_filter.2 ⟨List.mem_flatMap.2 ⟨row, hrow,
        List.mem_cons_self⟩, ?_⟩)
      rw [isReadChain, lastTable_append, Table.isRead]
      simp [hcolumns]
    · obtain ⟨x, hx⟩ := List.exists_mem_of_ne_nil _ (readRows_ne_nil_of_showsBelow hbelow)
      obtain ⟨hx, hread⟩ := List.mem_filter.1 hx
      exact List.ne_nil_of_mem (List.mem_filter.2 ⟨List.mem_flatMap.2 ⟨row, hrow,
        List.mem_cons_of_mem _ hx⟩, hread⟩)

theorem readRows_ne_nil_of_showsBelow : ∀ {l : List TableTree} {above : List (Nat × Table)}
    {keys : List Cell} {id : Nat} {blocks : List (List NestedRow)}, NestedRow.ShowsBelow l blocks →
      readRows (TableTree.listedBelow above keys id l blocks) ≠ []
  | tree :: trees, above, keys, id, rows :: others, h => by
    rw [NestedRow.ShowsBelow] at h
    rw [TableTree.listedBelow, readRows, List.filter_append]
    rcases h with h | h
    · exact List.append_ne_nil_of_left_ne_nil (readRows_ne_nil_of_shows h) _
    · exact List.append_ne_nil_of_right_ne_nil _ (readRows_ne_nil_of_showsBelow h)
  | [], _, _, _, [], h => by simp [NestedRow.ShowsBelow] at h
  | [], _, _, _, _ :: _, h => by simp [NestedRow.ShowsBelow] at h
  | _ :: _, _, _, _, [], h => by simp [NestedRow.ShowsBelow] at h
end

/-- What is known of the rows above when those below a new row were pushed. -/
theorem atRow_of_advanced {last : Reconstruction} (hat : AtRow tree featureType above keys r)
    (hlast : AtRow tree featureType (above ++ [(id, table)]) (keys ++ [row.key]) last) :
    AtRow tree featureType above keys last := by
  obtain ⟨key, more, rfl, -⟩ := hat.current
  obtain ⟨key', more', hkeys, hcurrent⟩ := hlast.current
  obtain ⟨rfl, -⟩ := List.cons.inj hkeys
  refine ⟨hlast.replaying, hat.length_eq, hat.sortable, ⟨key, more, rfl, hcurrent⟩, ?_⟩
  intro v hv
  refine hlast.isAt v ?_
  rw [visitsOf_append hat.length_eq]
  exact List.mem_append_left _ hv

/-- The rows below a new row, pushed behind it. -/
theorem pushes_below_advanced (hat : AtRow tree featureType above keys r)
    (hholds : (Arena.ofTree tree).Holds parent depth id (.node table children))
    (hlt : ∀ e ∈ above, e.1 < id)
    (hbelow : ReplaysBelow tree featureType (above ++ [(id, table)]) (id + 1) children)
    (hkey : row.key.isSortable = true) (hfits : NestedRow.FitsBelow children row.blocks)
    (rows : Nat) :
    ∃ last, Pushes (r.advanced rows id row.key)
        ((readRows (TableTree.listedBelow (above ++ [(id, table)]) (keys ++ [row.key]) (id + 1)
          children row.blocks)).map (ListedRow.tagged tree))
        (TableTree.rowEventsBelow (countsWith (r.multiplicities.countsOf (above.map Prod.fst)) table
          (r.multiplicities.counter id).count) children row.blocks) last ∧
      AtRow tree featureType above keys last ∧
      Multiplicities.SameOutside id (id + (TableTree.node table children).size) r.multiplicities
        last.multiplicities ∧
      last.multiplicities.counter id =
        ⟨some row.key.text, (r.multiplicities.counter id).count + 1⟩ := by
  have hadvance := fun k => @Multiplicities.counter_advance_of_holds _ _ _ _ _ _
    (some row.key.text) hat.replaying.isOf hholds k
  have hsize : (TableTree.node table children).size = TableTree.sizeOfList children + 1 := rfl
  obtain ⟨last, hpush, hlast, hsame⟩ := hbelow _ _ _ hfits
    (atRow_advanced hat hholds hlt hkey rows) (fun k hlow hhigh => by
      show (r.multiplicities.advance id (some row.key.text)).counter k = _
      rw [hadvance, if_neg (by omega), if_pos (by omega)])
  refine ⟨last, ?_, atRow_of_advanced hat hlast, fun k hk => ?_, ?_⟩
  · rw [← countsOf_advanced hat hholds hlt (some row.key.text)]
    exact hpush
  · rw [hsame k (by omega)]
    show (r.multiplicities.advance id (some row.key.text)).counter k = _
    rw [hadvance, if_neg (by have := hk; omega), if_neg (by omega)]
  · rw [hsame id (by omega)]
    show (r.multiplicities.advance id (some row.key.text)).counter id = _
    rw [hadvance, if_pos rfl]

/-- The counts along a chain stay while only tables with other numbers are counted. -/
theorem countsOf_of_sameOutside {next : Reconstruction} {high : Nat}
    (hat : AtRow tree featureType above keys r) (hnext : AtRow tree featureType above keys next)
    (hlt : ∀ e ∈ above, e.1 < id)
    (hsame : Multiplicities.SameOutside id high r.multiplicities next.multiplicities) :
    next.multiplicities.countsOf (above.map Prod.fst) =
      r.multiplicities.countsOf (above.map Prod.fst) := by
  refine Multiplicities.countsOf_congr ?_ fun k hk => ?_
  · rw [hnext.replaying.isOf.arena_eq, hat.replaying.isOf.arena_eq]
  · obtain ⟨e, he, rfl⟩ := List.mem_map.1 hk
    exact hsame e.1 (Or.inl (hlt e he))

/-- One row with all rows below it. -/
theorem pushes_row (hat : AtRow tree featureType above keys r)
    (hholds : (Arena.ofTree tree).Holds parent depth id (.node table children))
    (hlt : ∀ e ∈ above, e.1 < id)
    (hchains : ∀ c ∈ (TableTree.node table children).numberedFrom above id,
      c ∈ tree.numberedChains)
    (hbelow : ReplaysBelow tree featureType (above ++ [(id, table)]) (id + 1) children)
    (hkey : row.key.isSortable = true) (hvalues : row.values.length = table.columns.length)
    (hfits : NestedRow.FitsBelow children row.blocks)
    (hshows : table.isRead = false → NestedRow.ShowsBelow children row.blocks)
    (hnew : r.multiplicities.last id ≠ some row.key.text) :
    ∃ last, Pushes r ((readRows (⟨above ++ [(id, table)], keys ++ [row.key], row.values⟩ ::
          TableTree.listedBelow (above ++ [(id, table)]) (keys ++ [row.key]) (id + 1) children
            row.blocks)).map (ListedRow.tagged tree))
        (columnEvents (countsWith (r.multiplicities.countsOf (above.map Prod.fst)) table
            (r.multiplicities.counter id).count) table.columns row.values ++
          TableTree.rowEventsBelow (countsWith (r.multiplicities.countsOf (above.map Prod.fst))
            table (r.multiplicities.counter id).count) children row.blocks) last ∧
      AtRow tree featureType above keys last ∧
      Multiplicities.SameOutside id (id + (TableTree.node table children).size) r.multiplicities
        last.multiplicities ∧
      last.multiplicities.counter id =
        ⟨some row.key.text, (r.multiplicities.counter id).count + 1⟩ := by
  have hmem : above ++ [(id, table)] ∈ tree.numberedChains := hchains _ List.mem_cons_self
  cases hread : table.isRead with
  | true =>
    -- the row is pushed first, and advances the counter of its table
    obtain ⟨last, hpush, hlast⟩ := pushes_below_advanced hat hholds hlt hbelow hkey hfits
      (r.rows + 1)
    refine ⟨last, ?_, hlast⟩
    have hsound : (⟨above ++ [(id, table)], keys ++ [row.key], row.values⟩ : ListedRow).IsSound :=
      ⟨by simp [hat.length_eq], (atRow_advanced hat hholds hlt hkey r.rows).sortable,
        by rw [hvalues, lastTable_append]⟩
    have hreadChain : isReadChain (above ++ [(id, table)]) = true := by
      rw [isReadChain, lastTable_append, hread]
    have hfirst := push_of_current hat.replaying hsound hmem hreadChain
      (current_of_begins hat rfl)
    simp only [visitsOf_append hat.length_eq, ListedRow.ids, lastTable_append] at hfirst
    rw [show visitsOf [(id, table)] [row.key] = [(id, some row.key.text)] from rfl,
      Multiplicities.visitAll_concat hat.isAt hnew, countsOf_advanced hat hholds hlt] at hfirst
    rw [readRows_cons, if_pos hreadChain, List.map_cons]
    exact Pushes.cons hfirst hpush
  | false =>
    -- the row is not pushed; the first row below it advances the counter
    obtain ⟨last, hpush, hlast⟩ := pushes_below_advanced hat hholds hlt hbelow hkey hfits r.rows
    refine ⟨last, ?_, hlast⟩
    have hcolumns : table.columns = [] := by
      rw [Table.isRead, Bool.or_eq_false_iff] at hread
      simpa using hread.2
    have hreadChain : isReadChain (above ++ [(id, table)]) = false := by
      rw [isReadChain, lastTable_append, hread]
    rw [readRows_cons, if_neg (by simp [hreadChain]), hcolumns, columnEvents,
      List.zip_nil_left, List.flatMap_nil, List.nil_append]
    refine pushes_of_advanced hat hholds hlt hkey hnew
      (readRows_ne_nil_of_showsBelow (hshows hread)) (fun x hx => ?_) hpush
    obtain ⟨hx, hreadx⟩ := List.mem_filter.1 hx
    obtain ⟨k, next, chain, key, more, -, hchain, hkeys⟩ :=
      TableTree.begins_of_mem_listedBelow hx
    have hat' := atRow_advanced hat hholds hlt hkey r.rows
    exact ⟨TableTree.isSound_of_mem_listedBelow hat'.length_eq hat'.sortable hfits hx,
      hchains _ (List.mem_cons_of_mem _ (TableTree.chain_mem_of_mem_listedBelow hx)), hreadx,
      _, _, hchain, hkeys⟩

/-- Several siblings, each with all rows below it. -/
theorem pushes_rows
    (hholds : (Arena.ofTree tree).Holds parent depth id (.node table children))
    (hlt : ∀ e ∈ above, e.1 < id)
    (hchains : ∀ c ∈ (TableTree.node table children).numberedFrom above id,
      c ∈ tree.numberedChains)
    (hbelow : ReplaysBelow tree featureType (above ++ [(id, table)]) (id + 1) children) :
    ∀ {rows : List NestedRow} {r : Reconstruction}, AtRow tree featureType above keys r →
    NestedRow.Fits (.node table children) rows →
    (∀ row ∈ rows.head?, r.multiplicities.last id ≠ some row.key.text) →
    ∃ last, Pushes r ((readRows ((TableTree.node table children).listed above keys id rows)).map
          (ListedRow.tagged tree))
        ((TableTree.node table children).rowEvents
          (r.multiplicities.countsOf (above.map Prod.fst)) (r.multiplicities.counter id).count rows)
        last ∧
      AtRow tree featureType above keys last ∧
      Multiplicities.SameOutside id (id + (TableTree.node table children).size) r.multiplicities
        last.multiplicities := by
  intro rows
  induction rows with
  | nil =>
    intro r hat _ _
    exact ⟨r, Pushes.nil r, hat, fun _ _ => rfl⟩
  | cons row rows ih =>
    intro r hat hfits hnew
    rw [NestedRow.Fits] at hfits
    obtain ⟨hsorted, hrows⟩ := hfits
    obtain ⟨hfirst, hsorted⟩ := List.pairwise_cons.1 hsorted
    obtain ⟨⟨hkey, hvalues, hfitsBelow, hshows⟩, hrows⟩ := List.forall_mem_cons.1 hrows
    obtain ⟨next, hpush, hnext, hsame, hcounter⟩ := pushes_row hat hholds hlt hchains hbelow hkey
      hvalues hfitsBelow hshows (hnew row rfl)
    -- the counter tells keys apart by their texts
    have hother : ∀ other ∈ rows.head?, next.multiplicities.last id ≠ some other.key.text := by
      intro other hother
      obtain ⟨hkind, hless⟩ := hfirst other (List.mem_of_mem_head? hother)
      rw [Multiplicities.last_eq, hcounter]
      intro heq
      exact text_ne_of_compareCells_lt hkey hkind hless (Option.some.inj heq)
    obtain ⟨last, hpush', hlast, hsame'⟩ := ih hnext (by
      rw [NestedRow.Fits]
      exact ⟨hsorted, hrows⟩) hother
    refine ⟨last, ?_, hlast, hsame.trans hsame'⟩
    rw [countsOf_of_sameOutside hat hnext hlt hsame, hcounter] at hpush'
    rw [TableTree.listed, TableTree.rowEvents] at hpush' ⊢
    rw [List.flatMap_cons, readRows, List.filter_append, List.map_append, List.zipIdx_cons,
      List.flatMap_cons]
    exact hpush.append hpush'

mutual
/-- The rows of a tree below a row that was read last. -/
theorem pushes_listed : ∀ {t : TableTree} {parent : Option Nat} {depth id : Nat}
    {above : List (Nat × Table)}, (Arena.ofTree tree).Holds parent depth id t →
    (∀ e ∈ above, e.1 < id) → (∀ c ∈ t.numberedFrom above id, c ∈ tree.numberedChains) →
    ∀ {keys : List Cell} {rows : List NestedRow} {r : Reconstruction},
      AtRow tree featureType above keys r → NestedRow.Fits t rows →
      (∀ row ∈ rows.head?, r.multiplicities.last id ≠ some row.key.text) →
      ∃ last, Pushes r ((readRows (t.listed above keys id rows)).map (ListedRow.tagged tree))
          (t.rowEvents (r.multiplicities.countsOf (above.map Prod.fst))
            (r.multiplicities.counter id).count rows) last ∧
        AtRow tree featureType above keys last ∧
        Multiplicities.SameOutside id (id + t.size) r.multiplicities last.multiplicities
  | .node table children, parent, depth, id, above, hholds, hlt, hchains => by
    refine pushes_rows hholds hlt hchains (pushes_listedBelow hholds.below ?_ ?_)
    · intro e he
      rcases List.mem_append.1 he with he | he
      · exact Nat.lt_succ_of_lt (hlt e he)
      · rw [List.mem_singleton.1 he]
        exact Nat.lt_succ_self id
    · intro c hc
      exact hchains c (List.mem_cons_of_mem _ hc)

/-- The rows below a row give their events and change only the counters of their tables. -/
theorem pushes_listedBelow : ∀ {l : List TableTree} {parent depth id : Nat}
    {above : List (Nat × Table)}, (Arena.ofTree tree).HoldsList parent depth id l →
    (∀ e ∈ above, e.1 < id) →
    (∀ c ∈ TableTree.numberedFromList above id l, c ∈ tree.numberedChains) →
      ReplaysBelow tree featureType above id l
  | [], _, _, _, _, _, _, _ => by
    intro keys blocks r hfits hat _
    cases blocks with
    | nil => exact ⟨r, Pushes.nil r, hat, fun _ _ => rfl⟩
    | cons rows others => simp [NestedRow.FitsBelow] at hfits
  | t :: trees, parent, depth, id, above, hholds, hlt, hchains => by
    intro keys blocks r hfits hat hzero
    cases blocks with
    | nil => simp [NestedRow.FitsBelow] at hfits
    | cons rows others =>
      rw [NestedRow.FitsBelow] at hfits
      rw [TableTree.numberedFromList] at hchains
      -- the tables of later siblings are not touched, so their counters are still at zero
      have hfirst := hzero id (Nat.le_refl _) (by
        have := t.size_pos
        rw [TableTree.sizeOfList]
        omega)
      obtain ⟨next, hpush, hnext, hsame⟩ := pushes_listed hholds.first hlt
        (fun c hc => hchains c (List.mem_append_left _ hc)) hat hfits.1 (fun row _ => by
          rw [Multiplicities.last_eq, hfirst]
          exact (Option.some_ne_none _).symm)
      have hothers := pushes_listedBelow hholds.others
        (fun e he => Nat.lt_of_lt_of_le (hlt e he) (Nat.le_add_right _ _))
        (fun c hc => hchains c (List.mem_append_right _ hc))
      obtain ⟨last, hpush', hlast, hsame'⟩ := hothers _ _ _ hfits.2 hnext (fun k hlow hhigh => by
        rw [hsame k (Or.inr hlow)]
        refine hzero k (by omega) ?_
        rw [TableTree.sizeOfList]
        omega)
      refine ⟨last, ?_, hlast, ?_⟩
      · rw [countsOf_of_sameOutside hat hnext hlt hsame] at hpush'
        rw [hfirst] at hpush
        rw [TableTree.listedBelow, readRows, List.filter_append, List.map_append,
          TableTree.rowEventsBelow]
        exact hpush.append hpush'
      · rw [TableTree.sizeOfList]
        exact (hsame.mono (Nat.le_refl _) (by omega)).trans
          (hsame'.mono (Nat.le_add_right _ _) (by omega))
end

end Below

end FeatureStore
