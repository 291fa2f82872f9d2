import FeatureStore.Proofs.Table.Derived
import FeatureStore.Table.Arena

/-!
# The numbers of tables

In the arena of a tree the tables of every part of the tree stand next to each other, from the
number of the part's top on, and the table behind them lies no deeper than the top
(`Arena.Holds`). This says which table a number stands for and which number its parent has
(`Holds.get?_eq`), that the descendants of a table are the numbers from there to the end of its
part (`Holds.mem_descendants`), and, where every table has a path of its own, that a path is found
again (`Arena.idOf?_path`). So the tables of a derived tree are identified by their paths
(`TableTree.found_by_path`).
-/

set_option autoImplicit false

namespace FeatureStore

namespace TableTree

/-! ## The numbered tables of a tree -/

mutual
theorem length_number : ∀ (t : TableTree) (parent : Option Nat) (depth id : Nat),
    (t.number parent depth id).length = t.size
  | .node table children, parent, depth, id => by
    rw [number, List.length_cons, length_numberList, size]

theorem length_numberList : ∀ (l : List TableTree) (parent depth id : Nat),
    (numberList parent depth id l).length = sizeOfList l
  | [], _, _, _ => rfl
  | tree :: rest, parent, depth, id => by
    rw [numberList, List.length_append, length_number, length_numberList, sizeOfList]
end

theorem size_pos (t : TableTree) : 0 < t.size := by
  rcases t with ⟨table, children⟩
  exact Nat.succ_pos _

mutual
theorem paths_number : ∀ (t : TableTree) (parent : Option Nat) (depth id : Nat),
    (t.number parent depth id).map ArenaNode.path = t.tables.map Table.path
  | .node table children, parent, depth, id => by
    rw [number, List.map_cons, paths_numberList, tables, List.map_cons]

theorem paths_numberList : ∀ (l : List TableTree) (parent depth id : Nat),
    (numberList parent depth id l).map ArenaNode.path = (tablesOfList l).map Table.path
  | [], _, _, _ => rfl
  | tree :: rest, parent, depth, id => by
    rw [numberList, List.map_append, paths_number, paths_numberList, tablesOfList, List.map_append]
end

theorem length_tables (t : TableTree) : t.tables.length = t.size := by
  rw [← length_number t none 0 0, ← List.length_map Table.path, ← t.paths_number none 0 0,
    List.length_map]

mutual
/-- The tables of a tree lie no higher than its top. -/
theorem depth_le_of_mem_number : ∀ {t : TableTree} {parent : Option Nat} {depth id : Nat}
    {n : ArenaNode}, n ∈ t.number parent depth id → depth ≤ n.depth
  | .node table children, parent, depth, id, n, h => by
    rw [number] at h
    rcases List.mem_cons.1 h with rfl | h
    · exact Nat.le_refl _
    · exact Nat.le_of_succ_le (depth_le_of_mem_numberList h)

theorem depth_le_of_mem_numberList : ∀ {l : List TableTree} {parent depth id : Nat}
    {n : ArenaNode}, n ∈ numberList parent depth id l → depth ≤ n.depth
  | [], _, _, _, _, h => by simp [numberList] at h
  | tree :: rest, parent, depth, id, n, h => by
    rw [numberList] at h
    rcases List.mem_append.1 h with h | h
    · exact depth_le_of_mem_number h
    · exact depth_le_of_mem_numberList h
end

/-- The top of a tree as it is numbered. -/
def topNode (parent : Option Nat) (depth id : Nat) (t : TableTree) : ArenaNode :=
  { name := t.root.name
    path := t.root.path
    kind := t.root.kind
    parent := parent
    depth := depth
    children := childIds (id + 1) t.children
    hasColumns := !t.root.columns.isEmpty }

theorem number_eq_cons (t : TableTree) (parent : Option Nat) (depth id : Nat) :
    t.number parent depth id =
      t.topNode parent depth id :: numberList id (depth + 1) (id + 1) t.children := by
  rcases t with ⟨table, children⟩
  rfl

end TableTree

/-! ## Parts of a tree in its arena -/

namespace Arena

/-- The tables of a tree stand in the arena from the number of its top on, and the table behind them
lies no deeper than the top. -/
def Holds (a : Arena) (parent : Option Nat) (depth id : Nat) (t : TableTree) : Prop :=
  ∃ before behind, a.nodes = before ++ t.number parent depth id ++ behind ∧ before.length = id ∧
    ∀ n ∈ behind.head?, n.depth ≤ depth

/-- The tables of trees below a table stand in the arena, and the table behind them lies higher. -/
def HoldsList (a : Arena) (parent depth id : Nat) (l : List TableTree) : Prop :=
  ∃ before behind, a.nodes = before ++ TableTree.numberList parent depth id l ++ behind ∧
    before.length = id ∧ ∀ n ∈ behind.head?, n.depth < depth

theorem holds_ofTree (t : TableTree) : (ofTree t).Holds none 0 0 t :=
  ⟨[], [], by simp [ofTree], rfl, by simp⟩

variable {a : Arena} {depth id : Nat}

section Parts

variable {parent : Option Nat} {t : TableTree}

/-- What lies below the top of a part are parts again. -/
theorem Holds.below (h : a.Holds parent depth id t) :
    a.HoldsList id (depth + 1) (id + 1) t.children := by
  obtain ⟨before, behind, hnodes, hlength, hbehind⟩ := h
  refine ⟨before ++ [t.topNode parent depth id], behind, ?_, by simp [hlength], ?_⟩
  · rw [hnodes, TableTree.number_eq_cons]
    simp
  · intro n hn
    exact Nat.lt_succ_of_le (hbehind n hn)

theorem HoldsList.first {parent : Nat} {rest : List TableTree}
    (h : a.HoldsList parent depth id (t :: rest)) : a.Holds (some parent) depth id t := by
  obtain ⟨before, behind, hnodes, hlength, hbehind⟩ := h
  rw [TableTree.numberList] at hnodes
  refine ⟨before, TableTree.numberList parent depth (id + t.size) rest ++ behind, ?_, hlength, ?_⟩
  · simpa using hnodes
  · intro n hn
    cases rest with
    | nil => exact Nat.le_of_lt (hbehind n hn)
    | cons next rest =>
      rw [TableTree.numberList, TableTree.number_eq_cons] at hn
      obtain rfl : _ = n := by simpa using hn
      exact Nat.le_refl _

theorem HoldsList.others {parent : Nat} {rest : List TableTree}
    (h : a.HoldsList parent depth id (t :: rest)) :
    a.HoldsList parent depth (id + t.size) rest := by
  obtain ⟨before, behind, hnodes, hlength, hbehind⟩ := h
  rw [TableTree.numberList] at hnodes
  refine ⟨before ++ t.number (some parent) depth id, behind, ?_, ?_, hbehind⟩
  · simpa using hnodes
  · rw [List.length_append, hlength, TableTree.length_number]

theorem Holds.get?_eq (h : a.Holds parent depth id t) :
    a.get? id = some (t.topNode parent depth id) := by
  obtain ⟨before, behind, hnodes, rfl, -⟩ := h
  rw [get?, hnodes, TableTree.number_eq_cons]
  simp

theorem Holds.parent?_eq (h : a.Holds parent depth id t) : a.parent? id = parent := by
  rw [parent?, h.get?_eq]
  rfl

theorem Holds.path_eq (h : a.Holds parent depth id t) : a.path id = t.root.path := by
  rw [path, h.get?_eq]
  rfl

theorem Holds.le_size (h : a.Holds parent depth id t) : id + t.size ≤ a.size := by
  obtain ⟨before, behind, hnodes, rfl, -⟩ := h
  rw [size, hnodes, List.length_append, List.length_append, TableTree.length_number]
  omega

theorem Holds.lt_size (h : a.Holds parent depth id t) : id < a.size :=
  Nat.lt_of_lt_of_le (Nat.lt_add_of_pos_right t.size_pos) h.le_size

/-- The descendants of a table are the numbers of the tables below it. -/
theorem Holds.descendants_eq (h : a.Holds parent depth id t) : a.descendants id =
    (List.range (TableTree.sizeOfList t.children)).map (id + 1 + ·) := by
  have hget := h.get?_eq
  obtain ⟨before, behind, hnodes, hlength, hbehind⟩ := h
  have hdrop : a.nodes.drop (id + 1) =
      TableTree.numberList id (depth + 1) (id + 1) t.children ++ behind := by
    rw [hnodes, ← hlength, List.append_assoc, List.drop_append, TableTree.number_eq_cons]
    simp
  have hall : ∀ n ∈ TableTree.numberList id (depth + 1) (id + 1) t.children,
      decide (depth < n.depth) = true := fun n hn =>
    decide_eq_true (TableTree.depth_le_of_mem_numberList hn)
  -- the table behind the part lies too high to be taken
  have hstop : behind.takeWhile (fun other => decide (depth < other.depth)) = [] := by
    cases behind with
    | nil => rfl
    | cons n rest =>
      have := hbehind n rfl
      rw [List.takeWhile_cons, if_neg]
      simpa using this
  rw [descendants, hget]
  show (List.range ((a.nodes.drop (id + 1)).takeWhile fun other =>
    decide (depth < other.depth)).length).map (id + 1 + ·) = _
  rw [hdrop, List.takeWhile_append_of_pos hall, hstop, List.append_nil,
    TableTree.length_numberList]

/-- The descendants of a table are the other tables of its part. -/
theorem Holds.mem_descendants (h : a.Holds parent depth id t) {k : Nat} :
    k ∈ a.descendants id ↔ id < k ∧ k < id + t.size := by
  have hsize : t.size = TableTree.sizeOfList t.children + 1 := by
    rcases t with ⟨table, children⟩
    rfl
  rw [h.descendants_eq, List.mem_map]
  constructor
  · rintro ⟨j, hj, rfl⟩
    rw [List.mem_range] at hj
    omega
  · rintro ⟨hlow, hhigh⟩
    exact ⟨k - (id + 1), by rw [List.mem_range]; omega, by omega⟩

end Parts

mutual
/-- Every number in the range of a part is the top of a part; one other than the top of the whole
has its parent in the range. -/
theorem Holds.exists_part : ∀ {t : TableTree} {parent : Option Nat} {depth id k : Nat},
    a.Holds parent depth id t → id ≤ k → k < id + t.size →
      ∃ above below sub, a.Holds above below k sub ∧
        (k = id ∧ above = parent ∧ sub = t ∨ ∃ p, above = some p ∧ id ≤ p ∧ p < k)
  | .node table children, parent, depth, id, k, h, hlow, hhigh => by
    by_cases hk : k = id
    · subst hk
      exact ⟨_, _, _, h, Or.inl ⟨rfl, rfl, rfl⟩⟩
    · rw [TableTree.size] at hhigh
      obtain ⟨p, below, sub, hsub, hp⟩ := h.below.exists_part (k := k) (by omega) (by
        show k < id + 1 + TableTree.sizeOfList children
        omega)
      refine ⟨some p, below, sub, hsub, Or.inr ⟨p, rfl, ?_⟩⟩
      rcases hp with rfl | hp
      · omega
      · omega

theorem HoldsList.exists_part : ∀ {l : List TableTree} {parent depth id k : Nat},
    a.HoldsList parent depth id l → id ≤ k → k < id + TableTree.sizeOfList l →
      ∃ p below sub, a.Holds (some p) below k sub ∧ (p = parent ∨ id ≤ p ∧ p < k)
  | [], _, _, _, _, _, hlow, hhigh => by
    rw [TableTree.sizeOfList] at hhigh
    omega
  | t :: rest, parent, depth, id, k, h, hlow, hhigh => by
    rw [TableTree.sizeOfList] at hhigh
    by_cases hk : k < id + t.size
    · obtain ⟨above, below, sub, hsub, hcases⟩ := h.first.exists_part hlow hk
      rcases hcases with ⟨rfl, rfl, rfl⟩ | ⟨p, rfl, hp⟩
      · exact ⟨parent, below, _, hsub, Or.inl rfl⟩
      · exact ⟨p, below, sub, hsub, Or.inr hp⟩
    · obtain ⟨p, below, sub, hsub, hp⟩ := h.others.exists_part (k := k) (by omega) (by omega)
      refine ⟨p, below, sub, hsub, ?_⟩
      rcases hp with rfl | hp
      · exact Or.inl rfl
      · have := t.size_pos
        exact Or.inr (by omega)
end

/-- Every number but that of the root has a parent with a smaller number. -/
theorem parent?_ofTree {t : TableTree} {k : Nat} (hk : k < (ofTree t).size) :
    (k = 0 ∧ (ofTree t).parent? k = none) ∨ ∃ p, (ofTree t).parent? k = some p ∧ p < k := by
  have hsize : (ofTree t).size = t.size := t.length_number none 0 0
  obtain ⟨above, below, sub, hsub, hcases⟩ :=
    (holds_ofTree t).exists_part (Nat.zero_le k) (by omega)
  rw [hsub.parent?_eq]
  rcases hcases with ⟨hk, habove, -⟩ | ⟨p, habove, -, hp⟩
  · exact Or.inl ⟨hk, habove⟩
  · exact Or.inr ⟨p, habove, hp⟩

/-! ## Paths and numbers -/

/-- In the arena of a derived tree, the path of a table leads back to its number. -/
theorem idOf?_path {tree : TableTree} (htree : tree.IsDerived) {k : Nat} {node : ArenaNode}
    (h : (ofTree tree).get? k = some node) : (ofTree tree).idOf? node.path = some k := by
  have hpaths : (ofTree tree).nodes.map ArenaNode.path = tree.tables.map Table.path :=
    tree.paths_number none 0 0
  have hnodup : ((ofTree tree).nodes.map ArenaNode.path).Nodup := by
    rw [hpaths]
    exact htree.nodup_paths
  have hbare : withoutSlashes node.path = node.path := by
    have hmem : node.path ∈ tree.tables.map Table.path := by
      rw [← hpaths]
      exact List.mem_map_of_mem (List.mem_of_getElem? h)
    obtain ⟨t, ht, hpath⟩ := List.mem_map.1 hmem
    rw [← hpath]
    exact htree.withoutSlashes_path ht
  obtain ⟨hk, hnode⟩ := List.getElem?_eq_some_iff.1 h
  rw [idOf?, hbare, List.findIdx?_eq_some_iff_getElem]
  -- an earlier table is not found, since it has another path
  refine ⟨hk, by rw [hnode]; exact beq_self_eq_true _, fun j hj => ?_⟩
  intro heq
  have hne := List.pairwise_iff_getElem.1 hnodup j k (by simpa using hj.trans hk)
    (by simpa using hk) hj
  rw [List.getElem_map, List.getElem_map, hnode] at hne
  exact hne (beq_iff_eq.1 heq)

theorem idOf?_path_of_lt {tree : TableTree} (htree : tree.IsDerived) {k : Nat}
    (hk : k < (ofTree tree).size) : (ofTree tree).idOf? ((ofTree tree).path k) = some k := by
  have hget : (ofTree tree).get? k = some (ofTree tree).nodes[k] := List.getElem?_eq_getElem hk
  rw [path, hget]
  exact idOf?_path htree hget

/-- A path that is found leads to a table with that path. -/
theorem get?_of_idOf? {path : String} {k : Nat} (h : a.idOf? path = some k) :
    ∃ node, a.get? k = some node ∧ node.path = withoutSlashes path := by
  obtain ⟨hk, hpath, -⟩ := List.findIdx?_eq_some_iff_getElem.1 h
  exact ⟨a.nodes[k], List.getElem?_eq_getElem hk, beq_iff_eq.1 hpath⟩

/-- The tables are numbered in pre-order. -/
theorem path_of_tables {tree : TableTree} {k : Nat} {t : Table} (h : tree.tables[k]? = some t) :
    (ofTree tree).path k = t.path := by
  have hpaths := congrArg (·[k]?) (tree.paths_number none 0 0)
  simp only [List.getElem?_map, h] at hpaths
  rw [path, get?, ofTree, hpaths]
  rfl

end Arena

/-- A path with some slashes in front. -/
def slashed (count : Nat) (path : String) : String :=
  String.ofList (List.replicate count '/') ++ path

/-- Slashes in front of a path do not count. -/
theorem withoutSlashes_slashed (count : Nat) (path : String) :
    withoutSlashes (slashed count path) = withoutSlashes path := by
  rw [withoutSlashes, withoutSlashes, slashed, String.toList_append, String.toList_ofList]
  induction count with
  | zero => rfl
  | succ count ih =>
    rw [List.replicate_succ, List.cons_append, dropSlashes, List.dropWhile_cons,
      if_pos (beq_self_eq_true '/')]
    exact ih

theorem Arena.idOf?_slashed (a : Arena) (count : Nat) (path : String) :
    a.idOf? (slashed count path) = a.idOf? path := by
  rw [Arena.idOf?, Arena.idOf?, withoutSlashes_slashed]

/-- In a derived tree, the path of a table leads back to the table. -/
theorem TableTree.find?_path {tree : TableTree} (htree : tree.IsDerived) {t : Table}
    (ht : t ∈ tree.tables) : tree.find? t.path = some t := by
  rw [find?, htree.withoutSlashes_path ht]
  exact find?_of_nodup_map htree.nodup_paths ht

/-- Paths identify the tables of a derived tree: no two tables have the same path, and looking for
the path of a table, with any number of slashes in front, gives its number in pre-order and the
table itself. -/
theorem TableTree.found_by_path {tree : TableTree} (htree : tree.IsDerived) :
    (tree.tables.map Table.path).Nodup ∧
      ∀ (k : Nat) (t : Table), tree.tables[k]? = some t →
        (Arena.ofTree tree).path k = t.path ∧ ∀ count : Nat,
          (Arena.ofTree tree).idOf? (slashed count t.path) = some k ∧
            tree.find? (slashed count t.path) = some t := by
  refine ⟨htree.nodup_paths, fun k t h => ?_⟩
  have hpath := Arena.path_of_tables h
  obtain ⟨hk, hget⟩ := List.getElem?_eq_some_iff.1 h
  refine ⟨hpath, fun count => ⟨?_, ?_⟩⟩
  · have hsize : k < (Arena.ofTree tree).size := by
      rw [Arena.size, Arena.ofTree, length_number, ← length_tables]
      exact hk
    have hfound := Arena.idOf?_path_of_lt htree hsize
    rwa [hpath, ← Arena.idOf?_slashed _ count] at hfound
  · have hfound := find?_path htree (List.mem_of_getElem? h)
    rwa [find?, ← withoutSlashes_slashed count] at hfound

/-- A junction by itself, the same junction with the table behind it, and a flag with a slash. -/
theorem TableTree.found_by_path_tags :
    let texts := ["parcel/[id=parcel_id]parcel_2_tag/note",
      "parcel/[id=parcel_id]parcel_2_tag/[tag_id=id]tag/label",
      "parcel/[id=parcel_id]address{sortKey=a/b}/street"]
    let paths := ["parcel", "parcel/[id=parcel_id]parcel_2_tag",
      "parcel/[id=parcel_id]parcel_2_tag/[tag_id=id]tag",
      "parcel/[id=parcel_id]address{sortKey=a/b}"]
    ∃ tree, ofPaths texts = .ok tree ∧ tree.IsDerived ∧ paths.Nodup ∧
      ∀ (k : Nat) (t : Table), tree.tables[k]? = some t → paths[k]? = some t.path ∧
        (Arena.ofTree tree).idOf? (slashed 2 t.path) = some k ∧
          tree.find? (slashed 2 t.path) = some t := by
  intro texts paths
  have hpaths : (do
      let tree ← ofPaths texts
      return tree.tables.map Table.path : Except Error (List String)).toOption = some paths := by
    decide +kernel
  obtain ⟨tree, htree, hok⟩ := bind_eq_ok.1 (toOption_eq_some.1 hpaths)
  have htables := pure_eq_ok.1 hok
  have hderived := isDerived_of_ofPaths htree
  obtain ⟨hnodup, hfound⟩ := found_by_path hderived
  rw [htables] at hnodup
  refine ⟨tree, htree, hderived, hnodup, fun k t ht => ?_⟩
  obtain ⟨-, hall⟩ := hfound k t ht
  refine ⟨?_, hall 2⟩
  rw [← htables, List.getElem?_map, ht]
  rfl

end FeatureStore
