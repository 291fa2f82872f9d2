import FeatureStore.Proofs.Table.Ancestry
import FeatureStore.Proofs.Table.Depths

/-!
# The arena and its tree

An arena says what the tree is (`Arena.Mirrors`). Its tables are numbered like the parts of the tree
in pre-order (`TableTree.parts`), and the links between them are those of the tree: the children of
a table are the tops of the trees below it, in their order, and a table is a child of exactly its
parent (`Arena.mem_childrenOf_iff`). The arena is also what comes of adding one table after the
other and noting each child at its parent when everything below the child is there
(`TableTree.grow_eq`).

Chains and descendants are what two walks along the links find, neither of which has a bound of its
own: one goes up from parent to parent (`Arena.Climbs`), the other takes tables from a stack and
puts their children there (`Arena.Visits`). The first ends because a parent has a smaller number,
the second because the part of a table is used up when the tables put on top of it are.
-/

set_option autoImplicit false

namespace FeatureStore

/-! ## Parts in pre-order -/

namespace TableTree

mutual
/-- A tree and all trees below its top, in pre-order. -/
def parts : TableTree → List TableTree
  | .node table children => .node table children :: partsOfList children

/-- The parts of a list of trees. -/
def partsOfList : List TableTree → List TableTree
  | [] => []
  | tree :: rest => tree.parts ++ partsOfList rest
end

theorem parts_eq_cons (t : TableTree) : t.parts = t :: partsOfList t.children := by
  rcases t with ⟨table, children⟩
  rw [parts, TableTree.children]

mutual
/-- The tables of a tree are the tops of its parts. -/
theorem map_root_parts : ∀ t : TableTree, t.parts.map root = t.tables
  | .node table children => by
    rw [parts, List.map_cons, map_root_partsOfList, tables, root]

theorem map_root_partsOfList : ∀ l : List TableTree, (partsOfList l).map root = tablesOfList l
  | [] => rfl
  | tree :: rest => by
    rw [partsOfList, List.map_append, map_root_parts, map_root_partsOfList, tablesOfList]
end

theorem length_parts (t : TableTree) : t.parts.length = t.size := by
  rw [← length_tables, ← map_root_parts, List.length_map]

mutual
/-- A part is followed by the parts below its top. -/
theorem exists_drop_parts : ∀ {t sub : TableTree} {k : Nat}, t.parts[k]? = some sub →
    ∃ behind, t.parts.drop k = sub.parts ++ behind
  | .node table children, sub, 0, h => by
    obtain rfl : TableTree.node table children = sub := by simpa [parts] using h
    exact ⟨[], by rw [List.drop_zero, List.append_nil]⟩
  | .node table children, sub, k + 1, h => by
    rw [parts, List.getElem?_cons_succ] at h
    rw [parts, List.drop_succ_cons]
    exact exists_drop_partsOfList h

theorem exists_drop_partsOfList : ∀ {l : List TableTree} {sub : TableTree} {k : Nat},
    (partsOfList l)[k]? = some sub → ∃ behind, (partsOfList l).drop k = sub.parts ++ behind
  | [], _, _, h => by simp [partsOfList] at h
  | tree :: rest, sub, k, h => by
    rw [partsOfList] at h ⊢
    by_cases hk : k < tree.parts.length
    · rw [List.getElem?_append_left hk] at h
      obtain ⟨behind, hdrop⟩ := exists_drop_parts h
      rw [List.drop_append_of_le_length (Nat.le_of_lt hk), hdrop]
      exact ⟨_, List.append_assoc _ _ _⟩
    · rw [List.getElem?_append_right (Nat.le_of_not_lt hk)] at h
      obtain ⟨behind, hdrop⟩ := exists_drop_partsOfList h
      rw [List.drop_append, List.drop_eq_nil_of_le (Nat.le_of_not_lt hk), List.nil_append, hdrop]
      exact ⟨_, rfl⟩
end

/-- Trees next to each other are found among the parts under the numbers of their tops. -/
theorem forall₂_childIds : ∀ (l : List TableTree) (id : Nat),
    List.Forall₂ (fun j child => ∃ k, j = id + k ∧ (partsOfList l)[k]? = some child)
      (childIds id l) l
  | [], _ => .nil
  | tree :: rest, id => by
    refine .cons ⟨0, rfl, by rw [partsOfList, parts_eq_cons]; rfl⟩ ?_
    refine (forall₂_childIds rest (id + tree.size)).imp ?_
    rintro j child ⟨k, rfl, hk⟩
    refine ⟨tree.size + k, Nat.add_assoc _ _ _, ?_⟩
    rw [partsOfList, ← length_parts, List.getElem?_append_right (Nat.le_add_right _ _),
      Nat.add_sub_cancel_left, hk]

/-- The children of a part are found under their numbers. -/
theorem forall₂_children {t sub : TableTree} {k : Nat} (h : t.parts[k]? = some sub) :
    List.Forall₂ (fun j child => t.parts[j]? = some child) (childIds (k + 1) sub.children)
      sub.children := by
  obtain ⟨behind, hdrop⟩ := exists_drop_parts h
  refine (forall₂_childIds sub.children (k + 1)).imp ?_
  rintro j child ⟨i, rfl, hi⟩
  have hlt : i < (partsOfList sub.children).length := (List.getElem?_eq_some_iff.1 hi).1
  rw [Nat.add_assoc, ← List.getElem?_drop, hdrop, parts_eq_cons, List.cons_append, Nat.add_comm 1,
    List.getElem?_cons_succ, List.getElem?_append_left hlt, hi]

theorem le_of_mem_childIds : ∀ {l : List TableTree} {id j : Nat}, j ∈ childIds id l → id ≤ j
  | tree :: rest, id, j, h => by
    rcases List.mem_cons.1 h with rfl | h
    · exact Nat.le_refl _
    · exact Nat.le_trans (Nat.le_add_right _ _) (le_of_mem_childIds h)

theorem pairwise_childIds : ∀ (l : List TableTree) (id : Nat), (childIds id l).Pairwise (· < ·)
  | [], _ => .nil
  | tree :: rest, id => by
    refine .cons (fun j hj => ?_) (pairwise_childIds rest _)
    exact Nat.lt_of_lt_of_le (Nat.lt_add_of_pos_right tree.size_pos) (le_of_mem_childIds hj)

mutual
/-- Every table below the top is a child of some part. -/
theorem exists_parent_part : ∀ {t : TableTree} {k : Nat} (id : Nat), 0 < k → k < t.size →
    ∃ i sub, t.parts[i]? = some sub ∧ id + k ∈ childIds (id + i + 1) sub.children
  | .node table children, k, id, hpos, hk => by
    obtain ⟨k, rfl⟩ := Nat.exists_eq_succ_of_ne_zero (Nat.ne_of_gt hpos)
    have hk : k < sizeOfList children := Nat.lt_of_succ_lt_succ hk
    have hshift : id + (k + 1) = id + 1 + k := by omega
    rw [hshift]
    rcases exists_parent_partOfList (id + 1) hk with hmem | ⟨i, sub, hsub, hmem⟩
    · exact ⟨0, .node table children, by rw [parts]; rfl, hmem⟩
    · refine ⟨i + 1, sub, by rw [parts]; exact hsub, ?_⟩
      rwa [show id + (i + 1) + 1 = id + 1 + i + 1 by omega]

theorem exists_parent_partOfList : ∀ {l : List TableTree} {k : Nat} (id : Nat),
    k < sizeOfList l → id + k ∈ childIds id l ∨
      ∃ i sub, (partsOfList l)[i]? = some sub ∧ id + k ∈ childIds (id + i + 1) sub.children
  | [], _, _, hk => absurd hk (Nat.not_lt_zero _)
  | tree :: rest, k, id, hk => by
    rw [sizeOfList] at hk
    rcases Nat.eq_zero_or_pos k with rfl | hpos
    · exact Or.inl List.mem_cons_self
    · by_cases hin : k < tree.size
      · obtain ⟨i, sub, hsub, hmem⟩ := exists_parent_part id hpos hin
        refine Or.inr ⟨i, sub, ?_, hmem⟩
        have hi := (List.getElem?_eq_some_iff.1 hsub).1
        rw [partsOfList, List.getElem?_append_left hi, hsub]
      · -- the number is counted from the trees behind the first one
        obtain ⟨k, rfl⟩ := Nat.exists_eq_add_of_le (Nat.le_of_not_lt hin)
        rw [← Nat.add_assoc]
        rcases exists_parent_partOfList (l := rest) (k := k) (id + tree.size) (by omega) with
          hmem | ⟨i, sub, hsub, hmem⟩
        · exact Or.inl (List.mem_cons_of_mem _ hmem)
        · refine Or.inr ⟨tree.size + i, sub, ?_, by rwa [← Nat.add_assoc]⟩
          rw [partsOfList, ← length_parts, List.getElem?_append_right (Nat.le_add_right _ _),
            Nat.add_sub_cancel_left, hsub]
end

end TableTree

/-! ## Children and parents -/

namespace Arena

variable {a : Arena}

/-- The numbers of the children of a table. -/
def childrenOf (a : Arena) (id : Nat) : List Nat := ((a.get? id).map ArenaNode.children).getD []

theorem Holds.childrenOf_eq {parent : Option Nat} {depth id : Nat} {t : TableTree}
    (h : a.Holds parent depth id t) :
    a.childrenOf id = TableTree.childIds (id + 1) t.children := by
  rw [childrenOf, h.get?_eq]
  rfl

theorem Holds.depthOf_eq {parent : Option Nat} {depth id : Nat} {t : TableTree}
    (h : a.Holds parent depth id t) : a.depthOf id = depth := by
  rw [depthOf, h.get?_eq]
  rfl

/-- Trees below a table stand in the arena under the numbers of their tops. -/
theorem HoldsList.forall₂ : ∀ {l : List TableTree} {parent depth id : Nat},
    a.HoldsList parent depth id l →
      List.Forall₂ (fun j child => a.Holds (some parent) depth j child)
        (TableTree.childIds id l) l
  | [], _, _, _, _ => .nil
  | _ :: _, _, _, _, h => .cons h.first h.others.forall₂

mutual
/-- The parts of a tree stand in the arena in their order. -/
theorem Holds.part : ∀ {t sub : TableTree} {parent : Option Nat} {depth id k : Nat},
    a.Holds parent depth id t → t.parts[k]? = some sub →
      ∃ above upper, a.Holds above upper (id + k) sub
  | .node table children, sub, parent, depth, id, 0, h, hsub => by
    obtain rfl : TableTree.node table children = sub := by simpa [TableTree.parts] using hsub
    exact ⟨parent, depth, h⟩
  | .node table children, sub, parent, depth, id, k + 1, h, hsub => by
    rw [TableTree.parts, List.getElem?_cons_succ] at hsub
    have hbelow := h.below.part hsub
    rwa [Nat.add_assoc, Nat.add_comm 1] at hbelow

theorem HoldsList.part : ∀ {l : List TableTree} {sub : TableTree} {parent depth id k : Nat},
    a.HoldsList parent depth id l → (TableTree.partsOfList l)[k]? = some sub →
      ∃ above upper, a.Holds above upper (id + k) sub
  | [], _, _, _, _, _, _, hsub => by simp [TableTree.partsOfList] at hsub
  | tree :: rest, sub, parent, depth, id, k, h, hsub => by
    rw [TableTree.partsOfList] at hsub
    by_cases hk : k < tree.parts.length
    · rw [List.getElem?_append_left hk] at hsub
      exact h.first.part hsub
    · obtain ⟨k, rfl⟩ := Nat.exists_eq_add_of_le (Nat.le_of_not_lt hk)
      rw [List.getElem?_append_right (Nat.le_add_right _ _), Nat.add_sub_cancel_left] at hsub
      have hothers := h.others.part hsub
      rwa [Nat.add_assoc, ← TableTree.length_parts] at hothers
end

section Tree

variable {tree sub : TableTree} {i j k p : Nat}

theorem holds_of_parts (h : tree.parts[k]? = some sub) :
    ∃ parent depth, (ofTree tree).Holds parent depth k sub := by
  have hpart := (holds_ofTree tree).part h
  rwa [Nat.zero_add] at hpart

theorem exists_part_of_lt (hk : k < (ofTree tree).size) : ∃ sub, tree.parts[k]? = some sub := by
  rw [size_ofTree, ← TableTree.length_parts] at hk
  exact ⟨_, List.getElem?_eq_getElem hk⟩

theorem get?_of_le (hk : a.size ≤ k) : a.get? k = none := List.getElem?_eq_none hk

theorem lt_size_of_parent? (h : a.parent? k = some p) : k < a.size := by
  by_contra hk
  rw [parent?, get?_of_le (Nat.le_of_not_lt hk)] at h
  exact absurd h.symm (Option.some_ne_none p)

theorem lt_of_parent? (h : (ofTree tree).parent? k = some p) : p < k := by
  rcases parent?_ofTree (lt_size_of_parent? h) with ⟨-, hnone⟩ | ⟨q, hq, hlt⟩
  · exact nomatch hnone.symm.trans h
  · obtain rfl := Option.some.inj (hq.symm.trans h)
    exact hlt

/-- A child of a table has it as its parent, and lies one deeper. -/
theorem linked_of_mem_childIds (hsub : tree.parts[i]? = some sub)
    (hj : j ∈ TableTree.childIds (i + 1) sub.children) :
    (ofTree tree).parent? j = some i ∧
      (ofTree tree).depthOf j = (ofTree tree).depthOf i + 1 := by
  obtain ⟨parent, depth, hholds⟩ := holds_of_parts hsub
  obtain ⟨child, -, hchild⟩ : ∃ child ∈ sub.children,
      (ofTree tree).Holds (some i) (depth + 1) j child :=
    exists_left_of_forall₂ hholds.below.forall₂.flip hj
  exact ⟨hchild.parent?_eq, by rw [hchild.depthOf_eq, hholds.depthOf_eq]⟩

/-- A table is a child of its parent, and of no other table. -/
theorem mem_childrenOf_iff :
    j ∈ (ofTree tree).childrenOf i ↔ (ofTree tree).parent? j = some i := by
  constructor
  · intro hj
    have hi : i < (ofTree tree).size := by
      by_contra hi
      rw [childrenOf, get?_of_le (Nat.le_of_not_lt hi)] at hj
      exact absurd hj List.not_mem_nil
    obtain ⟨sub, hsub⟩ := exists_part_of_lt hi
    obtain ⟨_, _, hholds⟩ := holds_of_parts hsub
    rw [hholds.childrenOf_eq] at hj
    exact (linked_of_mem_childIds hsub hj).1
  · intro hparent
    have hj := lt_size_of_parent? hparent
    have hpos : 0 < j := Nat.lt_of_le_of_lt (Nat.zero_le i) (lt_of_parent? hparent)
    rw [size_ofTree] at hj
    -- the table is a child of some part, which can only be that of its parent
    obtain ⟨i', sub, hsub, hmem⟩ := TableTree.exists_parent_part 0 hpos hj
    rw [Nat.zero_add, Nat.zero_add] at hmem
    obtain rfl := Option.some.inj ((linked_of_mem_childIds hsub hmem).1.symm.trans hparent)
    obtain ⟨_, _, hholds⟩ := holds_of_parts hsub
    rwa [hholds.childrenOf_eq]

theorem depthOf_of_parent? (h : (ofTree tree).parent? k = some p) :
    (ofTree tree).depthOf k = (ofTree tree).depthOf p + 1 := by
  obtain ⟨sub, hsub⟩ := exists_part_of_lt (Nat.lt_trans (lt_of_parent? h) (lt_size_of_parent? h))
  obtain ⟨_, _, hholds⟩ := holds_of_parts hsub
  have hmem := mem_childrenOf_iff.2 h
  rw [hholds.childrenOf_eq] at hmem
  exact (linked_of_mem_childIds hsub hmem).2

end Tree

/-! ## Walking along the links -/

section Walks

variable {tree sub : TableTree} {i j k p : Nat}

/-- Going up from a table, if there is one, to its parent and so on, until there is none, one comes
to these tables. -/
inductive Climbs (a : Arena) : Option Nat → List Nat → Prop
  | ended : Climbs a none []
  | up {id : Nat} {above : List Nat} : Climbs a (a.parent? id) above →
      Climbs a (some id) (id :: above)

/-- Taking tables from a stack, and putting the children of each there, until the stack is empty,
one takes these tables. -/
inductive Visits (a : Arena) : List Nat → List Nat → Prop
  | ended : Visits a [] []
  | take {id : Nat} {waiting taken : List Nat} : Visits a (a.childrenOf id ++ waiting) taken →
      Visits a (id :: waiting) (id :: taken)

/-- If parents have smaller numbers, the way up from a table ends, and is its chain. -/
theorem climbs_chain (hsmaller : ∀ {k p : Nat}, a.parent? k = some p → p < k) (id : Nat) :
    a.Climbs (some id) (a.chain id).reverse := by
  induction id using Nat.strongRecOn with
  | ind id ih =>
    cases hparent : a.parent? id with
    | none =>
      rw [chain_of_root hparent]
      exact .up (hparent ▸ .ended)
    | some p =>
      rw [chain_of_parent? hparent (hsmaller hparent), List.reverse_append]
      exact .up (hparent ▸ ih p (hsmaller hparent))

mutual
/-- A table on a stack is taken with its part, and then come the tables below it on the stack. -/
theorem Holds.visits : ∀ {t : TableTree} {parent : Option Nat} {depth id : Nat}
    {waiting taken : List Nat}, a.Holds parent depth id t → a.Visits waiting taken →
      a.Visits (id :: waiting) (List.range' id t.size ++ taken)
  | .node table children, parent, depth, id, waiting, taken, h, hwaiting => by
    rw [TableTree.size, List.range'_succ, List.cons_append]
    refine .take ?_
    rw [h.childrenOf_eq]
    exact h.below.visits hwaiting

theorem HoldsList.visits : ∀ {l : List TableTree} {parent depth id : Nat}
    {waiting taken : List Nat}, a.HoldsList parent depth id l → a.Visits waiting taken →
      a.Visits (TableTree.childIds id l ++ waiting)
        (List.range' id (TableTree.sizeOfList l) ++ taken)
  | [], _, _, _, _, _, _, hwaiting => hwaiting
  | tree :: rest, parent, depth, id, waiting, taken, h, hwaiting => by
    rw [TableTree.sizeOfList, ← List.range'_append_1, List.append_assoc, TableTree.childIds,
      List.cons_append]
    exact h.first.visits (h.others.visits hwaiting)
end

theorem descendants_of_parts (h : tree.parts[k]? = some sub) :
    (ofTree tree).descendants k = List.range' (k + 1) (sub.size - 1) := by
  obtain ⟨parent, depth, hholds⟩ := holds_of_parts h
  rcases sub with ⟨table, children⟩
  rw [hholds.descendants_eq, TableTree.size, Nat.add_sub_cancel, List.range'_eq_map_range]
  rfl

/-- The tables below a table are those that a walk with a stack takes. -/
theorem visits_descendants (tree : TableTree) (k : Nat) :
    (ofTree tree).Visits ((ofTree tree).childrenOf k) ((ofTree tree).descendants k) := by
  by_cases hk : k < (ofTree tree).size
  · obtain ⟨sub, hsub⟩ := exists_part_of_lt hk
    obtain ⟨parent, depth, hholds⟩ := holds_of_parts hsub
    rcases sub with ⟨table, children⟩
    rw [descendants_of_parts hsub, hholds.childrenOf_eq, TableTree.size, Nat.add_sub_cancel]
    have hvisits := hholds.below.visits .ended
    rwa [List.append_nil, List.append_nil] at hvisits
  · rw [childrenOf, descendants, get?_of_le (Nat.le_of_not_lt hk)]
    exact .ended

end Walks

/-! ## Chains -/

section Chains

variable {tree : TableTree} {i j k : Nat}

theorem getLast?_chain (a : Arena) (id : Nat) : (a.chain id).getLast? = some id := by
  rcases a.chain_cases id with ⟨parent, -, hchain⟩ | hchain
  · rw [hchain, List.getLast?_concat]
  · rw [hchain, List.getLast?_singleton]

/-- A chain steps from parents to children. -/
theorem isChain_chain (tree : TableTree) (k : Nat) :
    ((ofTree tree).chain k).IsChain fun p c => (ofTree tree).parent? c = some p := by
  induction k using Nat.strongRecOn with
  | ind k ih =>
    cases hparent : (ofTree tree).parent? k with
    | none =>
      rw [chain_of_root hparent]
      exact .singleton k
    | some p =>
      rw [chain_of_parent? hparent (lt_of_parent? hparent), List.isChain_append]
      refine ⟨ih p (lt_of_parent? hparent), .singleton k, fun last hlast next hnext => ?_⟩
      rw [getLast?_chain] at hlast
      obtain rfl : p = last := by simpa using hlast
      obtain rfl : k = next := by simpa using hnext
      exact hparent

theorem head?_chain (hk : k < (ofTree tree).size) : ((ofTree tree).chain k).head? = some 0 := by
  induction k using Nat.strongRecOn with
  | ind k ih =>
    rcases parent?_ofTree hk with ⟨rfl, hparent⟩ | ⟨p, hparent, hp⟩
    · rw [chain_of_root hparent, List.head?_cons]
    · rw [chain_of_parent? hparent hp, List.head?_append, ih p hp (Nat.lt_trans hp hk)]
      rfl

theorem length_chain (hk : k < (ofTree tree).size) :
    ((ofTree tree).chain k).length = (ofTree tree).depthOf k + 1 := by
  induction k using Nat.strongRecOn with
  | ind k ih =>
    rcases parent?_ofTree hk with ⟨rfl, hparent⟩ | ⟨p, hparent, hp⟩
    · rw [chain_of_root hparent, (holds_ofTree tree).depthOf_eq, List.length_singleton]
    · rw [chain_of_parent? hparent hp, List.length_append, ih p hp (Nat.lt_trans hp hk),
        depthOf_of_parent? hparent, List.length_singleton]

/-- Below a table lie those on whose chain it is, other than itself. A number without a table has
only itself on its chain. -/
theorem mem_descendants_iff :
    j ∈ (ofTree tree).descendants i ↔ i ∈ (ofTree tree).chain j ∧ i ≠ j := by
  by_cases hj : j < (ofTree tree).size
  · by_cases hi : i < (ofTree tree).size
    · rw [mem_descendants_iff_above hi hj, above_iff]
    · rw [descendants, get?_of_le (Nat.le_of_not_lt hi)]
      refine iff_of_false List.not_mem_nil fun h => hi ?_
      exact Nat.lt_of_le_of_lt (le_of_mem_chain h.1) hj
  · have hchain : (ofTree tree).chain j = [j] := by
      refine chain_of_root ?_
      rw [parent?, get?_of_le (Nat.le_of_not_lt hj)]
      rfl
    rw [hchain, List.mem_singleton]
    refine iff_of_false (fun hmem => hj ?_) fun h => h.2 h.1
    by_cases hi : i < (ofTree tree).size
    · obtain ⟨_, _, t, ht⟩ := exists_holds hi
      exact Nat.lt_of_lt_of_le (ht.mem_descendants.1 hmem).2 ht.le_size
    · rw [descendants, get?_of_le (Nat.le_of_not_lt hi)] at hmem
      exact absurd hmem List.not_mem_nil

end Chains

end Arena

/-! ## One table after the other -/

namespace ArenaNode

/-- A numbered table without children. -/
def bare (table : Table) (parent : Option Nat) (depth : Nat) : ArenaNode :=
  { name := table.name
    path := table.path
    kind := table.kind
    parent := parent
    depth := depth
    children := []
    hasColumns := !table.columns.isEmpty }

/-- The table with more children behind those that it has. -/
def withChildren (more : List Nat) (node : ArenaNode) : ArenaNode :=
  { node with children := node.children ++ more }

theorem withChildren_nil : withChildren [] = id := by
  funext node
  rw [withChildren, List.append_nil, id]

theorem withChildren_comp (more most : List Nat) :
    withChildren most ∘ withChildren more = withChildren (more ++ most) := by
  funext node
  simp [withChildren, List.append_assoc]

end ArenaNode

namespace TableTree

mutual
/-- The numbered tables with those of a tree behind them. A table is put there before those below
it, and has no children at first. -/
def grow (parent : Option Nat) (depth : Nat) (nodes : List ArenaNode) :
    TableTree → List ArenaNode
  | .node table children =>
    growList nodes.length (depth + 1) (nodes ++ [.bare table parent depth]) children

/-- The numbered tables with those of the children of the table `parent` behind them. A child is
noted at its parent when the tables below it are there. -/
def growList (parent depth : Nat) (nodes : List ArenaNode) : List TableTree → List ArenaNode
  | [] => nodes
  | tree :: rest =>
    let grown := tree.grow (some parent) depth nodes
    growList parent depth (grown.modify parent (.withChildren [nodes.length])) rest
end

/-- What is changed lies in front. -/
theorem modify_append_of_lt {α : Type} (f : α → α) : ∀ {xs : List α} {k : Nat} (ys : List α),
    k < xs.length → (xs ++ ys).modify k f = xs.modify k f ++ ys
  | x :: xs, 0, ys, _ => rfl
  | x :: xs, k + 1, ys, h => by
    rw [List.cons_append, List.modify_succ_cons, List.modify_succ_cons, List.cons_append,
      modify_append_of_lt f ys (Nat.lt_of_succ_lt_succ h)]

mutual
/-- Adding the tables of a tree one after the other numbers them in pre-order. -/
theorem grow_eq : ∀ (t : TableTree) (parent : Option Nat) (depth : Nat) (nodes : List ArenaNode),
    t.grow parent depth nodes = nodes ++ t.number parent depth nodes.length
  | .node table children, parent, depth, nodes => by
    have hlast : (nodes ++ [ArenaNode.bare table parent depth]).modify nodes.length
        (.withChildren (childIds (nodes.length + 1) children)) =
          nodes ++ [(node table children).topNode parent depth nodes.length] := by
      rw [List.modify_eq_take_cons_drop (by simp), List.take_left]
      simp [ArenaNode.bare, ArenaNode.withChildren, topNode, root, TableTree.children]
    rw [grow, growList_eq children (by simp), List.length_append, List.length_singleton, hlast,
      number_eq_cons, List.append_assoc]
    rfl

theorem growList_eq : ∀ (l : List TableTree) {parent depth : Nat} {nodes : List ArenaNode},
    parent < nodes.length → growList parent depth nodes l =
      nodes.modify parent (.withChildren (childIds nodes.length l)) ++
        numberList parent depth nodes.length l
  | [], parent, depth, nodes, _ => by
    rw [growList, childIds, numberList, ArenaNode.withChildren_nil, List.modify_id,
      List.append_nil]
  | tree :: rest, parent, depth, nodes, h => by
    have hnoted : (tree.grow (some parent) depth nodes).modify parent
        (.withChildren [nodes.length]) =
          nodes.modify parent (.withChildren [nodes.length]) ++
            tree.number (some parent) depth nodes.length := by
      rw [grow_eq, modify_append_of_lt _ _ h]
    have hlength : (nodes.modify parent (.withChildren [nodes.length]) ++
        tree.number (some parent) depth nodes.length).length = nodes.length + tree.size := by
      rw [List.length_append, List.length_modify, length_number]
    rw [growList, hnoted, growList_eq rest (by omega), hlength,
      modify_append_of_lt _ _ (by simpa using h), List.modify_modify_eq,
      ArenaNode.withChildren_comp, numberList, List.append_assoc]
    rfl
end

end TableTree

/-! ## What an arena says -/

namespace Arena

/-- An arena says what the tree is, and walks along its links end. -/
structure Mirrors (a : Arena) (t : TableTree) : Prop where
  /-- The tables are added one after the other. -/
  nodes_eq : a.nodes = t.grow none 0 []
  /-- There is one node for each table. -/
  size_eq : a.size = t.tables.length
  /-- The tables come in the order of the parts that they are the tops of. -/
  tables_eq : t.tables = t.parts.map TableTree.root
  /-- A node says what its table is. -/
  node : ∀ i table, t.tables[i]? = some table → ∃ node, a.get? i = some node ∧
    node.name = table.name ∧ node.path = table.path ∧ node.kind = table.kind ∧
      node.hasColumns = !table.columns.isEmpty
  /-- The children of a table are the tops of the trees below it, in their order. -/
  children : ∀ i sub, t.parts[i]? = some sub →
    List.Forall₂ (fun j child => t.parts[j]? = some child) (a.childrenOf i) sub.children
  /-- No child comes twice. -/
  children_lt : ∀ i, (a.childrenOf i).Pairwise (· < ·)
  /-- A table is a child of its parent, and of no other table. -/
  linked : ∀ i j, j ∈ a.childrenOf i ↔ a.parent? j = some i
  parent_lt : ∀ i p, a.parent? i = some p → p < i
  /-- The way up from any number ends, and is its chain. -/
  climbs : ∀ i, a.Climbs (some i) (a.chain i).reverse
  chain_head : ∀ i < a.size, (a.chain i).head? = some 0
  chain_last : ∀ i < a.size, (a.chain i).getLast? = some i
  chain_steps : ∀ i < a.size, (a.chain i).IsChain fun p c => a.parent? c = some p
  chain_length : ∀ i < a.size, (a.chain i).length = a.depthOf i + 1
  /-- The walk with a stack ends from any number, and takes its descendants. -/
  visits : ∀ i, a.Visits (a.childrenOf i) (a.descendants i)
  /-- The descendants of a table are the numbers behind it, up to the end of its part. -/
  descendants : ∀ i sub, t.parts[i]? = some sub →
    a.descendants i = List.range' (i + 1) (sub.size - 1)
  mem_descendants : ∀ i j, j ∈ a.descendants i ↔ i ∈ a.chain j ∧ i ≠ j

/-- A node says what its table is. -/
theorem exists_node {tree : TableTree} {k : Nat} {table : Table}
    (h : tree.tables[k]? = some table) : ∃ node, (ofTree tree).get? k = some node ∧
      node.name = table.name ∧ node.path = table.path ∧ node.kind = table.kind ∧
        node.hasColumns = !table.columns.isEmpty := by
  rw [← TableTree.map_root_parts, List.getElem?_map] at h
  obtain ⟨sub, hsub, rfl⟩ := Option.map_eq_some_iff.1 h
  obtain ⟨parent, depth, hholds⟩ := holds_of_parts hsub
  exact ⟨_, hholds.get?_eq, rfl, rfl, rfl, rfl⟩

theorem pairwise_childrenOf (tree : TableTree) (k : Nat) :
    ((ofTree tree).childrenOf k).Pairwise (· < ·) := by
  by_cases hk : k < (ofTree tree).size
  · obtain ⟨_, _, _, hholds⟩ := exists_holds hk
    rw [hholds.childrenOf_eq]
    exact TableTree.pairwise_childIds _ _
  · rw [childrenOf, get?_of_le (Nat.le_of_not_lt hk)]
    exact .nil

/-- The arena of a tree says what the tree is, and walks along its links end. -/
theorem mirrors_ofTree (tree : TableTree) : (ofTree tree).Mirrors tree where
  nodes_eq := (tree.grow_eq none 0 []).symm
  size_eq := (size_ofTree tree).trans tree.length_tables.symm
  tables_eq := tree.map_root_parts.symm
  node _ _ h := exists_node h
  children i sub h := by
    obtain ⟨_, _, hholds⟩ := holds_of_parts h
    rw [hholds.childrenOf_eq]
    exact TableTree.forall₂_children h
  children_lt := pairwise_childrenOf tree
  linked _ _ := mem_childrenOf_iff
  parent_lt _ _ h := lt_of_parent? h
  climbs := climbs_chain lt_of_parent?
  chain_head _ hi := head?_chain hi
  chain_last i _ := getLast?_chain _ i
  chain_steps i _ := isChain_chain tree i
  chain_length _ hi := length_chain hi
  visits := visits_descendants tree
  descendants _ _ h := descendants_of_parts h
  mem_descendants _ _ := mem_descendants_iff

/-- Two tables below the root, the first with a table below it. -/
example : ((TableTree.ofPaths ["a/x", "a/[id=a_id]b/y", "a/[id=a_id]b/[id=b_id]c/z",
    "a/[id=id]d/w"]).map fun tree => (List.range 4).map fun k =>
      ((ofTree tree).childrenOf k, (ofTree tree).chain k, (ofTree tree).descendants k)).toOption =
    some [([1, 3], [0], [1, 2, 3]), ([2], [0, 1], [2]), ([], [0, 1, 2], []), ([], [0, 3], [])] := by
  decide +kernel

end Arena

end FeatureStore
