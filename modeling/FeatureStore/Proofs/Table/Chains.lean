import FeatureStore.Proofs.Table.Numbering
import Mathlib.Tactic

/-!
# Chains of numbered tables

For every table the tables from the root down to it, each with its number (`numberedChains`).
Without the numbers these are the chains of the tree (`tables_numberedChains`), and the numbers of
a chain are what the arena says they are (`chain_of_mem_numberedChains`, `ids_eq_chain`). The
chains come in the lexicographic order of their numbers (`pairwise_numberedChains`): a table comes
before those below it, and everything below a table before the tables behind it. A chain is as long
as its last table is deep (`length_of_mem_numberedChains`).
-/

set_option autoImplicit false

namespace FeatureStore

/-- What two lists have in common at the front does not count for their order. -/
theorem compareLex_append_left {α : Type} {cmp : α → α → Ordering} [Std.ReflCmp cmp] :
    ∀ (front xs ys : List α),
      List.compareLex cmp (front ++ xs) (front ++ ys) = List.compareLex cmp xs ys
  | [], _, _ => rfl
  | a :: front, xs, ys => by
    rw [List.cons_append, List.cons_append, List.compareLex_cons_cons,
      @Std.ReflCmp.compare_self _ cmp, Ordering.eq_then, compareLex_append_left]

/-- Members of a strictly rising list that are equal in its order are the same. -/
theorem eq_of_pairwise_lt {α : Type} {cmp : α → α → Ordering} {l : List α}
    (hl : l.Pairwise fun a b => cmp a b = .lt) {a b : α} (ha : a ∈ l) (hb : b ∈ l)
    (h : cmp a b = .eq) (h' : cmp b a = .eq) : a = b := by
  obtain ⟨i, hi, rfl⟩ := List.mem_iff_getElem.1 ha
  obtain ⟨j, hj, rfl⟩ := List.mem_iff_getElem.1 hb
  rw [List.pairwise_iff_getElem] at hl
  rcases Nat.lt_trichotomy i j with hij | rfl | hij
  · rw [hl i j hi hj hij] at h
    simp at h
  · rfl
  · rw [hl j i hj hi hij] at h'
    simp at h'

/-! ## Chains of an arena -/

namespace Arena

variable {a : Arena} {p k id : Nat}

theorem chain_of_parent? (hparent : a.parent? k = some p) (hp : p < k) :
    a.chain k = a.chain p ++ [k] := by
  rw [chain, hparent]
  simp only [if_pos hp]

theorem chain_of_root (hparent : a.parent? k = none) : a.chain k = [k] := by
  rw [chain, hparent]

theorem chain_cases (a : Arena) (id : Nat) :
    (∃ parent < id, a.chain id = a.chain parent ++ [id]) ∨ a.chain id = [id] := by
  rw [chain]
  split
  · rename_i parent _
    split
    · rename_i hlt
      exact Or.inl ⟨parent, hlt, rfl⟩
    · exact Or.inr rfl
  · exact Or.inr rfl

theorem mem_chain_self (a : Arena) (id : Nat) : id ∈ a.chain id := by
  rcases a.chain_cases id with ⟨parent, -, h⟩ | h
  · rw [h]
    exact List.mem_append_right _ List.mem_cons_self
  · rw [h]
    exact List.mem_cons_self

/-- A front of a chain is the chain of its last table. -/
theorem chain_eq_of_front {front : List Nat} (h : front ++ [k] <+: a.chain id) :
    a.chain k = front ++ [k] := by
  -- by induction on the table, since a chain is that of the parent and the table itself
  induction id using Nat.strongRecOn with
  | ind id ih =>
    rcases a.chain_cases id with ⟨parent, hlt, hchain⟩ | hchain
    · rw [hchain, List.prefix_concat_iff] at h
      rcases h with h | h
      · obtain ⟨hfront, hlast⟩ := List.append_inj' h rfl
        obtain rfl : k = id := List.head_eq_of_cons_eq hlast
        rw [hchain, hfront]
      · exact ih parent hlt h
    · rw [hchain] at h
      rw [show [id] = [] ++ [id] from rfl, List.prefix_concat_iff] at h
      rcases h with h | h
      · obtain ⟨hfront, hlast⟩ := List.append_inj' h rfl
        obtain rfl : k = id := List.head_eq_of_cons_eq hlast
        rw [hchain, hfront]
        rfl
      · exact absurd (List.prefix_nil.1 h) (by simp)

theorem chain_prefix_of_mem (h : k ∈ a.chain id) : a.chain k <+: a.chain id := by
  obtain ⟨front, behind, hchain⟩ := List.append_of_mem h
  have hfront : front ++ [k] <+: a.chain id := ⟨behind, by rw [hchain]; simp⟩
  rw [chain_eq_of_front hfront]
  exact hfront

end Arena

namespace TableTree

mutual
/-- For every table in pre-order the numbered tables from the top down to it. The top has the number
`id`, and `above` is the chain that leads to it. -/
def numberedFrom (above : List (Nat × Table)) (id : Nat) : TableTree → List (List (Nat × Table))
  | .node table children =>
    (above ++ [(id, table)]) :: numberedFromList (above ++ [(id, table)]) (id + 1) children

/-- The chains of a list of trees, the first of which has the number `id`. -/
def numberedFromList (above : List (Nat × Table)) (id : Nat) :
    List TableTree → List (List (Nat × Table))
  | [] => []
  | tree :: rest => tree.numberedFrom above id ++ numberedFromList above (id + tree.size) rest
end

/-- For every table in pre-order the numbered tables from the root down to it. -/
def numberedChains (t : TableTree) : List (List (Nat × Table)) := t.numberedFrom [] 0

/-! ## Chains without numbers -/

mutual
theorem tables_numberedFrom : ∀ (t : TableTree) (above : List (Nat × Table)) (id : Nat),
    (t.numberedFrom above id).map (List.map Prod.snd) = t.chainsFrom (above.map Prod.snd)
  | .node table children, above, id => by
    rw [numberedFrom, List.map_cons, tables_numberedFromList, chainsFrom, List.map_append]
    rfl

theorem tables_numberedFromList : ∀ (l : List TableTree) (above : List (Nat × Table)) (id : Nat),
    (numberedFromList above id l).map (List.map Prod.snd) = chainsOfList (above.map Prod.snd) l
  | [], _, _ => rfl
  | tree :: rest, above, id => by
    rw [numberedFromList, List.map_append, tables_numberedFrom, tables_numberedFromList,
      chainsOfList]
end

/-- Without the numbers, the chains are those of the tree. -/
theorem tables_numberedChains (t : TableTree) :
    t.numberedChains.map (List.map Prod.snd) = t.chains :=
  t.tables_numberedFrom [] 0

/-! ## The order of chains -/

mutual
/-- A chain goes on from the chain above through the top. -/
theorem begins_of_mem_numberedFrom : ∀ {t : TableTree} {above c : List (Nat × Table)} {id : Nat},
    c ∈ t.numberedFrom above id → ∃ rest, c = above ++ (id, t.root) :: rest
  | .node table children, above, c, id, h => by
    rw [numberedFrom] at h
    rcases List.mem_cons.1 h with rfl | h
    · exact ⟨[], rfl⟩
    · obtain ⟨k, next, rest, -, rfl⟩ := begins_of_mem_numberedFromList h
      exact ⟨(k, next) :: rest, by rw [List.append_assoc]; rfl⟩

theorem begins_of_mem_numberedFromList : ∀ {l : List TableTree} {above c : List (Nat × Table)}
    {id : Nat}, c ∈ numberedFromList above id l →
      ∃ k table rest, id ≤ k ∧ c = above ++ (k, table) :: rest
  | [], _, _, _, h => by simp [numberedFromList] at h
  | tree :: rest, above, c, id, h => by
    rw [numberedFromList] at h
    rcases List.mem_append.1 h with h | h
    · obtain ⟨more, rfl⟩ := begins_of_mem_numberedFrom h
      exact ⟨id, tree.root, more, Nat.le_refl _, rfl⟩
    · obtain ⟨k, table, more, hk, rfl⟩ := begins_of_mem_numberedFromList h
      exact ⟨k, table, more, by omega, rfl⟩
end

/-- The order of two chains by their numbers. -/
def compareChains (c d : List (Nat × Table)) : Ordering :=
  List.compareLex compare (c.map Prod.fst) (d.map Prod.fst)

instance : Std.TransCmp compareChains where
  eq_swap := by
    intro c d
    exact @Std.OrientedCmp.eq_swap _ (List.compareLex compare) _ (c.map Prod.fst) (d.map Prod.fst)
  isLE_trans := by
    intro c d e
    exact @Std.TransCmp.isLE_trans _ (List.compareLex compare) _ (c.map Prod.fst) (d.map Prod.fst)
      (e.map Prod.fst)

theorem compareChains_append_left (above c d : List (Nat × Table)) :
    compareChains (above ++ c) (above ++ d) = compareChains c d := by
  rw [compareChains, List.map_append, List.map_append, compareLex_append_left]
  rfl

theorem compareChains_of_lt {j k : Nat} (h : j < k) (s t : Table) (c d : List (Nat × Table)) :
    compareChains ((j, s) :: c) ((k, t) :: d) = .lt := by
  rw [compareChains, List.map_cons, List.map_cons, List.compareLex_cons_cons,
    Nat.compare_eq_lt.2 h]
  rfl

mutual
/-- The chains of a tree come in the order of their numbers. -/
theorem pairwise_numberedFrom : ∀ (t : TableTree) (above : List (Nat × Table)) (id : Nat),
    (t.numberedFrom above id).Pairwise fun c d => compareChains c d = .lt
  | .node table children, above, id => by
    rw [numberedFrom]
    -- a chain comes before those that go on from it
    refine List.pairwise_cons.2 ⟨fun c hc => ?_, pairwise_numberedFromList children _ _⟩
    obtain ⟨k, next, rest, -, rfl⟩ := begins_of_mem_numberedFromList hc
    rw [List.append_assoc, compareChains_append_left]
    simp [compareChains, List.compareLex_cons_cons, List.compareLex_nil_cons]

theorem pairwise_numberedFromList : ∀ (l : List TableTree) (above : List (Nat × Table)) (id : Nat),
    (numberedFromList above id l).Pairwise fun c d => compareChains c d = .lt
  | [], _, _ => List.Pairwise.nil
  | tree :: rest, above, id => by
    rw [numberedFromList]
    refine List.pairwise_append.2 ⟨pairwise_numberedFrom tree above id,
      pairwise_numberedFromList rest above _, fun c hc d hd => ?_⟩
    obtain ⟨more, rfl⟩ := begins_of_mem_numberedFrom hc
    obtain ⟨k, table, other, hk, rfl⟩ := begins_of_mem_numberedFromList hd
    -- the chains of two siblings part at the siblings, of which the first has the smaller number
    rw [compareChains_append_left]
    have := tree.size_pos
    exact compareChains_of_lt (by omega) _ _ _ _
end

/-- The chains of a tree come in the order of their numbers. -/
theorem pairwise_numberedChains (t : TableTree) :
    t.numberedChains.Pairwise fun c d => compareChains c d = .lt :=
  t.pairwise_numberedFrom [] 0

/-- Chains with the same numbers are the same. -/
theorem eq_of_ids_eq {t : TableTree} {c d : List (Nat × Table)} (hc : c ∈ t.numberedChains)
    (hd : d ∈ t.numberedChains) (h : c.map Prod.fst = d.map Prod.fst) : c = d := by
  have heq : compareChains c d = .eq := by
    rw [compareChains, h]
    exact Std.ReflCmp.compare_self
  exact eq_of_pairwise_lt t.pairwise_numberedChains hc hd heq (Std.OrientedCmp.eq_symm heq)

/-! ## Chains in the arena -/

section Arena

variable {a : Arena}

/-- The chain above a table leads to its parent. -/
def LeadsTo (a : Arena) (above : List (Nat × Table)) (id : Nat) : Option Nat → Prop
  | none => above = []
  | some p => p < id ∧ a.chain p = above.map Prod.fst

/-- A part of the tree with some number has the table at its top. -/
def IsPart (a : Arena) (e : Nat × Table) : Prop :=
  ∃ parent depth sub, a.Holds parent depth e.1 sub ∧ sub.root = e.2

theorem chain_of_leadsTo {above : List (Nat × Table)} {parent : Option Nat} {depth id : Nat}
    {t : TableTree} (hholds : a.Holds parent depth id t) (habove : LeadsTo a above id parent) :
    a.chain id = above.map Prod.fst ++ [id] := by
  cases parent with
  | none =>
    obtain rfl : above = [] := habove
    exact Arena.chain_of_root hholds.parent?_eq
  | some p =>
    obtain ⟨hp, hchain⟩ := habove
    rw [Arena.chain_of_parent? hholds.parent?_eq hp, hchain]

mutual
/-- Every table of a chain has the number it is listed with, and its own chain is the part of the
chain up to it. -/
theorem chain_of_mem_numberedFrom : ∀ {t : TableTree} {above c : List (Nat × Table)}
    {parent : Option Nat} {depth id : Nat}, a.Holds parent depth id t → LeadsTo a above id parent →
    c ∈ t.numberedFrom above id → ∀ {before : List (Nat × Table)} {e : Nat × Table}
      {behind : List (Nat × Table)}, c = before ++ e :: behind → above.length ≤ before.length →
      IsPart a e ∧ a.chain e.1 = (before ++ [e]).map Prod.fst
  | .node table children, above, c, parent, depth, id, hholds, habove, h, before, e, behind, hc,
      hlength => by
    have hchain := chain_of_leadsTo hholds habove
    have hbegins := begins_of_mem_numberedFrom h
    rw [numberedFrom] at h
    by_cases hlong : above.length < before.length
    · -- the table lies below the top
      rcases List.mem_cons.1 h with h | h
      · rw [hc] at h
        have := congrArg List.length h
        simp at this
        omega
      · exact chain_of_mem_numberedFromList hholds.below
          ⟨Nat.lt_succ_self id, by rw [hchain, List.map_append]; rfl⟩ h hc (by simpa using hlong)
    · -- the table is the top itself
      obtain ⟨rest, hrest⟩ := hbegins
      rw [hc] at hrest
      obtain ⟨rfl, htop⟩ := List.append_inj hrest (by omega)
      obtain ⟨rfl, -⟩ := List.cons.inj htop
      exact ⟨⟨parent, depth, _, hholds, rfl⟩, by rw [hchain, List.map_append]; rfl⟩

theorem chain_of_mem_numberedFromList : ∀ {l : List TableTree} {above c : List (Nat × Table)}
    {parent depth id : Nat}, a.HoldsList parent depth id l →
    (parent < id ∧ a.chain parent = above.map Prod.fst) → c ∈ numberedFromList above id l →
    ∀ {before : List (Nat × Table)} {e : Nat × Table} {behind : List (Nat × Table)},
      c = before ++ e :: behind → above.length ≤ before.length →
      IsPart a e ∧ a.chain e.1 = (before ++ [e]).map Prod.fst
  | [], _, _, _, _, _, _, _, h, _, _, _, _, _ => by simp [numberedFromList] at h
  | tree :: rest, above, c, parent, depth, id, hholds, habove, h, before, e, behind, hc,
      hlength => by
    rw [numberedFromList] at h
    rcases List.mem_append.1 h with h | h
    · exact chain_of_mem_numberedFrom hholds.first habove h hc hlength
    · exact chain_of_mem_numberedFromList hholds.others
        ⟨Nat.lt_of_lt_of_le habove.1 (Nat.le_add_right _ _), habove.2⟩ h hc hlength
end

/-- Every table of a chain has the number it is listed with, and its own chain is the part of the
chain up to it. -/
theorem chain_of_mem_numberedChains {t : TableTree} {before : List (Nat × Table)}
    {e : Nat × Table} {behind : List (Nat × Table)}
    (h : before ++ e :: behind ∈ t.numberedChains) :
    IsPart (Arena.ofTree t) e ∧ (Arena.ofTree t).chain e.1 = (before ++ [e]).map Prod.fst :=
  chain_of_mem_numberedFrom (Arena.holds_ofTree t) rfl h rfl (Nat.zero_le _)

theorem isPart_of_mem {t : TableTree} {c : List (Nat × Table)} {e : Nat × Table}
    (hc : c ∈ t.numberedChains) (he : e ∈ c) : IsPart (Arena.ofTree t) e := by
  obtain ⟨before, behind, rfl⟩ := List.append_of_mem he
  exact (chain_of_mem_numberedChains hc).1

/-- The last entry of a chain. -/
def lastEntry (chain : List (Nat × Table)) : Nat × Table := chain.getLast?.getD (0, default)

theorem lastEntry_concat (before : List (Nat × Table)) (e : Nat × Table) :
    lastEntry (before ++ [e]) = e := by
  simp [lastEntry]

mutual
theorem lastEntry_numberedFrom : ∀ (t : TableTree) (above : List (Nat × Table)) (id : Nat),
    (t.numberedFrom above id).map lastEntry =
      (t.tables.zipIdx id).map fun (table, k) => (k, table)
  | .node table children, above, id => by
    rw [numberedFrom, tables, List.map_cons, List.zipIdx_cons, List.map_cons, lastEntry_concat,
      lastEntry_numberedFromList]

theorem lastEntry_numberedFromList : ∀ (l : List TableTree) (above : List (Nat × Table))
    (id : Nat), (numberedFromList above id l).map lastEntry =
      ((tablesOfList l).zipIdx id).map fun (table, k) => (k, table)
  | [], _, _ => rfl
  | tree :: rest, above, id => by
    rw [numberedFromList, tablesOfList, List.map_append, List.zipIdx_append, List.map_append,
      lastEntry_numberedFrom, lastEntry_numberedFromList, length_tables]
end

/-- The chains lead to the tables, each with its number. -/
theorem map_lastEntry_numberedChains (tree : TableTree) :
    tree.numberedChains.map lastEntry = tree.tables.zipIdx.map fun (table, k) => (k, table) :=
  lastEntry_numberedFrom tree [] 0

/-- The numbers of a chain are the chain of its last table in the arena. -/
theorem ids_eq_chain {tree : TableTree} {chain : List (Nat × Table)}
    (hchain : chain ∈ tree.numberedChains) :
    chain.map Prod.fst = (Arena.ofTree tree).chain (lastEntry chain).1 := by
  obtain ⟨behind, hbegins⟩ := begins_of_mem_numberedFrom hchain
  rcases List.eq_nil_or_concat chain with rfl | ⟨before, e, rfl⟩
  · simp at hbegins
  · rw [List.concat_eq_append] at hchain ⊢
    rw [lastEntry_concat, (chain_of_mem_numberedChains hchain).2]

/-- The tables of a chain have the paths that the arena gives them. -/
theorem paths_eq_map_chain {tree : TableTree} {chain : List (Nat × Table)}
    (hchain : chain ∈ tree.numberedChains) : (chain.map fun e => e.2.path) =
      ((Arena.ofTree tree).chain (lastEntry chain).1).map (Arena.ofTree tree).path := by
  rw [← ids_eq_chain hchain, List.map_map]
  refine List.map_congr_left fun e he => ?_
  obtain ⟨parent, depth, sub, hsub, hroot⟩ := isPart_of_mem hchain he
  rw [← hroot]
  exact hsub.path_eq.symm

/-- The path of a table of a chain leads to its number. -/
theorem idOf?_of_isPart {tree : TableTree} (htree : tree.IsDerived) {e : Nat × Table}
    (h : IsPart (Arena.ofTree tree) e) : (Arena.ofTree tree).idOf? e.2.path = some e.1 := by
  obtain ⟨parent, depth, sub, hsub, hroot⟩ := h
  have hfound := Arena.idOf?_path htree hsub.get?_eq
  rwa [show (sub.topNode parent depth e.1).path = e.2.path by rw [← hroot]; rfl] at hfound

end Arena

/-! ## The length of a chain -/

mutual
/-- A chain has a table for each relation of its last table, and one for the root. -/
theorem length_of_mem_numberedFrom : ∀ {t : TableTree} {above c : List (Nat × Table)} {id : Nat},
    (∀ edge ∈ t.edges, ∃ r, edge.2.relations = edge.1.relations ++ [r]) →
    above.length = t.root.relations.length → c ∈ t.numberedFrom above id →
      ∃ before k table, c = before ++ [(k, table)] ∧ before.length = table.relations.length ∧
        table ∈ t.tables
  | .node table children, above, c, id, hedges, habove, h => by
    rw [numberedFrom] at h
    rcases List.mem_cons.1 h with rfl | h
    · exact ⟨above, id, table, rfl, habove, List.mem_cons_self⟩
    · have habove' : (above ++ [(id, table)]).length = table.relations.length + 1 := by
        rw [List.length_append, habove]
        rfl
      obtain ⟨before, k, last, hc, hlength, hmem⟩ :=
        length_of_mem_numberedFromList hedges habove' h
      exact ⟨before, k, last, hc, hlength, List.mem_cons_of_mem _ hmem⟩

theorem length_of_mem_numberedFromList : ∀ {l : List TableTree} {parent : Table}
    {above c : List (Nat × Table)} {id : Nat},
    (∀ edge ∈ edgesOfList parent l, ∃ r, edge.2.relations = edge.1.relations ++ [r]) →
    above.length = parent.relations.length + 1 → c ∈ numberedFromList above id l →
      ∃ before k table, c = before ++ [(k, table)] ∧ before.length = table.relations.length ∧
        table ∈ tablesOfList l
  | [], _, _, _, _, _, _, h => by simp [numberedFromList] at h
  | tree :: rest, parent, above, c, id, hedges, habove, h => by
    rw [edgesOfList] at hedges
    obtain ⟨hfirst, hedges⟩ := List.forall_mem_cons.1 hedges
    obtain ⟨r, hr⟩ := hfirst
    rw [numberedFromList] at h
    rw [tablesOfList]
    rcases List.mem_append.1 h with h | h
    · obtain ⟨before, k, last, hc, hlength, hmem⟩ := length_of_mem_numberedFrom
        (fun edge hedge => hedges edge (List.mem_append_left _ hedge))
        (by rw [habove, hr, List.length_append]; rfl) h
      exact ⟨before, k, last, hc, hlength, List.mem_append_left _ hmem⟩
    · obtain ⟨before, k, last, hc, hlength, hmem⟩ := length_of_mem_numberedFromList
        (fun edge hedge => hedges edge (List.mem_append_right _ hedge)) habove h
      exact ⟨before, k, last, hc, hlength, List.mem_append_right _ hmem⟩
end

/-- In a derived tree a chain has a table for each relation of its last table, and one for the
root. -/
theorem length_of_mem_numberedChains {t : TableTree} (ht : t.IsDerived) {c : List (Nat × Table)}
    (h : c ∈ t.numberedChains) :
    ∃ before k table, c = before ++ [(k, table)] ∧ before.length = table.relations.length ∧
      table ∈ t.tables := by
  refine length_of_mem_numberedFrom (fun edge hedge => ?_) ?_ h
  · obtain ⟨r, hr, -⟩ := ht.links hedge
    exact ⟨r, hr⟩
  · rw [ht.root_relations]
    rfl

end TableTree

end FeatureStore
