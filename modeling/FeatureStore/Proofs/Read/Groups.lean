import FeatureStore.Proofs.Table.Chains
import FeatureStore.Read.Reconstruction

/-!
# Join groups and their layouts

Which groups a read has and how their rows are laid out. The groups of a plan come from the chains
of the tree that lead to a table with a statement of its own, in order (`forall₂_groupsOf`), and
the keys of a group are those of all tables of its chain, because a chain has an alias for
each of its tables. In the tree of a plan every path is found, so a reconstruction always starts,
with the layout of each of these chains (`start_ofStorage`).
-/

set_option autoImplicit false

namespace FeatureStore

/-! ## Chains that are read -/

/-- The last table of a chain. -/
def lastTable (chain : List (Nat × Table)) : Table := (chain.getLast?.map Prod.snd).getD default

/-- The chain leads to a table with a statement of its own. -/
def isReadChain (chain : List (Nat × Table)) : Bool := (lastTable chain).isRead

/-- The chains to the tables that have a statement of their own, in pre-order. -/
def TableTree.readChains (t : TableTree) : List (List (Nat × Table)) :=
  t.numberedChains.filter isReadChain

/-- The layout of the rows of the last table of a chain, in some directions of the reader's keys. -/
def chainLayout (flags : List Bool) (chain : List (Nat × Table)) : GroupLayout where
  path := (lastTable chain).path
  chain := chain.map Prod.fst
  columns := (lastTable chain).columns
  sort := SortLayout.ofFlags flags
    ((List.range flags.length).map readerKeyName ++ chain.map fun e => e.2.path)

theorem lastTable_append (before : List (Nat × Table)) (k : Nat) (t : Table) :
    lastTable (before ++ [(k, t)]) = t := by
  simp [lastTable]

/-- The chain of the root alone comes first. -/
theorem TableTree.numberedChains_eq_cons (tree : TableTree) :
    ∃ rest, tree.numberedChains = [(0, tree.root)] :: rest := by
  rcases tree with ⟨table, children⟩
  exact ⟨_, rfl⟩

/-- The root table is read first. -/
theorem TableTree.IsDerived.readChains_eq_cons {tree : TableTree} (htree : tree.IsDerived) :
    ∃ rest, tree.readChains = [(0, tree.root)] :: rest := by
  have hread : isReadChain [(0, tree.root)] = true := by
    show tree.root.isRead = true
    rw [Table.isRead, Table.isRoot, htree.root_relations]
    rfl
  obtain ⟨rest, hrest⟩ := tree.numberedChains_eq_cons
  rw [TableTree.readChains, hrest, List.filter_cons_of_pos hread]
  exact ⟨_, rfl⟩

/-! ## Groups of a plan -/

/-- The group reads the last table of the chain and has a key for each table of the chain. -/
structure JoinGroup.IsOf (group : JoinGroup) (chain : List (Nat × Table)) : Prop where
  path_eq : group.path = (lastTable chain).path
  columns_eq : group.columns = (lastTable chain).columns
  keys_eq : group.keys.map ChainKey.path = chain.map fun e => e.2.path

/-- Along relations there is an alias for each table that is no junction. -/
theorem length_tableAliases : ∀ (relations : List Relation) (names : List Alias),
    names.length = 1 + joinedCount relations →
      (tableAliases relations names).length = relations.length + 1
  | _, [], h => by
    rw [List.length_nil] at h
    omega
  | [], name :: names, _ => rfl
  | r :: relations, name :: names, h => by
    rw [joinedCount, List.length_cons] at h
    -- the alias of a junction, if there is one, is passed over
    have hcount : 1 ≤ r.tableCount := by
      unfold Relation.tableCount
      split <;> omega
    rw [tableAliases, List.length_cons, length_tableAliases, List.length_cons]
    rw [List.length_drop]
    omega

/-- The group of a chain as long as its last table is deep. -/
theorem isOf_of_ofChain {s : Storage} {restriction : Option Sql} {before : List (Nat × Table)}
    {k : Nat} {table : Table} {group : JoinGroup}
    (hlength : before.length = table.relations.length)
    (h : JoinGroup.ofChain s restriction ((before ++ [(k, table)]).map Prod.snd) table =
      .ok group) :
    group.IsOf (before ++ [(k, table)]) := by
  obtain ⟨joins, -, hgroup⟩ := bind_eq_ok.1 h
  obtain rfl := pure_eq_ok.1 hgroup
  refine ⟨by rw [lastTable_append], by rw [lastTable_append], ?_⟩
  -- tables and aliases are as many, so pairing them loses no table
  have hown : (tableAliases table.relations (aliasChain 0 table.relations)).length =
      (before ++ [(k, table)]).length := by
    rw [length_tableAliases _ _ (by simp [aliasChain]), List.length_append, hlength]
    rfl
  show List.map ChainKey.path
    (List.map (fun x => JoinGroup.chainKey x.1 x.2) (List.zip _ _)) = _
  have hpath : (ChainKey.path ∘ fun x : Table × Alias => JoinGroup.chainKey x.1 x.2) =
      Table.path ∘ Prod.fst := rfl
  rw [List.map_map, hpath, ← List.map_map, List.map_fst_zip (by rw [hown, List.length_map]),
    List.map_map]
  rfl

/-- The members of a list for which a traversal gives something, related to what it gives. -/
theorem forall₂_filter_filterMap {α β : Type} {R : α → Option β → Prop} {S : α → β → Prop}
    {p : α → Bool} : ∀ {l : List α} {out : List (Option β)}, List.Forall₂ R l out →
      (∀ a ∈ l, ∀ o, R a o → (p a = true ∧ ∃ b, o = some b ∧ S a b) ∨ (p a = false ∧ o = none)) →
      List.Forall₂ S (l.filter p) (out.filterMap id)
  | [], [], _, _ => List.Forall₂.nil
  | a :: l, o :: out, .cons ha hl, h => by
    have ih := forall₂_filter_filterMap hl fun b hb => h b (List.mem_cons_of_mem _ hb)
    rcases h a List.mem_cons_self o ha with ⟨hp, b, rfl, hs⟩ | ⟨hp, rfl⟩
    · rw [List.filter_cons_of_pos hp]
      exact List.Forall₂.cons hs ih
    · rw [List.filter_cons_of_neg (by simp [hp])]
      exact ih

/-- The groups of a tree are those of its read chains, in order. -/
theorem forall₂_groupsOf {s : Storage} (htree : s.tree.IsDerived) {groups : List JoinGroup}
    (h : ReadPlan.groupsOf s = .ok groups) :
    List.Forall₂ (fun chain group => chain ∈ s.tree.numberedChains ∧ group.IsOf chain)
      s.tree.readChains groups := by
  obtain ⟨root, -, h⟩ := bind_eq_ok.1 h
  obtain ⟨found, hfound, h⟩ := bind_eq_ok.1 h
  obtain rfl := pure_eq_ok.1 h
  rw [mapM_eq_ok_iff, ← TableTree.tables_numberedChains, List.forall₂_map_left_iff] at hfound
  refine forall₂_filter_filterMap hfound fun chain hchain o ho => ?_
  obtain ⟨before, k, table, rfl, hlength, -⟩ := TableTree.length_of_mem_numberedChains htree hchain
  rw [show ((before ++ [(k, table)]).map Prod.snd).getLast? = some table by simp] at ho
  dsimp only at ho
  rw [isReadChain, lastTable_append]
  -- a table gives a group exactly if it has a statement of its own
  cases hread : table.isRead with
  | true =>
    rw [hread, if_pos rfl] at ho
    obtain ⟨group, hgroup, ho⟩ := bind_eq_ok.1 ho
    obtain rfl := pure_eq_ok.1 ho
    exact Or.inl ⟨rfl, group, rfl, hchain, isOf_of_ofChain hlength hgroup⟩
  | false =>
    rw [hread, if_neg (by simp)] at ho
    obtain rfl := pure_eq_ok.1 ho
    exact Or.inr ⟨rfl, rfl⟩

/-- Every group of a tree is that of a chain as long as its last table is deep. -/
theorem exists_ofChain_of_mem_groups {s : Storage} (htree : s.tree.IsDerived)
    {groups : List JoinGroup} (h : ReadPlan.groupsOf s = .ok groups) {group : JoinGroup}
    (hgroup : group ∈ groups) : ∃ restriction before k table,
      before ++ [(k, table)] ∈ s.tree.numberedChains ∧ before.length = table.relations.length ∧
      table ∈ s.tree.tables ∧ JoinGroup.ofChain { s with collation := none } restriction
        ((before ++ [(k, table)]).map Prod.snd) table = .ok group := by
  obtain ⟨root, -, h⟩ := bind_eq_ok.1 h
  obtain ⟨found, hfound, h⟩ := bind_eq_ok.1 h
  obtain rfl := pure_eq_ok.1 h
  obtain ⟨o, ho, rfl⟩ := List.mem_filterMap.1 hgroup
  obtain ⟨chain, hchain, hmade⟩ := exists_of_mapM_eq_ok hfound ho
  rw [← TableTree.tables_numberedChains] at hchain
  obtain ⟨numbered, hnumbered, rfl⟩ := List.mem_map.1 hchain
  obtain ⟨before, k, table, rfl, hlength, htable⟩ :=
    TableTree.length_of_mem_numberedChains htree hnumbered
  rw [show ((before ++ [(k, table)]).map Prod.snd).getLast? = some table by simp] at hmade
  dsimp only at hmade
  split at hmade
  · obtain ⟨made, hofChain, hmade⟩ := bind_eq_ok.1 hmade
    obtain rfl := Option.some.inj (pure_eq_ok.1 hmade)
    exact ⟨_, before, k, table, hnumbered, hlength, htable, hofChain⟩
  · simp [pure_eq_ok] at hmade

/-! ## The start of a reconstruction -/

/-- The layout of a group is that of its chain. -/
theorem layoutOf_eq {tree : TableTree} (htree : tree.IsDerived) {chain : List (Nat × Table)}
    (hchain : chain ∈ tree.numberedChains) {group : JoinGroup} (hgroup : group.IsOf chain)
    (flags : List Bool) :
    Reconstruction.layoutOf (Arena.ofTree tree) flags group = .ok (chainLayout flags chain) := by
  have hids : List.Forall₂ (fun (key : ChainKey) id =>
      (Arena.ofTree tree).idOf? key.path = some id) group.keys (chain.map Prod.fst) := by
    have hpaths : List.Forall₂ (fun (path : String) id =>
        (Arena.ofTree tree).idOf? path = some id)
        (group.keys.map ChainKey.path) (chain.map Prod.fst) := by
      rw [hgroup.keys_eq, List.forall₂_map_left_iff, List.forall₂_map_right_iff, List.forall₂_same]
      intro e he
      exact TableTree.idOf?_of_isPart htree (TableTree.isPart_of_mem hchain he)
    rwa [List.forall₂_map_left_iff] at hpaths
  rw [Reconstruction.layoutOf]
  refine bind_eq_ok.2 ⟨chain.map Prod.fst, mapM_eq_ok_iff.2 (hids.imp fun key id hid => ?_), ?_⟩
  · rw [hid]
  · rw [hgroup.path_eq, hgroup.columns_eq, hgroup.keys_eq]
    rfl

/-- A reconstruction for a derived tree before its first row. -/
def initial (plan : ReadPlan) (flags : List Bool) : Reconstruction :=
  ⟨plan.featureType, flags.length, plan.storage.tree.readChains.map (chainLayout flags),
    Multiplicities.start (Arena.ofTree plan.storage.tree), none, 0, 0⟩

/-- A reconstruction for the plan of a derived tree always starts, with the layouts of the read
chains. -/
theorem start_ofStorage {name : String} {s : Storage} {counted : Bool} {plan : ReadPlan}
    (htree : s.tree.IsDerived) (hplan : ReadPlan.ofStorage name s counted = .ok plan)
    (flags : List Bool) :
    plan.storage = s ∧ plan.featureType = name ∧
      Reconstruction.start plan flags = .ok (initial plan flags) := by
  obtain ⟨groups, hgroups, hplan⟩ := bind_eq_ok.1 hplan
  obtain rfl := pure_eq_ok.1 hplan
  refine ⟨rfl, rfl, bind_eq_ok.2 ⟨s.tree.readChains.map (chainLayout flags), ?_, rfl⟩⟩
  rw [mapM_eq_ok_iff, List.forall₂_map_right_iff]
  refine (forall₂_groupsOf htree hgroups).flip.imp fun group chain hgroup => ?_
  exact layoutOf_eq htree hgroup.1 hgroup.2 flags

/-! ## Rows of a group -/

/-- A row that is long enough for its group and has all sort keys gives events. -/
theorem push_of_keys {r : Reconstruction} {x : MergedRow} {group : GroupLayout}
    {keys : List String} (hgroup : r.groups[x.group]? = some group)
    (hlong : r.readerKeys + group.chain.length + group.columns.length ≤ x.row.length)
    (hkeys : ((List.range group.chain.length).map (r.readerKeys + ·)).mapM x.row.text? =
      some keys) :
    r.push x = (.ok ({ r with rows := r.rows + 1 }.pushKeyed x.group group x.row keys).1,
      ({ r with rows := r.rows + 1 }.pushKeyed x.group group x.row keys).2) := by
  rw [Reconstruction.push]
  simp only [hgroup, if_neg (Nat.not_lt.2 hlong), hkeys]

end FeatureStore
