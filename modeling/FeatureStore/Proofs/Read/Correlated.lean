import FeatureStore.Proofs.Read.PageCut

/-!
# Shared sort keys

Rows of different groups belong together if they agree in the sort keys of the tables that their
chains share. The key of a table is the same expression in all groups: its alias is counted along
the relations of the table alone (`exists_keys_eq_map`), and groups that share a table share all
tables above it (`keys_eq_of_path`). But what the expression gives depends on its kind. A key that
tells rows apart is a cell, so it is the same for the same row whatever else is joined. Rows that
are numbered are those of the whole group, with the tables joined below; then the numbers of two
groups agree exactly if each shared row is found once in either, without a tie and behind as many
rows (`correlates_iff_numbersAgree`).
-/

set_option autoImplicit false

namespace FeatureStore

/-! ## Fronts of chains -/

/-- A member of a list is what stands between a front and the rest. -/
theorem eq_take_append_of_getElem? {α : Type} {l : List α} {a : α} {n : Nat}
    (h : l[n]? = some a) : l = l.take n ++ a :: l.drop (n + 1) ∧ (l.take n).length = n := by
  obtain ⟨hn, hget⟩ := List.getElem?_eq_some_iff.1 h
  rw [← hget, ← List.drop_eq_getElem_cons hn, List.take_append_drop, List.length_take,
    Nat.min_eq_left hn.le]
  exact ⟨rfl, rfl⟩

namespace TableTree

mutual
/-- A front of a chain is a chain. -/
theorem front_mem_numberedFrom : ∀ {t : TableTree} {above c : List (Nat × Table)} {id : Nat},
    c ∈ t.numberedFrom above id → ∀ {before : List (Nat × Table)} {e : Nat × Table}
      {behind : List (Nat × Table)}, c = before ++ e :: behind → above.length ≤ before.length →
      before ++ [e] ∈ t.numberedFrom above id
  | .node table children, above, c, id, h, before, e, behind, hc, hlength => by
    obtain ⟨rest, hrest⟩ := begins_of_mem_numberedFrom h
    rw [numberedFrom] at h ⊢
    rcases Nat.lt_or_ge above.length before.length with hlong | hshort
    · rcases List.mem_cons.1 h with h | h
      · have hcount := congrArg List.length (hc.symm.trans h)
        simp only [List.length_append, List.length_cons, List.length_nil] at hcount
        omega
      · refine List.mem_cons_of_mem _ (front_mem_numberedFromList h hc ?_)
        rw [List.length_append]
        exact hlong
    · rw [hc] at hrest
      obtain ⟨rfl, htop⟩ := List.append_inj hrest (by omega)
      obtain ⟨rfl, -⟩ := List.cons.inj htop
      exact List.mem_cons_self

theorem front_mem_numberedFromList : ∀ {l : List TableTree} {above c : List (Nat × Table)}
    {id : Nat}, c ∈ numberedFromList above id l → ∀ {before : List (Nat × Table)}
      {e : Nat × Table} {behind : List (Nat × Table)}, c = before ++ e :: behind →
      above.length ≤ before.length → before ++ [e] ∈ numberedFromList above id l
  | [], _, _, _, h, _, _, _, _, _ => by simp [numberedFromList] at h
  | tree :: rest, above, c, id, h, before, e, behind, hc, hlength => by
    rw [numberedFromList] at h ⊢
    rcases List.mem_append.1 h with h | h
    · exact List.mem_append_left _ (front_mem_numberedFrom h hc hlength)
    · exact List.mem_append_right _ (front_mem_numberedFromList h hc hlength)
end

mutual
/-- The relations of a table begin with those of every table above it. -/
theorem relations_prefix_numberedFrom : ∀ {t : TableTree} {above c : List (Nat × Table)}
    {id : Nat}, (∀ edge ∈ t.edges, ∃ r, edge.2.relations = edge.1.relations ++ [r]) →
      (∀ e ∈ above, e.2.relations <+: t.root.relations) → c ∈ t.numberedFrom above id →
        ∀ e ∈ c, e.2.relations <+: (lastEntry c).2.relations
  | .node table children, above, c, id, hedges, habove, h => by
    have hown : ∀ e ∈ above ++ [(id, table)], e.2.relations <+: table.relations :=
      List.forall_mem_append.2 ⟨habove, List.forall_mem_singleton.2 (List.prefix_refl _)⟩
    rw [numberedFrom] at h
    rcases List.mem_cons.1 h with rfl | h
    · rw [lastEntry_concat]
      exact hown
    · exact relations_prefix_numberedFromList hedges hown h

theorem relations_prefix_numberedFromList : ∀ {l : List TableTree} {parent : Table}
    {above c : List (Nat × Table)} {id : Nat},
    (∀ edge ∈ edgesOfList parent l, ∃ r, edge.2.relations = edge.1.relations ++ [r]) →
      (∀ e ∈ above, e.2.relations <+: parent.relations) → c ∈ numberedFromList above id l →
        ∀ e ∈ c, e.2.relations <+: (lastEntry c).2.relations
  | [], _, _, _, _, _, _, h => by simp [numberedFromList] at h
  | tree :: rest, parent, above, c, id, hedges, habove, h => by
    rw [edgesOfList] at hedges
    obtain ⟨⟨r, hr⟩, hedges⟩ := List.forall_mem_cons.1 hedges
    obtain ⟨hfirst, hothers⟩ := List.forall_mem_append.1 hedges
    rw [numberedFromList] at h
    rcases List.mem_append.1 h with h | h
    · refine relations_prefix_numberedFrom hfirst (fun e he => ?_) h
      have hr : tree.root.relations = parent.relations ++ [r] := hr
      rw [hr]
      exact (habove e he).trans (List.prefix_append _ _)
    · exact relations_prefix_numberedFromList hothers habove h
end

variable {tree : TableTree} {before behind : List (Nat × Table)} {e : Nat × Table}

theorem front_mem_numberedChains (h : before ++ e :: behind ∈ tree.numberedChains) :
    before ++ [e] ∈ tree.numberedChains :=
  front_mem_numberedFrom h rfl (Nat.zero_le _)

/-- Where a table stands in a chain is told by its relations, which are the first of those of the
last table. -/
theorem IsDerived.relations_eq_take (htree : tree.IsDerived) {l : List (Nat × Table)}
    (hl : l ∈ tree.numberedChains) {i : Nat} (he : l[i]? = some e) :
    e.2.relations = (lastEntry l).2.relations.take i := by
  obtain ⟨hsplit, hfront⟩ := eq_take_append_of_getElem? he
  rw [hsplit] at hl
  obtain ⟨above, k, table, hchain, hlength, -⟩ :=
    length_of_mem_numberedChains htree (front_mem_numberedChains hl)
  obtain ⟨rfl, hlast⟩ := List.append_inj' hchain rfl
  obtain rfl := (List.cons.inj hlast).1
  have hprefix : table.relations <+: (lastEntry l).2.relations := by
    rw [← hsplit] at hl
    refine relations_prefix_numberedFrom (fun edge hedge => ?_) (by simp) hl _
      (List.mem_of_getElem? he)
    obtain ⟨r, hr, -⟩ := htree.links hedge
    exact ⟨r, hr⟩
  rw [← hfront, hlength]
  exact List.prefix_iff_eq_take.1 hprefix

theorem IsDerived.table_mem (htree : tree.IsDerived) {l : List (Nat × Table)}
    (hl : l ∈ tree.numberedChains) (he : e ∈ l) : e.2 ∈ tree.tables := by
  obtain ⟨before, behind, rfl⟩ := List.append_of_mem he
  obtain ⟨front, k, table, hfront, -, htable⟩ :=
    length_of_mem_numberedChains htree (front_mem_numberedChains hl)
  obtain rfl := (List.cons.inj (List.append_inj' hfront rfl).2).1
  exact htable

/-- There is one chain to a table. -/
theorem IsDerived.chain_eq_of_path (htree : tree.IsDerived) {l l' : List (Nat × Table)}
    (hl : l ∈ tree.numberedChains) (hl' : l' ∈ tree.numberedChains)
    (hpath : (lastEntry l).2.path = (lastEntry l').2.path) : l = l' := by
  have hpaths : tree.numberedChains.map (fun l => (lastEntry l).2.path) =
      (tree.tables.zipIdx.map Prod.fst).map Table.path := by
    show tree.numberedChains.map ((Table.path ∘ Prod.snd) ∘ lastEntry) = _
    rw [← List.map_map, map_lastEntry_numberedChains, List.map_map, List.map_map]
    rfl
  rw [List.zipIdx_map_fst] at hpaths
  exact List.inj_on_of_nodup_map (hpaths ▸ htree.nodup_paths) hl hl' hpath

/-- A chain up to one of its tables is a chain. -/
theorem take_mem_numberedChains {l : List (Nat × Table)} (hl : l ∈ tree.numberedChains) {i : Nat}
    (he : l[i]? = some e) :
    l.take (i + 1) = l.take i ++ [e] ∧ l.take (i + 1) ∈ tree.numberedChains := by
  have htake : l.take (i + 1) = l.take i ++ [e] := by
    rw [List.take_add_one, he]
    rfl
  rw [(eq_take_append_of_getElem? he).1] at hl
  exact ⟨htake, htake ▸ front_mem_numberedChains hl⟩

/-- Chains that share a table share all tables above it. -/
theorem IsDerived.take_eq_of_path (htree : tree.IsDerived) {l l' : List (Nat × Table)}
    (hl : l ∈ tree.numberedChains) (hl' : l' ∈ tree.numberedChains) {i j : Nat}
    {e e' : Nat × Table} (he : l[i]? = some e) (he' : l'[j]? = some e')
    (hpath : e.2.path = e'.2.path) : j = i ∧ l'.take (i + 1) = l.take (i + 1) := by
  obtain ⟨hi, -⟩ := List.getElem?_eq_some_iff.1 he
  obtain ⟨hj, -⟩ := List.getElem?_eq_some_iff.1 he'
  obtain ⟨htake, hmem⟩ := take_mem_numberedChains hl he
  obtain ⟨htake', hmem'⟩ := take_mem_numberedChains hl' he'
  have heq : l'.take (j + 1) = l.take (i + 1) := by
    refine htree.chain_eq_of_path hmem' hmem ?_
    rw [htake, htake', lastEntry_concat, lastEntry_concat, hpath]
  have hlength := congrArg List.length heq
  rw [List.length_take, List.length_take, Nat.min_eq_left hi, Nat.min_eq_left hj] at hlength
  obtain rfl : j = i := Nat.succ.inj hlength
  exact ⟨rfl, heq⟩

end TableTree

/-! ## Keys of groups -/

/-- The aliases of the tables along relations are counted along the relations in front of each. -/
theorem tableAliases_range' (depth : Nat) : ∀ (relations : List Relation) (start : Nat),
    tableAliases relations
        ((List.range' start (1 + joinedCount relations)).map (Alias.slot depth)) =
      (List.range (relations.length + 1)).map fun i =>
        Alias.slot depth (start + joinedCount (relations.take i))
  | [], start => rfl
  | r :: relations, start => by
    have hpos := tableCount_pos r
    -- the alias of a junction is passed over
    have hnames : (List.range' start (1 + joinedCount (r :: relations))).map (Alias.slot depth) =
        Alias.slot depth start ::
          (List.range' (start + 1) (r.tableCount + joinedCount relations)).map
            (Alias.slot depth) := by
      rw [joinedCount, Nat.add_comm 1, List.range'_succ, List.map_cons]
    have hdrop : (List.range' (start + 1) (r.tableCount + joinedCount relations)).drop
        (r.tableCount - 1) = List.range' (start + r.tableCount) (1 + joinedCount relations) := by
      rw [List.drop_range']
      congr 1 <;> omega
    rw [hnames, tableAliases, ← List.map_drop, hdrop, tableAliases_range' depth relations,
      List.length_cons, List.range_succ_eq_map (n := relations.length + 1), List.map_cons,
      List.map_map]
    refine congrArg _ (List.map_congr_left fun i _ => ?_)
    rw [Function.comp_apply, Nat.succ_eq_add_one, List.take_succ_cons, joinedCount, Nat.add_assoc]

theorem tableAliases_aliasChain (depth : Nat) (relations : List Relation) :
    tableAliases relations (aliasChain depth relations) =
      (List.range (relations.length + 1)).map fun i =>
        Alias.slot depth (joinedCount (relations.take i)) := by
  have h := tableAliases_range' depth relations 0
  simp only [Nat.zero_add] at h
  rwa [aliasChain, List.range_eq_range']

/-- The sort key of a numbered table, under the alias that its relations tell. -/
def keyOf (e : Nat × Table) : ChainKey :=
  JoinGroup.chainKey e.2 (.slot 0 (joinedCount e.2.relations))

/-- The key of a table is the same in all groups. -/
theorem exists_keys_eq_map {s : Storage} {groups : List JoinGroup} (htree : s.tree.IsDerived)
    (h : ReadPlan.groupsOf s = .ok groups) {group : JoinGroup} (hgroup : group ∈ groups) :
    ∃ chain ∈ s.tree.numberedChains, group.keys = chain.map keyOf := by
  obtain ⟨restriction, before, k, table, hchain, hlength, htable, hmade⟩ :=
    exists_ofChain_of_mem_groups htree h hgroup
  obtain ⟨joins, hjoins, hmade⟩ := bind_eq_ok.1 hmade
  obtain rfl := pure_eq_ok.1 hmade
  refine ⟨_, hchain, ?_⟩
  simp only [tableAliases_aliasChain]
  refine List.ext_getElem (by simp [hlength]) fun i hi hi' => ?_
  rw [List.length_map] at hi'
  have hrelations := htree.relations_eq_take hchain (List.getElem?_eq_getElem hi')
  rw [TableTree.lastEntry_concat] at hrelations
  simp only [List.getElem_map, List.getElem_zip, List.getElem_range, keyOf, hrelations]

/-- Groups that share a table share the keys of all tables above it. -/
theorem keys_eq_of_path {s : Storage} {groups : List JoinGroup} (htree : s.tree.IsDerived)
    (h : ReadPlan.groupsOf s = .ok groups) {g g' : JoinGroup} (hg : g ∈ groups) (hg' : g' ∈ groups)
    {i j : Nat} {key key' : ChainKey} (hkey : g.keys[i]? = some key)
    (hkey' : g'.keys[j]? = some key') (hpath : key.path = key'.path) :
    j = i ∧ g'.keys.take (i + 1) = g.keys.take (i + 1) ∧ key' = key := by
  obtain ⟨c, hc, hkeys⟩ := exists_keys_eq_map htree h hg
  obtain ⟨c', hc', hkeys'⟩ := exists_keys_eq_map htree h hg'
  rw [hkeys, List.getElem?_map, Option.map_eq_some_iff] at hkey
  rw [hkeys', List.getElem?_map, Option.map_eq_some_iff] at hkey'
  obtain ⟨e, he, rfl⟩ := hkey
  obtain ⟨e', he', rfl⟩ := hkey'
  obtain ⟨rfl, htake⟩ := htree.take_eq_of_path hc hc' he he' hpath
  refine ⟨rfl, by rw [hkeys, hkeys', ← List.map_take, ← List.map_take, htake], ?_⟩
  have hentry := congrArg (·[j]?) htake
  rw [List.getElem?_take_of_lt (Nat.lt_succ_self j), List.getElem?_take_of_lt (Nat.lt_succ_self j),
    he, he'] at hentry
  rw [Option.some.inj hentry]

/-! ## Places in an order -/

section Places

variable {α K : Type} [LinearOrder K] (f : α → K)

/-- The number of members with a smaller key. -/
def countBelow (l : List α) (a : α) : Nat := l.countP fun b => decide (f b < f a)

/-- The number of members with the same key. -/
def countSame (l : List α) (a : α) : Nat := l.countP fun b => decide (f b = f a)

variable {f} {l : List α} {a : α} {n : Nat}

/-- In order, a member with a key of its own stands behind all with a smaller key. -/
theorem countBelow_eq_of_getElem? (hsorted : l.Pairwise fun a b => f a ≤ f b) (h : l[n]? = some a)
    (hsame : countSame f l a = 1) : countBelow f l a = n := by
  obtain ⟨hsplit, hlength⟩ := eq_take_append_of_getElem? h
  rw [hsplit] at hsorted hsame
  obtain ⟨-, hrest, hfront⟩ := List.pairwise_append.1 hsorted
  have hbehind := (List.pairwise_cons.1 hrest).1
  rw [countSame, List.countP_append, List.countP_cons_of_pos (by simp)] at hsame
  have hnone : (l.take n).countP (fun b => decide (f b = f a)) = 0 := by omega
  have hless : ∀ b ∈ l.take n, decide (f b < f a) = true := by
    intro b hb
    have hne := List.countP_eq_zero.1 hnone b hb
    exact decide_eq_true (lt_of_le_of_ne (hfront b hb a List.mem_cons_self)
      fun heq => hne (decide_eq_true heq))
  have hmore : (l.drop (n + 1)).countP (fun b => decide (f b < f a)) = 0 := by
    refine List.countP_eq_zero.2 fun b hb hlt => ?_
    exact absurd (of_decide_eq_true hlt) (not_lt_of_ge (hbehind b hb))
  rw [countBelow, hsplit, List.countP_append, List.countP_cons_of_neg (by simp),
    List.countP_eq_length.2 hless, hmore, hlength, Nat.add_zero]

/-- In order, a member that shares its key can stand at another place as well. -/
theorem exists_perm_of_countSame (hsorted : l.Pairwise fun a b => f a ≤ f b) (h : l[n]? = some a)
    (hsame : countSame f l a ≠ 1) : ∃ (l' : List α) (m : Nat), l'.Perm l ∧
      (l'.Pairwise fun a b => f a ≤ f b) ∧ l'[m]? = some a ∧ m ≠ n := by
  obtain ⟨hsplit, hlength⟩ := eq_take_append_of_getElem? h
  obtain ⟨hn, hget⟩ := List.getElem?_eq_some_iff.1 h
  -- another place with the same key
  obtain ⟨m, b, hm, hb, hne⟩ : ∃ m b, l[m]? = some b ∧ f b = f a ∧ m ≠ n := by
    have hcount : 0 < (l.take n).countP (fun b => decide (f b = f a)) ∨
        0 < (l.drop (n + 1)).countP (fun b => decide (f b = f a)) := by
      rw [countSame, hsplit, List.countP_append, List.countP_cons_of_pos (by simp)] at hsame
      omega
    rcases hcount with hcount | hcount
    · obtain ⟨b, hb, heq⟩ := List.countP_pos_iff.1 hcount
      obtain ⟨m, hm⟩ := List.mem_iff_getElem?.1 hb
      have hlt : m < n := hlength ▸ (List.getElem?_eq_some_iff.1 hm).1
      rw [List.getElem?_take_of_lt hlt] at hm
      exact ⟨m, b, hm, of_decide_eq_true heq, hlt.ne⟩
    · obtain ⟨b, hb, heq⟩ := List.countP_pos_iff.1 hcount
      obtain ⟨m, hm⟩ := List.mem_iff_getElem?.1 hb
      rw [List.getElem?_drop] at hm
      exact ⟨n + 1 + m, b, hm, of_decide_eq_true heq, by omega⟩
  obtain ⟨hmlt, hgetm⟩ := List.getElem?_eq_some_iff.1 hm
  refine ⟨(l.set n b).set m a, m, ?_, ?_, ?_, hne⟩
  · have hswap := List.set_set_perm hn hmlt
    rwa [hget, hgetm] at hswap
  · -- the keys stay where they are
    have hkeys : ((l.set n b).set m a).map f = l.map f := by
      refine List.ext_getElem? fun k => ?_
      rw [List.getElem?_map, List.getElem?_map, List.getElem?_set, List.getElem?_set]
      split
      · rename_i hk
        subst hk
        simp [hmlt, hgetm, hb]
      · split
        · rename_i hk
          subst hk
          simp [hn, hget, hb]
        · rfl
    rw [← List.pairwise_map (R := (· ≤ ·))] at hsorted ⊢
    rwa [hkeys]
  · exact List.getElem?_set_self (by rwa [List.length_set])

end Places

/-! ## Values of keys -/

/-- What a statement gives for a sort key. -/
inductive SelectedKey where
  | cell (value : Option String)
  | number (n : Nat)
  deriving DecidableEq

namespace Database

variable (d : Database) {K : Type} [LinearOrder K] (read : Option String → K)

/-- Rows found, numbered from one on. -/
def numbered (rows : List d.Found) : List (d.Found × SelectedKey) :=
  (rows.zipIdx 1).map fun (found, n) => (found, .number n)

/-- The cell that a sort key is made of, as cells are ordered. -/
def orderAt (key : ChainKey) (found : d.Found) : K := read (d.cellAt found key.table key.column)

/-- What a statement gives for a sort key on all rows that its joins and conditions find. A key that
tells rows apart is a cell of its row. Otherwise the rows found are numbered in the order of the
cell, and rows with the same cell in any order. -/
def SelectsKey (key : ChainKey) (found : List d.Found) (values : List (d.Found × SelectedKey)) :
    Prop :=
  if key.isUnique then
    values = found.map fun row => (row, .cell (d.cellAt row key.table key.column))
  else ∃ ordered : List d.Found, ordered.Perm found ∧
    ordered.Pairwise (fun a b => d.orderAt read key a ≤ d.orderAt read key b) ∧
    values = d.numbered ordered

/-- The tables of some keys have the same rows. -/
def SharesRows (front : List ChainKey) (a b : d.Found) : Prop :=
  ∀ key ∈ front, a key.table = b key.table

/-- Two statements always give the same value of a key where they share the rows of a front. -/
def Correlates (front : List ChainKey) (key : ChainKey) (found found' : List d.Found) : Prop :=
  ∀ values values', d.SelectsKey read key found values → d.SelectsKey read key found' values' →
    ∀ x ∈ values, ∀ y ∈ values', d.SharesRows front x.1 y.1 → x.2 = y.2

/-- Where two statements share the rows of a front, the row stands behind as many others in the
order of the key, and no other row has the same cell. So it is found only once. -/
def NumbersAgree (front : List ChainKey) (key : ChainKey) (found found' : List d.Found) : Prop :=
  ∀ a ∈ found, ∀ b ∈ found', d.SharesRows front a b →
    countBelow (d.orderAt read key) found a = countBelow (d.orderAt read key) found' b ∧
      countSame (d.orderAt read key) found a = 1 ∧ countSame (d.orderAt read key) found' b = 1

variable {d} {read} {front : List ChainKey} {key : ChainKey} {found found' : List d.Found}

theorem mem_numbered {rows : List d.Found} {x : d.Found × SelectedKey} :
    x ∈ d.numbered rows ↔ ∃ n, rows[n]? = some x.1 ∧ x.2 = .number (n + 1) := by
  rw [numbered, List.mem_map]
  constructor
  · rintro ⟨⟨row, n⟩, hmem, rfl⟩
    obtain ⟨hn, hget⟩ := List.mk_mem_zipIdx_iff_le_and_getElem?_sub.1 hmem
    exact ⟨n - 1, hget, by rw [Nat.sub_add_cancel hn]⟩
  · rintro ⟨n, hget, hvalue⟩
    refine ⟨(x.1, n + 1), List.mk_mem_zipIdx_iff_le_and_getElem?_sub.2 ⟨by omega, hget⟩, ?_⟩
    exact Prod.ext rfl hvalue.symm

/-- Rows can be put in the order of a key. -/
theorem exists_ordered (read : Option String → K) (key : ChainKey) (found : List d.Found) :
    ∃ ordered : List d.Found, ordered.Perm found ∧
      ordered.Pairwise fun a b => d.orderAt read key a ≤ d.orderAt read key b := by
  refine ⟨found.mergeSort fun a b => decide (d.orderAt read key a ≤ d.orderAt read key b),
    List.mergeSort_perm _ _, ?_⟩
  refine (List.pairwise_mergeSort (fun a b c hab hbc => ?_) (fun a b => ?_) found).imp
    fun h => of_decide_eq_true h
  · exact decide_eq_true ((of_decide_eq_true hab).trans (of_decide_eq_true hbc))
  · rcases le_total (d.orderAt read key a) (d.orderAt read key b) with h | h
    · rw [decide_eq_true h, Bool.true_or]
    · rw [decide_eq_true h, Bool.or_true]

theorem countBelow_perm {rows rows' : List d.Found} (h : rows.Perm rows') (a : d.Found) :
    countBelow (d.orderAt read key) rows a = countBelow (d.orderAt read key) rows' a :=
  h.countP_eq _

theorem countSame_perm {rows rows' : List d.Found} (h : rows.Perm rows') (a : d.Found) :
    countSame (d.orderAt read key) rows a = countSame (d.orderAt read key) rows' a :=
  h.countP_eq _

/-- Cells of the same rows are the same. -/
theorem correlates_of_isUnique (hunique : key.isUnique = true) (hkey : key ∈ front) :
    d.Correlates read front key found found' := by
  intro values values' hvalues hvalues' x hx y hy hshares
  rw [SelectsKey, if_pos hunique] at hvalues hvalues'
  rw [hvalues] at hx
  rw [hvalues'] at hy
  obtain ⟨a, -, rfl⟩ := List.mem_map.1 hx
  obtain ⟨b, -, rfl⟩ := List.mem_map.1 hy
  have hrow : a key.table = b key.table := hshares key hkey
  simp only [cellAt, hrow]

section Numbered

variable {values : List (d.Found × SelectedKey)} {x : d.Found × SelectedKey} {a : d.Found}

theorem selectsKey_iff (hunique : key.isUnique = false) :
    d.SelectsKey read key found values ↔ ∃ ordered : List d.Found, ordered.Perm found ∧
      ordered.Pairwise (fun a b => d.orderAt read key a ≤ d.orderAt read key b) ∧
      values = d.numbered ordered := by
  rw [SelectsKey, if_neg (by simp [hunique])]

/-- Every row found gets a number. -/
theorem exists_selectsKey (read : Option String → K) (hunique : key.isUnique = false)
    (ha : a ∈ found) : ∃ values value, d.SelectsKey read key found values ∧ (a, value) ∈ values := by
  obtain ⟨ordered, hperm, hsorted⟩ := exists_ordered read key found
  obtain ⟨n, hn⟩ := List.mem_iff_getElem?.1 (hperm.mem_iff.2 ha)
  exact ⟨_, _, (selectsKey_iff hunique).2 ⟨ordered, hperm, hsorted, rfl⟩,
    mem_numbered.2 ⟨n, hn, rfl⟩⟩

/-- Only rows found get a number. -/
theorem SelectsKey.mem (h : d.SelectsKey read key found values) (hunique : key.isUnique = false)
    (hx : x ∈ values) : x.1 ∈ found := by
  obtain ⟨ordered, hperm, -, rfl⟩ := (selectsKey_iff hunique).1 h
  obtain ⟨n, hn, -⟩ := mem_numbered.1 hx
  exact hperm.mem_iff.1 (List.mem_of_getElem? hn)

/-- The number of a row with a cell of its own is told by the rows with smaller cells. -/
theorem SelectsKey.eq_number (h : d.SelectsKey read key found values)
    (hunique : key.isUnique = false) (hx : x ∈ values)
    (hsame : countSame (d.orderAt read key) found x.1 = 1) :
    x.2 = .number (countBelow (d.orderAt read key) found x.1 + 1) := by
  obtain ⟨ordered, hperm, hsorted, rfl⟩ := (selectsKey_iff hunique).1 h
  obtain ⟨n, hn, hvalue⟩ := mem_numbered.1 hx
  rw [← countSame_perm hperm] at hsame
  rw [hvalue, ← countBelow_perm hperm, countBelow_eq_of_getElem? hsorted hn hsame]

/-- If the number of a row is the same however rows with the same cell are numbered, no other row
has its cell. -/
theorem countSame_of_forall_selectsKey (hunique : key.isUnique = false) (ha : a ∈ found)
    (value : SelectedKey) (h : ∀ values, d.SelectsKey read key found values →
      ∀ x ∈ values, x.1 = a → x.2 = value) :
    countSame (d.orderAt read key) found a = 1 := by
  obtain ⟨ordered, hperm, hsorted⟩ := exists_ordered read key found
  obtain ⟨n, hn⟩ := List.mem_iff_getElem?.1 (hperm.mem_iff.2 ha)
  have hvalue := h _ ((selectsKey_iff hunique).2 ⟨ordered, hperm, hsorted, rfl⟩)
    (a, .number (n + 1)) (mem_numbered.2 ⟨n, hn, rfl⟩) rfl
  by_contra hsame
  rw [← countSame_perm hperm] at hsame
  obtain ⟨other, m, hother, hsorted', hm, hne⟩ := exists_perm_of_countSame hsorted hn hsame
  have hvalue' := h _ ((selectsKey_iff hunique).2 ⟨other, hother.trans hperm, hsorted', rfl⟩)
    (a, .number (m + 1)) (mem_numbered.2 ⟨m, hm, rfl⟩) rfl
  have heq := SelectedKey.number.inj (hvalue'.trans hvalue.symm)
  exact hne (Nat.succ.inj heq)

end Numbered

/-- Numbers of two statements agree exactly if each shared row has a cell of its own in both and
stands behind as many others. -/
theorem correlates_iff_numbersAgree (hunique : key.isUnique = false) :
    d.Correlates read front key found found' ↔ d.NumbersAgree read front key found found' := by
  constructor
  · intro h a ha b hb hshares
    obtain ⟨values, n, hvalues, hx⟩ := exists_selectsKey read hunique ha
    obtain ⟨values', m, hvalues', hy⟩ := exists_selectsKey read hunique hb
    have hsame : countSame (d.orderAt read key) found a = 1 := by
      refine countSame_of_forall_selectsKey hunique ha m ?_
      rintro other hother x hmem rfl
      exact h _ _ hother hvalues' x hmem _ hy hshares
    have hsame' : countSame (d.orderAt read key) found' b = 1 := by
      refine countSame_of_forall_selectsKey hunique hb n ?_
      rintro other hother y hmem rfl
      exact (h _ _ hvalues hother _ hx y hmem hshares).symm
    have heq := h _ _ hvalues hvalues' _ hx _ hy hshares
    rw [hvalues.eq_number hunique hx hsame, hvalues'.eq_number hunique hy hsame'] at heq
    exact ⟨Nat.succ.inj (SelectedKey.number.inj heq), hsame, hsame'⟩
  · intro h values values' hvalues hvalues' x hx y hy hshares
    obtain ⟨hbelow, hsame, hsame'⟩ :=
      h x.1 (hvalues.mem hunique hx) y.1 (hvalues'.mem hunique hy) hshares
    rw [hvalues.eq_number hunique hx hsame, hvalues'.eq_number hunique hy hsame', hbelow]

end Database

/-! ## Groups that share a table -/

/-- Two groups whose chains share a table have the same key for it and for all tables above it. For
the same rows of these tables they always select the same value of the key exactly if the key tells
rows apart, or else if the rows that both find stand at the same places in either. -/
theorem groups_correlate_iff {s : Storage} {name : String} {counted : Bool} {plan : ReadPlan}
    (htree : s.tree.IsDerived) (hplan : ReadPlan.ofStorage name s counted = .ok plan)
    {g g' : JoinGroup} (hg : g ∈ plan.groups) (hg' : g' ∈ plan.groups) {t : Table}
    (ht : t ∈ s.tree.tables) {i j : Nat} {key key' : ChainKey} (hkey : g.keys[i]? = some key)
    (hkey' : g'.keys[j]? = some key') (hpath : key.path = t.path) (hpath' : key'.path = t.path) :
    j = i ∧ key' = key ∧ g'.keys.take (i + 1) = g.keys.take (i + 1) ∧ key.column = t.sortKey ∧
      ∀ (d : Database) {K : Type} [LinearOrder K] (read : Option String → K)
        (keep keep' : d.Found → Bool),
        let found := (d.selectFrom s.root.name outerRoot g.joins).filter keep
        let found' := (d.selectFrom s.root.name outerRoot g'.joins).filter keep'
        d.Correlates read (g.keys.take (i + 1)) key found found' ↔
          t.sortKeyUnique = true ∨ d.NumbersAgree read (g.keys.take (i + 1)) key found found' := by
  obtain ⟨groups, hgroups, hplan⟩ := bind_eq_ok.1 hplan
  obtain rfl := pure_eq_ok.1 hplan
  obtain ⟨rfl, htake, rfl⟩ :=
    keys_eq_of_path htree hgroups hg hg' hkey hkey' (hpath.trans hpath'.symm)
  -- paths tell tables apart, so the key is made from this table
  obtain ⟨hcolumn, hunique⟩ : key'.column = t.sortKey ∧ key'.isUnique = t.sortKeyUnique := by
    obtain ⟨c, hc, hkeys⟩ := exists_keys_eq_map htree hgroups hg
    rw [hkeys, List.getElem?_map, Option.map_eq_some_iff] at hkey
    obtain ⟨e, he, rfl⟩ := hkey
    have htable := TableTree.IsDerived.table_mem htree hc (List.mem_of_getElem? he)
    obtain rfl := List.inj_on_of_nodup_map htree.nodup_paths htable ht hpath
    exact ⟨rfl, rfl⟩
  refine ⟨rfl, rfl, htake, hcolumn, ?_⟩
  intro d K _ read keep keep' found found'
  rw [← hunique]
  cases hkind : key'.isUnique with
  | true =>
    have hmem : key' ∈ g.keys.take (j + 1) := by
      refine List.mem_of_getElem? (i := j) ?_
      rw [List.getElem?_take_of_lt (Nat.lt_succ_self j), hkey]
    exact iff_of_true (Database.correlates_of_isUnique hkind hmem) (.inl rfl)
  | false =>
    rw [Database.correlates_iff_numbersAgree hkind]
    simp

/-- Parcels are told apart by their keys, so their addresses always belong to the right one. -/
theorem groups_correlate_iff_addresses :
    let paths := ["parcel/name", "parcel/[id=parcel_id]address/city"]
    ∃ tree plan g g' key, TableTree.ofPaths paths = .ok tree ∧
      ReadPlan.ofStorage "parcels" (.plain tree .postgis) false = .ok plan ∧
      plan.groups = [g, g'] ∧ g.keys[0]? = some key ∧ g'.keys[0]? = some key ∧
      key.path = tree.root.path ∧
      ∀ (d : Database) {K : Type} [LinearOrder K] (read : Option String → K)
        (keep keep' : d.Found → Bool), d.Correlates read (g.keys.take 1) key
          ((d.selectFrom tree.root.name outerRoot g.joins).filter keep)
          ((d.selectFrom tree.root.name outerRoot g'.joins).filter keep') := by
  intro paths
  have hrun : (do
      let tree ← TableTree.ofPaths paths
      let plan ← ReadPlan.ofStorage "parcels" (.plain tree .postgis) false
      return (plan.groups.map fun g => g.keys[0]?.map fun key => key.path == tree.root.path,
        tree.root.sortKeyUnique) : Except Error (List (Option Bool) × Bool)).toOption =
      some ([some true, some true], true) := by
    decide +kernel
  obtain ⟨tree, htree, hrun⟩ := bind_eq_ok.1 (toOption_eq_some.1 hrun)
  obtain ⟨plan, hplan, hrun⟩ := bind_eq_ok.1 hrun
  obtain ⟨hkeys, hunique⟩ := Prod.mk.inj (pure_eq_ok.1 hrun)
  obtain ⟨g, rest, hgroups, hkey, hrest⟩ := List.map_eq_cons_iff.1 hkeys
  obtain ⟨g', rest, rfl, hkey', hrest⟩ := List.map_eq_cons_iff.1 hrest
  obtain rfl := List.map_eq_nil_iff.1 hrest
  obtain ⟨key, hkey, hpath⟩ := Option.map_eq_some_iff.1 hkey
  obtain ⟨key', hkey', hpath'⟩ := Option.map_eq_some_iff.1 hkey'
  have hroot : tree.root ∈ tree.tables := by
    rw [TableTree.tables_eq_cons]
    exact List.mem_cons_self
  obtain ⟨-, rfl, -, -, hcorrelates⟩ := groups_correlate_iff
    (s := .plain tree .postgis) (TableTree.isDerived_of_ofPaths htree) hplan
    (by simp [hgroups]) (by simp [hgroups]) hroot hkey hkey' (eq_of_beq hpath) (eq_of_beq hpath')
  exact ⟨tree, plan, g, g', _, htree, hplan, hgroups, hkey, hkey', eq_of_beq hpath,
    fun d K _ read keep keep' => (hcorrelates d read keep keep').2 (.inl hunique)⟩

/-- The first of two parcels has two addresses and the second has one. The parcels are numbered one
and two, but with the addresses joined the second is the third row. -/
theorem not_groups_correlate_numbered :
    let root := "parcel{sortKey=name}{sortKeyUnique=false}"
    let paths := [root, "parcel/name", "parcel/[id=parcel_id]address/city"]
    let key : ChainKey := ⟨root, outerRoot, "name", false⟩
    let db := Database.ofTables
      [ ("parcel", [[("id", "1"), ("name", "a")], [("id", "2"), ("name", "bb")]]),
        ("address", [[("id", "1"), ("parcel_id", "1")], [("id", "2"), ("parcel_id", "1")],
          [("id", "3"), ("parcel_id", "2")]]) ]
    let read (cell : Option String) := (cell.map String.length).getD 0
    ∃ tree plan g g', TableTree.ofPaths paths = .ok tree ∧
      ReadPlan.ofStorage "parcels" (.plain tree .postgis) false = .ok plan ∧
      plan.groups = [g, g'] ∧ g.keys[0]? = some key ∧ g'.keys[0]? = some key ∧
      ¬db.Correlates read [key] key (db.selectFrom "parcel" outerRoot g.joins)
        (db.selectFrom "parcel" outerRoot g'.joins) := by
  intro root paths key db read
  let second := some [("id", "2"), ("name", "bb")]
  let parcel (row : db.Found) : Option (List (String × String)) := row outerRoot
  -- whether a row belongs to the second parcel, and how many stand before it
  let shown (found : List db.Found) : List (Bool × Nat) :=
    found.map fun row =>
      (decide (parcel row = second), countBelow (db.orderAt read key) found row)
  have hrun : (do
      let tree ← TableTree.ofPaths paths
      let plan ← ReadPlan.ofStorage "parcels" (.plain tree .postgis) false
      return plan.groups.map fun g =>
        (decide (g.keys[0]? = some key), shown (db.selectFrom "parcel" outerRoot g.joins)) :
          Except Error (List (Bool × List (Bool × Nat)))).toOption =
      some [(true, [(false, 0), (true, 1)]), (true, [(false, 0), (false, 0), (true, 2)])] := by
    decide +kernel
  obtain ⟨tree, htree, hrun⟩ := bind_eq_ok.1 (toOption_eq_some.1 hrun)
  obtain ⟨plan, hplan, hrun⟩ := bind_eq_ok.1 hrun
  obtain ⟨g, rest, hgroups, hfirst, hrest⟩ := List.map_eq_cons_iff.1 (pure_eq_ok.1 hrun)
  obtain ⟨g', rest, rfl, hsecond, hrest⟩ := List.map_eq_cons_iff.1 hrest
  obtain rfl := List.map_eq_nil_iff.1 hrest
  obtain ⟨hkey, hshown⟩ := Prod.mk.inj hfirst
  obtain ⟨hkey', hshown'⟩ := Prod.mk.inj hsecond
  refine ⟨tree, plan, g, g', htree, hplan, hgroups, of_decide_eq_true hkey,
    of_decide_eq_true hkey', ?_⟩
  rw [Database.correlates_iff_numbersAgree rfl]
  intro hagree
  -- the second parcel stands behind one parcel, and with the addresses behind two rows
  have hplace : ∀ {found : List db.Found} {n : Nat}, (true, n) ∈ shown found → ∃ row ∈ found,
      row outerRoot = second ∧ countBelow (db.orderAt read key) found row = n := by
    intro found n hmem
    obtain ⟨row, hrow, heq⟩ := List.mem_map.1 hmem
    obtain ⟨hsecond, hcount⟩ := Prod.mk.inj heq
    have hsecond : parcel row = second := of_decide_eq_true hsecond
    exact ⟨row, hrow, hsecond, hcount⟩
  obtain ⟨a, ha, hrow, hcount⟩ := hplace (n := 1) (by rw [hshown]; simp)
  obtain ⟨b, hb, hrow', hcount'⟩ := hplace (n := 2) (by rw [hshown']; simp)
  have hshares : db.SharesRows [key] a b :=
    List.forall_mem_singleton.2 (hrow.trans hrow'.symm)
  obtain ⟨hsame, -, -⟩ := hagree a ha b hb hshares
  rw [hcount, hcount'] at hsame
  exact absurd hsame (by decide)

end FeatureStore
