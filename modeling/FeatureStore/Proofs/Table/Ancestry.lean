import FeatureStore.Proofs.Table.Chains

/-!
# Tables above each other

In the arena of a tree a table stands above another one when it is on the chain that leads there
(`Arena.Above`). The tables below a table are exactly its descendants
(`mem_descendants_iff_above`): the part of a table ends no later than the part of its parent
(`Holds.exists_parent`), so a chain never leaves the part of a table it has come through.
-/

set_option autoImplicit false

namespace FeatureStore

namespace Arena

/-- A table on the chain of another one, other than that table itself. -/
def Above (a : Arena) (upper lower : Nat) : Prop := upper ∈ a.chain lower ∧ upper < lower

section Chain

variable {a : Arena} {p k id : Nat}

theorem le_of_mem_chain (h : k ∈ a.chain id) : k ≤ id := by
  induction id using Nat.strongRecOn with
  | ind id ih =>
    rcases a.chain_cases id with ⟨parent, hlt, hchain⟩ | hchain
    · rw [hchain, List.mem_append, List.mem_singleton] at h
      rcases h with h | rfl
      · exact Nat.le_of_lt (Nat.lt_of_le_of_lt (ih parent hlt h) hlt)
      · exact Nat.le_refl _
    · rw [hchain, List.mem_singleton] at h
      exact Nat.le_of_eq h

theorem above_iff : a.Above k id ↔ k ∈ a.chain id ∧ k ≠ id :=
  ⟨fun ⟨hmem, hlt⟩ => ⟨hmem, Nat.ne_of_lt hlt⟩,
    fun ⟨hmem, hne⟩ => ⟨hmem, Nat.lt_of_le_of_ne (le_of_mem_chain hmem) hne⟩⟩

theorem Above.trans (h : a.Above p k) (h' : a.Above k id) : a.Above p id :=
  ⟨(chain_prefix_of_mem h'.1).subset h.1, Nat.lt_trans h.2 h'.2⟩

/-- On a chain every table stands above those behind it. -/
theorem pairwise_above_chain (a : Arena) (id : Nat) : (a.chain id).Pairwise a.Above := by
  induction id using Nat.strongRecOn with
  | ind id ih =>
    rcases a.chain_cases id with ⟨parent, hlt, hchain⟩ | hchain
    · have hself : a.chain parent <+: a.chain id := ⟨[id], hchain.symm⟩
      rw [hchain, List.pairwise_append]
      refine ⟨ih parent hlt, List.pairwise_singleton _ _, fun k hk last hlast => ?_⟩
      obtain rfl := List.mem_singleton.1 hlast
      exact ⟨hself.subset hk, Nat.lt_of_le_of_lt (le_of_mem_chain hk) hlt⟩
    · rw [hchain]
      exact List.pairwise_singleton _ _

/-- Above a table stand its parent and the tables above its parent. -/
theorem above_iff_of_parent (hparent : a.parent? id = some p) (hp : p < id) :
    a.Above k id ↔ k = p ∨ a.Above k p := by
  rw [above_iff, above_iff, chain_of_parent? hparent hp, List.mem_append, List.mem_singleton]
  constructor
  · rintro ⟨hmem | rfl, hne⟩
    · by_cases hk : k = p
      · exact Or.inl hk
      · exact Or.inr ⟨hmem, hk⟩
    · exact absurd rfl hne
  · rintro (rfl | ⟨hmem, -⟩)
    · exact ⟨Or.inl (mem_chain_self a k), Nat.ne_of_lt hp⟩
    · exact ⟨Or.inl hmem, Nat.ne_of_lt (Nat.lt_of_le_of_lt (le_of_mem_chain hmem) hp)⟩

end Chain

section Parts

variable {a : Arena}

/-- The parts of one table are of the same size. -/
theorem Holds.size_eq {t s : TableTree} {parent parent' : Option Nat} {depth depth' id : Nat}
    (h : a.Holds parent depth id t) (h' : a.Holds parent' depth' id s) : t.size = s.size := by
  have hlength := congrArg List.length (h.descendants_eq.symm.trans h'.descendants_eq)
  rcases t with ⟨table, children⟩
  rcases s with ⟨other, others⟩
  simpa [TableTree.size, TableTree.children] using hlength

mutual
/-- A table of a part, other than its top, has its parent in the part, and its own part ends no
later than that of its parent. -/
theorem Holds.exists_parent : ∀ {t : TableTree} {parent : Option Nat} {depth id k : Nat},
    a.Holds parent depth id t → id < k → k < id + t.size →
      ∃ p above upper sub below lower, a.Holds above upper p sub ∧ a.Holds (some p) lower k below ∧
        id ≤ p ∧ p < k ∧ k + below.size ≤ p + sub.size
  | .node table children, parent, depth, id, k, h, hlow, hhigh => by
    rw [TableTree.size] at hhigh
    have hhigh' : k < id + 1 + TableTree.sizeOfList children := by omega
    rcases h.below.exists_parent hlow hhigh' with ⟨below, lower, hbelow, hend⟩ | hdeeper
    · refine ⟨id, parent, depth, _, below, lower, h, hbelow, Nat.le_refl _, hlow, ?_⟩
      rw [TableTree.size]
      simp only [TableTree.children] at hend
      omega
    · obtain ⟨p, above, upper, sub, below, lower, hsub, hbelow, hp, hrest⟩ := hdeeper
      exact ⟨p, above, upper, sub, below, lower, hsub, hbelow, by omega, hrest⟩

theorem HoldsList.exists_parent : ∀ {l : List TableTree} {parent depth id k : Nat},
    a.HoldsList parent depth id l → id ≤ k → k < id + TableTree.sizeOfList l →
      (∃ below lower, a.Holds (some parent) lower k below ∧
        k + below.size ≤ id + TableTree.sizeOfList l) ∨
      ∃ p above upper sub below lower, a.Holds above upper p sub ∧ a.Holds (some p) lower k below ∧
        id ≤ p ∧ p < k ∧ k + below.size ≤ p + sub.size
  | [], _, _, _, _, _, hlow, hhigh => by
    rw [TableTree.sizeOfList] at hhigh
    omega
  | t :: rest, parent, depth, id, k, h, hlow, hhigh => by
    rw [TableTree.sizeOfList] at hhigh ⊢
    rcases Nat.lt_trichotomy k id with hk | rfl | hk
    · omega
    · exact Or.inl ⟨t, depth, h.first, by omega⟩
    · by_cases hin : k < id + t.size
      · exact Or.inr (h.first.exists_parent hk hin)
      · have := t.size_pos
        rcases h.others.exists_parent (k := k) (by omega) (by omega) with
          ⟨below, lower, hbelow, hend⟩ | hdeeper
        · exact Or.inl ⟨below, lower, hbelow, by omega⟩
        · obtain ⟨p, above, upper, sub, below, lower, hsub, hbelow, hp, hrest⟩ := hdeeper
          exact Or.inr ⟨p, above, upper, sub, below, lower, hsub, hbelow, by omega, hrest⟩
end

end Parts

section Tree

variable {tree : TableTree} {p k id : Nat}

theorem size_ofTree (tree : TableTree) : (ofTree tree).size = tree.size :=
  tree.length_number none 0 0

theorem exists_holds (hk : k < (ofTree tree).size) :
    ∃ parent depth sub, (ofTree tree).Holds parent depth k sub := by
  rw [size_ofTree] at hk
  obtain ⟨parent, depth, sub, hsub, -⟩ :=
    (holds_ofTree tree).exists_part (Nat.zero_le k) (by omega)
  exact ⟨parent, depth, sub, hsub⟩

/-- The part of a table ends no later than that of its parent. -/
theorem end_le_of_parent {above : Option Nat} {depth upper : Nat} {sub below : TableTree}
    (hbelow : (ofTree tree).Holds (some p) depth k below)
    (hsub : (ofTree tree).Holds above upper p sub) : k + below.size ≤ p + sub.size := by
  have hk := hbelow.lt_size
  rw [size_ofTree] at hk
  have hpos : 0 < k := by
    refine Nat.pos_of_ne_zero fun h0 => ?_
    rw [h0] at hbelow
    cases hbelow.parent?_eq.symm.trans (holds_ofTree tree).parent?_eq
  obtain ⟨q, _, _, sub', below', _, hsub', hbelow', -, -, hend⟩ :=
    (holds_ofTree tree).exists_parent hpos (by omega)
  cases hbelow.parent?_eq.symm.trans hbelow'.parent?_eq
  rw [hbelow.size_eq hbelow', hsub.size_eq hsub']
  exact hend

/-- A table below another one lies in its part. -/
theorem end_le_of_above {parent parent' : Option Nat} {depth depth' : Nat} {t s : TableTree}
    (ht : (ofTree tree).Holds parent depth id t) (hs : (ofTree tree).Holds parent' depth' k s)
    (h : (ofTree tree).Above id k) : k + s.size ≤ id + t.size := by
  -- by induction on the lower table, along its chain
  induction k using Nat.strongRecOn generalizing parent' depth' s with
  | ind k ih =>
    rcases parent?_ofTree hs.lt_size with ⟨h0, -⟩ | ⟨p, hparent, hp⟩
    · exact absurd h.2 (by omega)
    · obtain ⟨_, _, sub, hsub⟩ := exists_holds (Nat.lt_trans hp hs.lt_size)
      obtain rfl : parent' = some p := hs.parent?_eq.symm.trans hparent
      have hend := end_le_of_parent hs hsub
      rcases (above_iff_of_parent hparent hp).1 h with rfl | habove
      · rw [ht.size_eq hsub]
        exact hend
      · exact Nat.le_trans hend (ih p hp hsub habove)

/-- A table lies in the part of another one exactly if that one stands above it. -/
theorem above_iff_of_holds {parent : Option Nat} {depth : Nat} {t : TableTree}
    (ht : (ofTree tree).Holds parent depth id t) (hk : k < (ofTree tree).size) :
    (ofTree tree).Above id k ↔ id < k ∧ k < id + t.size := by
  constructor
  · intro h
    obtain ⟨_, _, s, hs⟩ := exists_holds hk
    have hend := end_le_of_above ht hs h
    have := s.size_pos
    exact ⟨h.2, by omega⟩
  · rintro ⟨hlow, hhigh⟩
    -- by induction on the lower table: its parent is the top of the part or lies in the part
    induction k using Nat.strongRecOn with
    | ind k ih =>
      obtain ⟨_, _, _, hsub, hcases⟩ := ht.exists_part (Nat.le_of_lt hlow) hhigh
      rcases hcases with ⟨rfl, -, -⟩ | ⟨p, rfl, hpid, hp⟩
      · exact absurd hlow (Nat.lt_irrefl _)
      · rw [above_iff_of_parent hsub.parent?_eq hp]
        rcases Nat.eq_or_lt_of_le hpid with rfl | hpid
        · exact Or.inl rfl
        · exact Or.inr (ih p hp (Nat.lt_trans hp hk) hpid (Nat.lt_trans hp hhigh))

/-- The descendants of a table are the tables it stands above. -/
theorem mem_descendants_iff_above (hid : id < (ofTree tree).size)
    (hk : k < (ofTree tree).size) :
    k ∈ (ofTree tree).descendants id ↔ (ofTree tree).Above id k := by
  obtain ⟨_, _, t, ht⟩ := exists_holds hid
  rw [ht.mem_descendants, above_iff_of_holds ht hk]

/-- The tables of a chain are tables of the tree. -/
theorem lt_size_of_mem_chain {a : Arena} (hid : id < a.size) (h : k ∈ a.chain id) : k < a.size :=
  Nat.lt_of_le_of_lt (le_of_mem_chain h) hid

end Tree

end Arena

end FeatureStore
