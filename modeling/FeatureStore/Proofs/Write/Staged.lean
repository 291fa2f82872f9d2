import FeatureStore.Proofs.Table.Numbering
import FeatureStore.Write.Change

/-!
# Staged rows

What staging keeps. Root rows belong to no row, and every row of another table belongs to a row of
its parent table that is already there (`Staging.IsOwned`). An operation changes values only, or it
adds one row under the current row of the parent, so this survives any operation
(`isOwned_applyOp`) and holds after all operations (`isOwned_apply`). As long as no operation asks
for another row of the root table, that table has exactly one row (`Staging.IsStaged`,
`isStaged_apply`).
-/

set_option autoImplicit false

namespace FeatureStore

namespace Arena

theorem parent?_root (tree : TableTree) : (ofTree tree).parent? 0 = none :=
  (holds_ofTree tree).parent?_eq

/-- A chain ends at its table. -/
theorem exists_chain (a : Arena) (id : Nat) : ∃ before, a.chain id = before ++ [id] := by
  rw [chain]
  split
  · split
    · exact ⟨_, rfl⟩
    · exact ⟨[], rfl⟩
  · exact ⟨[], rfl⟩

end Arena

namespace Staging

/-- For each row of a table the row of the parent that it belongs to. -/
def ownersOf (s : Staging) (table : Nat) : List (Option Nat) :=
  (s.rowsOf table).map StagedRow.parentRow

/-- Root rows belong to no row, and all other rows to rows of their parents. There is a root row. -/
structure IsOwned (tree : TableTree) (s : Staging) : Prop where
  arena_eq : s.arena = Arena.ofTree tree
  length_eq : s.rows.length = s.arena.size
  root_pos : 0 < (s.rowsOf 0).length
  unowned : ∀ {table : Nat}, s.arena.parent? table = none → ∀ owner ∈ s.ownersOf table,
    owner = none
  owned : ∀ {table parent : Nat}, s.arena.parent? table = some parent →
    ∀ owner ∈ s.ownersOf table, ∃ row, owner = some row ∧ row < (s.rowsOf parent).length

/-- The root table has one row, and all other rows belong to rows of their parents. -/
structure IsStaged (tree : TableTree) (s : Staging) : Prop where
  arena_eq : s.arena = Arena.ofTree tree
  length_eq : s.rows.length = s.arena.size
  root : s.ownersOf 0 = [none]
  owned : ∀ {table parent : Nat}, s.arena.parent? table = some parent →
    ∀ owner ∈ s.ownersOf table, ∃ row, owner = some row ∧ row < (s.rowsOf parent).length

variable {tree : TableTree} {s next : Staging}

theorem length_ownersOf (s : Staging) (table : Nat) :
    (s.ownersOf table).length = (s.rowsOf table).length := List.length_map _

theorem rowsOf_updateTable (s : Staging) (table k : Nat)
    (change : List StagedRow → List StagedRow) :
    (s.updateTable table change).rowsOf k =
      if k = table ∧ k < s.rows.length then change (s.rowsOf k) else s.rowsOf k := by
  rw [rowsOf, rowsOf, updateTable, List.getElem?_modify]
  by_cases hk : k < s.rows.length
  · rw [List.getElem?_eq_getElem hk]
    by_cases heq : k = table
    · simp [heq, heq ▸ hk]
    · simp [heq, Ne.symm heq]
  · rw [List.getElem?_eq_none (Nat.not_lt.1 hk)]
    simp [hk]

/-- A table that is not in the arena has no rows. -/
theorem IsOwned.lt_size (h : s.IsOwned tree) {table : Nat} (hne : s.rowsOf table ≠ []) :
    table < s.arena.size := by
  rw [← h.length_eq]
  refine Nat.lt_of_not_le fun hle => hne ?_
  rw [rowsOf, List.getElem?_eq_none hle]
  rfl

theorem IsStaged.isOwned (h : s.IsStaged tree) : s.IsOwned tree := by
  have hroot : (s.rowsOf 0).length = 1 := by
    rw [← length_ownersOf, h.root]
    rfl
  refine ⟨h.arena_eq, h.length_eq, by omega, ?_, h.owned⟩
  intro table hparent owner howner
  by_cases hlt : table < s.rows.length
  · -- a table of the arena without a parent is the root
    rw [h.length_eq, h.arena_eq] at hlt
    rcases Arena.parent?_ofTree hlt with ⟨rfl, -⟩ | ⟨parent, hsome, -⟩
    · rw [h.root] at howner
      exact List.mem_singleton.1 howner
    · rw [← h.arena_eq, hparent] at hsome
      exact absurd hsome.symm (Option.some_ne_none parent)
  · rw [ownersOf, rowsOf, List.getElem?_eq_none (Nat.not_lt.1 hlt)] at howner
    exact absurd howner List.not_mem_nil

theorem IsOwned.isStaged (h : s.IsOwned tree) (hroot : s.ownersOf 0 = [none]) :
    s.IsStaged tree :=
  ⟨h.arena_eq, h.length_eq, hroot, h.owned⟩

/-! ## The start -/

theorem rowsOf_start (tree : TableTree) (table : Nat) :
    (start tree).rowsOf table = if table = 0 then [StagedRow.empty none] else [] := by
  have hpos : 0 < (Arena.ofTree tree).size := (Arena.holds_ofTree tree).lt_size
  rw [rowsOf, start, List.getElem?_map]
  by_cases hk : table < (Arena.ofTree tree).size
  · rw [List.getElem?_range hk]
    rfl
  · rw [List.getElem?_eq_none (by simpa using hk), if_neg (by omega)]
    rfl

/-- A feature without values is its root row. -/
theorem isStaged_start (tree : TableTree) : (start tree).IsStaged tree := by
  refine ⟨rfl, by simp [start], ?_, fun {table parent} hparent owner howner => ?_⟩
  · rw [ownersOf, rowsOf_start, if_pos rfl]
    rfl
  · rw [ownersOf, rowsOf_start] at howner
    split at howner
    · rename_i hroot
      have hnone := Arena.parent?_root tree
      rw [show (start tree).arena = Arena.ofTree tree from rfl, hroot, hnone] at hparent
      simp at hparent
    · simp at howner

/-! ## Values -/

/-- A staging whose rows have the same owners is as good. -/
theorem IsOwned.of_ownersOf (h : s.IsOwned tree) (harena : next.arena = s.arena)
    (hlength : next.rows.length = s.rows.length)
    (howners : ∀ table, next.ownersOf table = s.ownersOf table) : next.IsOwned tree := by
  refine ⟨harena.trans h.arena_eq, by rw [hlength, harena, h.length_eq], ?_, ?_, ?_⟩
  · rw [← length_ownersOf, howners, length_ownersOf]
    exact h.root_pos
  · intro table hparent owner howner
    rw [harena] at hparent
    rw [howners] at howner
    exact h.unowned hparent owner howner
  · intro table parent hparent owner howner
    rw [harena] at hparent
    rw [howners] at howner
    obtain ⟨row, hrow, hlt⟩ := h.owned hparent owner howner
    refine ⟨row, hrow, ?_⟩
    rwa [← length_ownersOf, howners, length_ownersOf]

theorem map_parentRow_modify (rows : List StagedRow) (row : Nat) (column : String)
    (value : Option String) : (rows.modify row (·.set column value)).map StagedRow.parentRow =
      rows.map StagedRow.parentRow := by
  refine List.ext_getElem? fun i => ?_
  rw [List.getElem?_map, List.getElem?_map, List.getElem?_modify]
  cases rows[i]? with
  | none => rfl
  | some old =>
    show some (StagedRow.parentRow (if row = i then old.set column value else old)) = _
    split <;> rfl

/-- A value of a column set on a row of a table. -/
def setValue (s : Staging) (ref : RowRef) (column : String) (value : Option String) : Staging :=
  s.updateTable ref.table fun rows => rows.modify ref.row (·.set column value)

/-- Setting a value leaves the owners. -/
theorem ownersOf_setValue (s : Staging) (ref : RowRef) (column : String) (value : Option String)
    (k : Nat) : (s.setValue ref column value).ownersOf k = s.ownersOf k := by
  rw [ownersOf, setValue, rowsOf_updateTable]
  split
  · exact map_parentRow_modify _ _ _ _
  · rfl

theorem IsOwned.setValue (h : s.IsOwned tree) (ref : RowRef) (column : String)
    (value : Option String) : (s.setValue ref column value).IsOwned tree :=
  h.of_ownersOf rfl (List.length_modify _ _ _) (s.ownersOf_setValue ref column value)

/-! ## Current rows -/

/-- The current row at the end of a chain is the last row of the last table. -/
theorem succ_eq_of_currentAlong {table row : Nat} : ∀ {chain : List Nat} {owner : Option Nat},
    s.currentAlong owner (chain ++ [table]) = some row → row + 1 = (s.rowsOf table).length
  | [], owner, h => by
    rw [List.nil_append, currentAlong] at h
    split at h
    · rename_i last hlast
      split at h
      · have hrow := Option.some.inj h
        have hne : s.rowsOf table ≠ [] := by
          intro hnil
          rw [hnil] at hlast
          simp at hlast
        have := List.length_pos_iff.2 hne
        omega
      · simp at h
    · simp at h
  | first :: chain, owner, h => by
    -- along the chain only the row that the next one has to belong to changes
    rw [List.cons_append, currentAlong] at h
    split at h
    · split at h
      · exact succ_eq_of_currentAlong h
      · simp at h
    · simp at h

theorem succ_eq_of_currentRow? {table row : Nat} (h : s.currentRow? table = some row) :
    row + 1 = (s.rowsOf table).length := by
  obtain ⟨before, hchain⟩ := s.arena.exists_chain table
  rw [currentRow?, hchain] at h
  exact succ_eq_of_currentAlong h

theorem lt_of_currentRow? {table row : Nat} (h : s.currentRow? table = some row) :
    row < (s.rowsOf table).length :=
  Nat.lt_of_succ_le (succ_eq_of_currentRow? h).le

/-- The root table always has a current row. -/
theorem IsStaged.currentRow?_root (h : s.IsStaged tree) : s.currentRow? 0 = some 0 := by
  have hchain : s.arena.chain 0 = [0] := by
    rw [Arena.chain, h.arena_eq, Arena.parent?_root]
  obtain ⟨row, hrow, howner⟩ := List.map_eq_singleton_iff.1 h.root
  rw [currentRow?, hchain, currentAlong, hrow]
  simp [howner, currentAlong]

/-! ## New rows -/

/-- What adding a row does: it stands behind the other rows of its table, under the current row of
the parent if there is a parent. -/
theorem addRow_eq_ok {path : String} {row : Nat} (h : s.addRow path = .ok (row, next)) :
    ∃ table owner, s.arena.idOf? path = some table ∧ row = (s.rowsOf table).length ∧
      next = s.updateTable table (· ++ [StagedRow.empty owner]) ∧
      (s.arena.parent? table = none ∧ owner = none ∨
        ∃ parent, s.arena.parent? table = some parent ∧ owner = s.currentRow? parent ∧
          owner ≠ none) := by
  obtain ⟨table, htable, h⟩ := bind_eq_ok.1 h
  have hfound : s.arena.idOf? path = some table := by
    rw [tableOf] at htable
    split at htable
    · rename_i found hfound
      rw [hfound, Except.ok.inj htable]
    · simp at htable
  refine ⟨table, ?_⟩
  dsimp only at h
  split at h
  · rename_i hnone
    obtain ⟨owner, howner, h⟩ := bind_eq_ok.1 h
    obtain ⟨hrow, hnext⟩ := Prod.mk.inj (pure_eq_ok.1 h)
    exact ⟨owner, hfound, hrow.symm, hnext.symm, Or.inl ⟨hnone, (Except.ok.inj howner).symm⟩⟩
  · rename_i parent hparent
    split at h
    · rename_i current hcurrent
      obtain ⟨owner, howner, h⟩ := bind_eq_ok.1 h
      obtain ⟨hrow, hnext⟩ := Prod.mk.inj (pure_eq_ok.1 h)
      obtain rfl := Except.ok.inj howner
      exact ⟨_, hfound, hrow.symm, hnext.symm,
        Or.inr ⟨parent, hparent, hcurrent.symm, Option.some_ne_none _⟩⟩
    · obtain ⟨owner, howner, -⟩ := bind_eq_ok.1 h
      simp at howner

theorem lt_size_of_idOf? {a : Arena} {path : String} {table : Nat}
    (h : a.idOf? path = some table) : table < a.size := by
  obtain ⟨node, hnode, -⟩ := Arena.get?_of_idOf? h
  exact (List.getElem?_eq_some_iff.1 hnode).1

/-- A row that is added by the path of a table is one of that table, since the path leads back to
it. -/
theorem addRow_path (htree : tree.IsDerived) (harena : s.arena = Arena.ofTree tree)
    {table row : Nat} (hlt : table < s.arena.size)
    (h : s.addRow (s.arena.path table) = .ok (row, next)) :
    row = (s.rowsOf table).length ∧
      ∃ owner, next = s.updateTable table (· ++ [StagedRow.empty owner]) := by
  obtain ⟨found, owner, hfound, hrow, hnext, -⟩ := addRow_eq_ok h
  obtain rfl : table = found := by
    rw [harena] at hlt hfound
    exact Option.some.inj ((Arena.idOf?_path_of_lt htree hlt).symm.trans hfound)
  exact ⟨hrow, owner, hnext⟩

/-- A new row stands behind the other rows of its table. -/
theorem ownersOf_concat (s : Staging) {table : Nat} (hlt : table < s.rows.length)
    (owner : Option Nat) (k : Nat) :
    (s.updateTable table (· ++ [StagedRow.empty owner])).ownersOf k =
      if k = table then s.ownersOf k ++ [owner] else s.ownersOf k := by
  rw [ownersOf, rowsOf_updateTable]
  by_cases hk : k = table
  · rw [if_pos ⟨hk, hk ▸ hlt⟩, if_pos hk, List.map_append]
    rfl
  · rw [if_neg (fun hand => hk hand.1), if_neg hk]
    rfl

/-- A new row of a table below the root belongs to a row of the parent. -/
theorem IsOwned.addRow (h : s.IsOwned tree) {path : String} {row : Nat}
    (hadd : s.addRow path = .ok (row, next)) : next.IsOwned tree := by
  obtain ⟨table, owner, htable, -, rfl, howner⟩ := addRow_eq_ok hadd
  have hlt : table < s.rows.length := h.length_eq ▸ lt_size_of_idOf? htable
  have howners := s.ownersOf_concat hlt owner
  have hmore : ∀ k, (s.rowsOf k).length ≤
      ((s.updateTable table (· ++ [StagedRow.empty owner])).rowsOf k).length := by
    intro k
    rw [← length_ownersOf, ← length_ownersOf, howners]
    split
    · rw [List.length_append]
      exact Nat.le_add_right _ _
    · exact Nat.le_refl _
  refine ⟨h.arena_eq, (List.length_modify _ _ _).trans h.length_eq,
    Nat.lt_of_lt_of_le h.root_pos (hmore 0), ?_, ?_⟩
  · intro k hparent other hother
    change s.arena.parent? k = none at hparent
    rw [howners] at hother
    split at hother
    · rename_i heq
      subst heq
      rcases List.mem_append.1 hother with hother | hother
      · exact h.unowned hparent other hother
      · obtain rfl := List.mem_singleton.1 hother
        rcases howner with ⟨-, hnone⟩ | ⟨parent, hsome, -⟩
        · exact hnone
        · rw [hparent] at hsome
          exact absurd hsome.symm (Option.some_ne_none parent)
    · exact h.unowned hparent other hother
  · intro k p hk other hother
    change s.arena.parent? k = some p at hk
    rw [howners] at hother
    -- rows that were there still belong to rows of the parent, of which there are no fewer
    have hkept : other ∈ s.ownersOf k → ∃ row, other = some row ∧
        row < ((s.updateTable table (· ++ [StagedRow.empty owner])).rowsOf p).length := by
      intro hmem
      obtain ⟨row, hrow, hlt⟩ := h.owned hk other hmem
      exact ⟨row, hrow, Nat.lt_of_lt_of_le hlt (hmore p)⟩
    split at hother
    · rename_i heq
      subst heq
      rcases List.mem_append.1 hother with hother | hother
      · exact hkept hother
      · obtain rfl := List.mem_singleton.1 hother
        rcases howner with ⟨hnone, -⟩ | ⟨q, hq, hcurrent, hsome⟩
        · rw [hnone] at hk
          simp at hk
        · obtain rfl : q = p := Option.some.inj (hq.symm.trans hk)
          obtain ⟨row, hrow⟩ := Option.ne_none_iff_exists'.1 hsome
          refine ⟨row, hrow, Nat.lt_of_lt_of_le ?_ (hmore q)⟩
          exact lt_of_currentRow? (hcurrent.symm.trans hrow)
    · exact hkept hother

/-! ## Operations -/

theorem foldl_deeper_mem {a : Arena} {k : Nat} : ∀ {tables : List Nat} {best : Option Nat},
    tables.foldl (deeper a) best = some k → best = some k ∨ k ∈ tables
  | [], best, h => Or.inl h
  | table :: tables, best, h => by
    rw [List.foldl_cons] at h
    rcases foldl_deeper_mem h with h | h
    · cases best with
      | none =>
        obtain rfl := Option.some.inj h
        exact Or.inr List.mem_cons_self
      | some other =>
        unfold deeper at h
        dsimp only at h
        split at h
        · exact Or.inl h
        · obtain rfl := Option.some.inj h
          exact Or.inr List.mem_cons_self
    · exact Or.inr (List.mem_cons_of_mem _ h)

/-- A path is resolved to a table of the arena. -/
theorem lt_size_of_resolve? {path : String} {table : Nat} (h : s.resolve? path = some table) :
    table < s.arena.size := by
  rcases foldl_deeper_mem h with h | h
  · simp at h
  · exact List.mem_range.1 (List.mem_filter.1 h).1

/-- What adding a value does: it is set on the current row of the table that the path leads to, or
else on a new row of that table. -/
theorem addValue_eq_ok {path column : String} {value : Option String}
    (h : s.addValue path column value = .ok next) :
    ∃ table row opened, s.resolve? path = some table ∧
      (s.currentRow? table = some row ∧ opened = s ∨
        s.currentRow? table = none ∧ s.addRow (s.arena.path table) = .ok (row, opened)) ∧
      next = opened.setValue ⟨table, row⟩ column value := by
  rw [addValue] at h
  split at h
  · exact absurd h throw_ne_ok
  · rename_i table htable
    dsimp only at h
    split at h
    · rename_i current hcurrent
      obtain ⟨⟨row, opened⟩, hopened, hnext⟩ := bind_eq_ok.1 h
      obtain ⟨rfl, rfl⟩ := Prod.mk.inj (pure_eq_ok.1 hopened)
      exact ⟨table, _, _, htable, Or.inl ⟨hcurrent, rfl⟩, (pure_eq_ok.1 hnext).symm⟩
    · rename_i hnone
      obtain ⟨⟨row, opened⟩, hopened, hnext⟩ := bind_eq_ok.1 h
      exact ⟨table, row, opened, htable, Or.inr ⟨hnone, hopened⟩, (pure_eq_ok.1 hnext).symm⟩

theorem IsOwned.addValue (h : s.IsOwned tree) {path column : String} {value : Option String}
    (hadd : s.addValue path column value = .ok next) : next.IsOwned tree := by
  obtain ⟨table, row, opened, -, ⟨-, rfl⟩ | ⟨-, hopened⟩, rfl⟩ := addValue_eq_ok hadd
  · exact h.setValue _ column value
  · exact (h.addRow hopened).setValue _ column value

/-- An operation keeps what is known of the rows. -/
theorem isOwned_applyOp {op : ValueOp} (h : s.IsOwned tree) (happly : s.applyOp op = .ok next) :
    next.IsOwned tree := by
  cases op with
  | row path =>
    obtain ⟨⟨row, added⟩, hadd, rfl⟩ := map_eq_ok.1 happly
    exact h.addRow hadd
  | value path column value => exact h.addValue happly
  | null path column => exact h.addValue happly

/-- After any operations that succeed, every row below the root belongs to a row of the parent. -/
theorem isOwned_apply {ops : List ValueOp} (happly : (start tree).apply ops = .ok s) :
    s.IsOwned tree :=
  foldlM_induction (IsOwned tree) (isStaged_start tree).isOwned
    (fun _ _ _ _ h hstep => isOwned_applyOp h hstep) happly

/-- A value opens a row only below the root, which always has a current row. -/
theorem IsStaged.ownersOf_addValue (h : s.IsStaged tree) (htree : tree.IsDerived)
    {path column : String} {value : Option String}
    (hadd : s.addValue path column value = .ok next) : next.ownersOf 0 = [none] := by
  obtain ⟨table, row, opened, htable, hopened, rfl⟩ := addValue_eq_ok hadd
  rw [ownersOf_setValue]
  rcases hopened with ⟨-, rfl⟩ | ⟨hnone, hopened⟩
  · exact h.root
  · have hlt := lt_size_of_resolve? htable
    obtain ⟨-, owner, rfl⟩ := addRow_path htree h.arena_eq hlt hopened
    rw [s.ownersOf_concat (h.length_eq ▸ hlt), if_neg, h.root]
    rintro rfl
    rw [h.currentRow?_root] at hnone
    exact Option.some_ne_none _ hnone

end Staging

/-- The operation does not ask for another row of the root table. -/
def ValueOp.KeepsRoot (tree : TableTree) : ValueOp → Prop
  | .row path => withoutSlashes path ≠ tree.root.path
  | _ => True

instance (tree : TableTree) (op : ValueOp) : Decidable (op.KeepsRoot tree) := by
  unfold ValueOp.KeepsRoot
  cases op <;> infer_instance

namespace Staging

variable {tree : TableTree} {s next : Staging}

/-- An operation that does not ask for another root row keeps the one. -/
theorem isStaged_applyOp (htree : tree.IsDerived) {op : ValueOp} (h : s.IsStaged tree)
    (hop : op.KeepsRoot tree) (happly : s.applyOp op = .ok next) : next.IsStaged tree := by
  refine (isOwned_applyOp h.isOwned happly).isStaged ?_
  cases op with
  | row path =>
    obtain ⟨⟨row, added⟩, hadd, rfl⟩ := map_eq_ok.1 happly
    obtain ⟨table, owner, htable, -, rfl, -⟩ := addRow_eq_ok hadd
    rw [s.ownersOf_concat (h.length_eq ▸ lt_size_of_idOf? htable), if_neg, h.root]
    rintro rfl
    obtain ⟨node, hnode, hpath⟩ := Arena.get?_of_idOf? htable
    rw [h.arena_eq, (Arena.holds_ofTree tree).get?_eq] at hnode
    refine hop ?_
    rw [← hpath, ← Option.some.inj hnode]
    rfl
  | value path column value => exact h.ownersOf_addValue htree happly
  | null path column => exact h.ownersOf_addValue htree happly

/-- After any operations that succeed and keep the one root row, there is still the one. -/
theorem isStaged_apply (htree : tree.IsDerived) {ops : List ValueOp}
    (hops : ∀ op ∈ ops, op.KeepsRoot tree) (happly : (start tree).apply ops = .ok s) :
    s.IsStaged tree :=
  foldlM_induction (IsStaged tree) (isStaged_start tree)
    (fun _ op _ hop h hstep => isStaged_applyOp htree h (hops op hop) hstep) happly

end Staging

end FeatureStore
