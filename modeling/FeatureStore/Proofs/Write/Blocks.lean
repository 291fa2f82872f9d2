import FeatureStore.Proofs.Write.WrittenRows

/-!
# Blocks of staged rows

How the rows of the tables lie under those of their parents, whatever was called on a container.
The calls are written once more as programs that change one container in place and may fail half
way (`InPlace`); they do what `Staging.applyOp` does, and one that fails has changed nothing
(`InPlace.run_call`). A new row always belongs to the last row of the parent (`opensRow_addRow`), so
along a table the rows that the rows belong to never decrease (`isOwned_inOrder_afterCalls`). In a
sorted list equal values stand side by side (`indexes_eq_range'`): the rows under the first, second
and third row of the parent are blocks one behind the other, and together they are the table
(`inBlocks_afterCalls`).
-/

set_option autoImplicit false

namespace FeatureStore

/-! ## Calls in place -/

/-- A program that changes one container. What it has changed when it fails stays changed. -/
abbrev InPlace : Type → Type := EStateM Error Staging

namespace InPlace

/-- A new row of the table with a path. Gives the index of the row. -/
def addRow (path : String) : InPlace Nat := do
  let s ← get
  match s.arena.idOf? path with
  | none => throw (.unregisteredPath path)
  | some table =>
    let parentRow ← match s.arena.parent? table with
      | none => pure none
      | some parent =>
        match s.currentRow? parent with
        | some row => pure (some row)
        | none => throw (.unregisteredPath path)
    modify (·.updateTable table (· ++ [StagedRow.empty parentRow]))
    return (s.rowsOf table).length

/-- A value of a column, or its absence. The row that it needs is opened first. -/
def addValue (path column : String) (value : Option String) : InPlace Unit := do
  let s ← get
  match s.resolve? path with
  | none => throw (.unregisteredPath path)
  | some table =>
    let row ← match s.currentRow? table with
      | some row => pure row
      | none => addRow (s.arena.path table)
    modify (·.setValue ⟨table, row⟩ column value)

/-- One call. -/
def call : ValueOp → InPlace Unit
  | .row path => do
    let _ ← addRow path
  | .value path column value => addValue path column (some value)
  | .null path column => addValue path column none

variable (s : Staging)

theorem run_addRow (path : String) : (addRow path).run s =
    match s.addRow path with
    | .ok (row, next) => .ok row next
    | .error e => .error e s := by
  have hok : ∀ {α β : Type} (a : α) (f : α → Except Error β), (Except.ok a >>= f) = f a :=
    fun _ _ => rfl
  rw [addRow, EStateM.run_bind, EStateM.run_get, Staging.addRow, Staging.tableOf]
  dsimp only
  cases s.arena.idOf? path with
  | none => rfl
  | some table =>
    dsimp only
    rw [hok]
    cases s.arena.parent? table with
    | none => rfl
    | some parent =>
      dsimp only
      cases s.currentRow? parent with
      | none => rfl
      | some row => rfl

theorem run_addValue (path column : String) (value : Option String) :
    (addValue path column value).run s =
      match s.addValue path column value with
      | .ok next => .ok () next
      | .error e => .error e s := by
  rw [addValue, EStateM.run_bind, EStateM.run_get, Staging.addValue]
  dsimp only
  cases s.resolve? path with
  | none => rfl
  | some table =>
    dsimp only
    cases s.currentRow? table with
    | some row => rfl
    | none =>
      dsimp only
      rw [EStateM.run_bind, run_addRow]
      cases s.addRow (s.arena.path table) with
      | error e => rfl
      | ok added => rfl

/-- A call that succeeds does what the operation says, and one that fails has changed nothing. -/
theorem run_call (op : ValueOp) : (call op).run s =
    match s.applyOp op with
    | .ok next => .ok () next
    | .error e => .error e s := by
  cases op with
  | row path =>
    rw [call, EStateM.run_bind, run_addRow, Staging.applyOp]
    cases s.addRow path with
    | error e => rfl
    | ok added => rfl
  | value path column value => exact run_addValue s path column (some value)
  | null path column => exact run_addValue s path column none

end InPlace

namespace Staging

/-- The container behind a call, successful or not. -/
def afterCall (s : Staging) (op : ValueOp) : Staging :=
  match (InPlace.call op).run s with
  | .ok _ next => next
  | .error _ next => next

/-- The container behind any calls. -/
def afterCalls (s : Staging) (ops : List ValueOp) : Staging := ops.foldl afterCall s

variable {tree : TableTree} {s next : Staging}

/-! ## Where a new row goes -/

/-- The next row of a table may belong to the last row of the parent; a row of the root belongs to
none. -/
def IsLastOwner (s : Staging) (table : Nat) (owner : Option Nat) : Prop :=
  match s.arena.parent? table with
  | none => owner = none
  | some parent => ∃ row, owner = some row ∧ row + 1 = (s.rowsOf parent).length

/-- Every table has the rows that it had, and each belongs to the same row. -/
def SameOwners (s next : Staging) : Prop :=
  next.arena = s.arena ∧ next.rows.length = s.rows.length ∧
    ∀ table, next.ownersOf table = s.ownersOf table

/-- One table has one row more, the last one, under the last row of the parent. -/
def OpensRow (s next : Staging) (table : Nat) : Prop :=
  next.arena = s.arena ∧ next.rows.length = s.rows.length ∧ table < s.arena.size ∧
    ∃ owner, s.IsLastOwner table owner ∧
      ∀ k, next.ownersOf k = if k = table then s.ownersOf k ++ [owner] else s.ownersOf k

/-- A new row belongs to the last row of the parent. -/
theorem opensRow_addRow (h : s.IsOwned tree) {path : String} {row : Nat}
    (hadd : s.addRow path = .ok (row, next)) :
    ∃ table, s.arena.idOf? path = some table ∧ s.OpensRow next table := by
  obtain ⟨table, owner, htable, -, rfl, howner⟩ := addRow_eq_ok hadd
  have hlt := lt_size_of_idOf? htable
  refine ⟨table, htable, rfl, List.length_modify _ _ _, hlt, owner, ?_,
    s.ownersOf_concat (h.length_eq ▸ hlt) owner⟩
  rcases howner with ⟨hnone, rfl⟩ | ⟨parent, hparent, hcurrent, hsome⟩
  · rw [IsLastOwner, hnone]
  · rw [IsLastOwner, hparent]
    obtain ⟨last, hlast⟩ := Option.ne_none_iff_exists'.1 hsome
    exact ⟨last, hlast, succ_eq_of_currentRow? (hcurrent.symm.trans hlast)⟩

theorem sameOwners_setValue (s : Staging) (ref : RowRef) (column : String)
    (value : Option String) : s.SameOwners (s.setValue ref column value) :=
  ⟨rfl, List.length_modify _ _ _, s.ownersOf_setValue ref column value⟩

/-- A value opens at most one row. -/
theorem sameOwners_or_opensRow_addValue (h : s.IsOwned tree) {path column : String}
    {value : Option String} (hadd : s.addValue path column value = .ok next) :
    s.SameOwners next ∨ ∃ table, s.OpensRow next table := by
  obtain ⟨table, row, opened, -, ⟨-, rfl⟩ | ⟨-, hopened⟩, rfl⟩ := addValue_eq_ok hadd
  · exact Or.inl (sameOwners_setValue opened _ column value)
  · obtain ⟨found, -, harena, hlength, hlt, owner, hlast, howners⟩ := opensRow_addRow h hopened
    refine Or.inr ⟨found, harena, ?_, hlt, owner, hlast, fun k => ?_⟩
    · exact (List.length_modify _ _ _).trans hlength
    · rw [ownersOf_setValue, howners]

/-- An operation that succeeds opens at most one row. -/
theorem sameOwners_or_opensRow_applyOp (h : s.IsOwned tree) {op : ValueOp}
    (hop : s.applyOp op = .ok next) : s.SameOwners next ∨ ∃ table, s.OpensRow next table := by
  cases op with
  | row path =>
    obtain ⟨⟨row, added⟩, hadd, rfl⟩ := map_eq_ok.1 hop
    obtain ⟨table, -, hopens⟩ := opensRow_addRow h hadd
    exact Or.inr ⟨table, hopens⟩
  | value path column value => exact sameOwners_or_opensRow_addValue h hop
  | null path column => exact sameOwners_or_opensRow_addValue h hop

/-- What a call does to the rows. A call that fails leaves the container, a row that is asked for is
opened in the table with the path, and a value opens a row or leaves all rows where they are. -/
def CallKeeps (s : Staging) (op : ValueOp) : Prop :=
  match (InPlace.call op).run s with
  | .error _ next => next = s
  | .ok _ next =>
    match op with
    | .row path => ∃ table, s.tableOf path = .ok table ∧ s.OpensRow next table
    | _ => s.SameOwners next ∨ ∃ table, s.OpensRow next table

theorem callKeeps (h : s.IsOwned tree) (op : ValueOp) : s.CallKeeps op := by
  rw [CallKeeps, InPlace.run_call]
  cases hop : s.applyOp op with
  | error e => rfl
  | ok next =>
    cases op with
    | row path =>
      obtain ⟨⟨row, added⟩, hadd, rfl⟩ := map_eq_ok.1 hop
      obtain ⟨table, htable, hopens⟩ := opensRow_addRow h hadd
      refine ⟨table, ?_, hopens⟩
      rw [tableOf, htable]
    | value path column value => exact sameOwners_or_opensRow_applyOp h hop
    | null path column => exact sameOwners_or_opensRow_applyOp h hop

/-! ## Rows in order -/

/-- Along every table the rows that the rows belong to never decrease. -/
def InOrder (s : Staging) : Prop :=
  ∀ table, (s.ownersOf table).Pairwise fun a b => ∀ i ∈ a, ∀ j ∈ b, i ≤ j

theorem inOrder_start (tree : TableTree) : (start tree).InOrder := by
  intro table
  rw [ownersOf, rowsOf_start]
  split
  · exact List.pairwise_singleton _ _
  · exact List.Pairwise.nil

theorem InOrder.of_sameOwners (h : s.InOrder) (hsame : s.SameOwners next) : next.InOrder := by
  intro table
  rw [hsame.2.2]
  exact h table

/-- The rows of a table belong to rows up to the last one, to which a new row belongs. -/
theorem InOrder.of_opensRow (h : s.InOrder) (howned : s.IsOwned tree) {table : Nat}
    (hopens : s.OpensRow next table) : next.InOrder := by
  obtain ⟨-, -, -, owner, hlast, howners⟩ := hopens
  intro k
  rw [howners]
  split
  · rename_i heq
    subst heq
    refine List.pairwise_append.2 ⟨h k, List.pairwise_singleton _ _, ?_⟩
    intro a ha b hb i hi j hj
    obtain rfl := List.mem_singleton.1 hb
    rw [IsLastOwner] at hlast
    split at hlast
    · rw [hlast] at hj
      simp at hj
    · rename_i parent hparent
      obtain ⟨last, rfl, hlength⟩ := hlast
      obtain ⟨row, rfl, hrow⟩ := howned.owned hparent a ha
      rw [Option.mem_some_iff] at hi hj
      omega
  · exact h k

/-- A call keeps what is known of the rows, whether it succeeds or fails. -/
theorem isOwned_inOrder_afterCall (howned : s.IsOwned tree) (h : s.InOrder) (op : ValueOp) :
    (s.afterCall op).IsOwned tree ∧ (s.afterCall op).InOrder := by
  rw [afterCall, InPlace.run_call]
  cases hop : s.applyOp op with
  | error e => exact ⟨howned, h⟩
  | ok next =>
    refine ⟨isOwned_applyOp howned hop, ?_⟩
    rcases sameOwners_or_opensRow_applyOp howned hop with hsame | ⟨table, hopens⟩
    · exact h.of_sameOwners hsame
    · exact h.of_opensRow howned hopens

/-- Rows belong to rows of the parent and are in order, whatever was called. -/
theorem isOwned_inOrder_afterCalls (tree : TableTree) (ops : List ValueOp) :
    ((start tree).afterCalls ops).IsOwned tree ∧ ((start tree).afterCalls ops).InOrder := by
  suffices h : ∀ s : Staging, s.IsOwned tree ∧ s.InOrder →
      (s.afterCalls ops).IsOwned tree ∧ (s.afterCalls ops).InOrder from
    h _ ⟨(isStaged_start tree).isOwned, inOrder_start tree⟩
  induction ops with
  | nil => exact fun s hs => hs
  | cons op ops ih => exact fun s hs => ih _ (isOwned_inOrder_afterCall hs.1 hs.2 op)

/-! ## Blocks -/

/-- Where the members of a sorted list are that equal a value: side by side, behind the smaller
ones. -/
theorem indexes_eq_range' {value k : Nat} {l : List Nat} (h : l.Pairwise (· ≤ ·)) :
    ((l.zipIdx k).filter fun x => x.1 == value).map Prod.snd =
      List.range' (k + l.countP (· < value)) (l.count value) := by
  induction l generalizing k with
  | nil => rfl
  | cons first rest ih =>
    obtain ⟨hfirst, hrest⟩ := List.pairwise_cons.1 h
    have hindexes := @ih (k + 1) hrest
    rw [List.zipIdx_cons, List.filter_cons]
    rcases Nat.lt_trichotomy first value with hlt | rfl | hgt
    · rw [if_neg (by simpa using Nat.ne_of_lt hlt), hindexes,
        List.countP_cons_of_pos (by simpa using hlt), List.count_cons_of_ne (Nat.ne_of_lt hlt)]
      congr 1
      omega
    · -- no member of the rest is smaller
      have hnone : rest.countP (· < first) = 0 :=
        List.countP_eq_zero.2 fun x hx => by simpa using hfirst x hx
      rw [if_pos (by simp), List.map_cons, hindexes, List.countP_cons_of_neg (by simp), hnone,
        List.count_cons_self, List.range'_succ]
      rfl
    · -- no member of the rest is equal
      have hnone : rest.count value = 0 :=
        List.count_eq_zero.2 fun hmem => absurd (hfirst value hmem) (by omega)
      rw [if_neg (by simpa using Nat.ne_of_gt hgt), hindexes,
        List.count_cons_of_ne (Nat.ne_of_gt hgt), hnone]
      rfl

/-- The number of rows of a table under a row of the parent. The rows of the root are asked for by
any number. -/
def countUnder (s : Staging) (table i : Nat) : Nat := (s.rowsUnder table (s.parentKey table i)).length

/-- The number of rows of a table under the rows of the parent that come before a row. -/
def countBefore (s : Staging) (table : Nat) : Nat → Nat
  | 0 => 0
  | i + 1 => s.countBefore table i + s.countUnder table i

/-- The first row of a table under a row of the parent. -/
def firstUnder (s : Staging) (table i : Nat) : Nat :=
  match s.arena.parent? table with
  | none => 0
  | some _ => s.countBefore table i

/-- Rows lie under those of their parents in blocks: each row below the root belongs to a row of the
parent and to none before that of the row before it, and the rows under the rows of the parent
follow one another without a gap. -/
structure InBlocks (s : Staging) : Prop where
  owned : ∀ {table parent row : Nat} {staged : StagedRow}, s.arena.parent? table = some parent →
    (s.rowsOf table)[row]? = some staged →
      ∃ i, staged.parentRow = some i ∧ i < (s.rowsOf parent).length
  unowned : ∀ {table row : Nat} {staged : StagedRow}, s.arena.parent? table = none →
    (s.rowsOf table)[row]? = some staged → staged.parentRow = none
  ordered : ∀ {table row later i j : Nat} {a b : StagedRow}, row ≤ later →
    (s.rowsOf table)[row]? = some a → (s.rowsOf table)[later]? = some b →
      a.parentRow = some i → b.parentRow = some j → i ≤ j
  block : ∀ table i, s.rowsUnder table (s.parentKey table i) =
    List.range' (s.firstUnder table i) (s.countUnder table i)
  whole : ∀ {table parent : Nat}, s.arena.parent? table = some parent →
    s.countBefore table (s.rowsOf parent).length = (s.rowsOf table).length
  whole_root : ∀ {table : Nat}, s.arena.parent? table = none → ∀ i,
    s.countUnder table i = (s.rowsOf table).length
  rowCount_eq : ∀ {path : String} {table : Nat}, s.tableOf path = .ok table → ∀ i,
    s.rowCount path i = .ok (s.countUnder table i)
  nthRow_eq : ∀ table i n, s.nthRow table i n =
    if n < s.countUnder table i then .ok (s.firstUnder table i + n)
    else .error (.missingRow (s.arena.path table) n)

theorem rowsUnder_eq (s : Staging) (table : Nat) (owner : Option Nat) :
    s.rowsUnder table owner =
      ((s.ownersOf table).zipIdx.filter fun x => x.1 == owner).map Prod.snd := by
  rw [ownersOf, List.zipIdx_map, List.filter_map, List.map_map]
  rfl

/-- Below the root the rows that the rows of a table belong to are a sorted list. -/
theorem exists_owners (howned : s.IsOwned tree) (h : s.InOrder) {table parent : Nat}
    (hparent : s.arena.parent? table = some parent) :
    ∃ l : List Nat, s.ownersOf table = l.map some ∧ l.Pairwise (· ≤ ·) ∧
      ∀ i ∈ l, i < (s.rowsOf parent).length := by
  obtain ⟨l, hl⟩ : ∃ l : List Nat, s.ownersOf table = l.map some := by
    refine ⟨(s.ownersOf table).map (·.getD 0), ?_⟩
    rw [List.map_map]
    refine (List.map_id _).symm.trans (List.map_congr_left fun owner hmem => ?_)
    obtain ⟨row, rfl, -⟩ := howned.owned hparent owner hmem
    rfl
  refine ⟨l, hl, ?_, fun i hi => ?_⟩
  · have hpairs := h table
    rw [hl, List.pairwise_map] at hpairs
    exact hpairs.imp fun hab => hab _ rfl _ rfl
  · obtain ⟨row, hrow, hlt⟩ := howned.owned hparent (some i) (hl ▸ List.mem_map_of_mem hi)
    rwa [Option.some.inj hrow]

theorem rowsUnder_of_sorted {table i : Nat} {l : List Nat} (hl : s.ownersOf table = l.map some)
    (hsorted : l.Pairwise (· ≤ ·)) :
    s.rowsUnder table (some i) = List.range' (l.countP (· < i)) (l.count i) := by
  rw [rowsUnder_eq, hl, List.zipIdx_map, List.filter_map, List.map_map]
  have h := @indexes_eq_range' i 0 l hsorted
  rw [Nat.zero_add] at h
  rw [← h]
  rfl

theorem parentKey_of_parent? {table parent : Nat} (hparent : s.arena.parent? table = some parent)
    (i : Nat) : s.parentKey table i = some i := by
  rw [parentKey, hparent]
  rfl

theorem countP_lt_succ (i : Nat) (l : List Nat) :
    l.countP (· < i + 1) = l.countP (· < i) + l.count i := by
  induction l with
  | nil => rfl
  | cons first rest ih =>
    rw [List.countP_cons, List.countP_cons, List.count_cons, ih]
    simp only [decide_eq_true_eq, beq_iff_eq]
    split <;> split <;> split <;> omega

/-- The rows under the rows before a row are those that belong to smaller ones. -/
theorem countBefore_of_sorted {table parent : Nat} {l : List Nat}
    (hparent : s.arena.parent? table = some parent) (hl : s.ownersOf table = l.map some)
    (hsorted : l.Pairwise (· ≤ ·)) (i : Nat) : s.countBefore table i = l.countP (· < i) := by
  induction i with
  | zero =>
    rw [countBefore]
    exact (List.countP_eq_zero.2 fun x _ => by simp).symm
  | succ i ih =>
    rw [countBefore, ih, countUnder, parentKey_of_parent? hparent, rowsUnder_of_sorted hl hsorted,
      List.length_range', countP_lt_succ]

/-- The rows of the root belong to no row, and all of them are found together. -/
theorem rowsUnder_of_unowned {table : Nat} (h : ∀ owner ∈ s.ownersOf table, owner = none) :
    s.rowsUnder table none = List.range (s.rowsOf table).length := by
  rw [rowsUnder_eq, List.filter_eq_self.2, List.zipIdx_map_snd, length_ownersOf,
    List.range_eq_range']
  intro x hx
  have hmem : x.1 ∈ s.ownersOf table := by
    obtain ⟨a, i⟩ := x
    exact List.mem_of_getElem? (List.mem_zipIdx_iff_getElem?.1 hx)
  rw [h _ hmem]
  rfl

theorem ownersOf_getElem? {table row : Nat} {staged : StagedRow}
    (h : (s.rowsOf table)[row]? = some staged) :
    (s.ownersOf table)[row]? = some staged.parentRow := by
  rw [ownersOf, List.getElem?_map, h]
  rfl

/-- The rows under a row of the parent are a block. -/
theorem rowsUnder_eq_range' (howned : s.IsOwned tree) (h : s.InOrder) (table i : Nat) :
    s.rowsUnder table (s.parentKey table i) =
      List.range' (s.firstUnder table i) (s.countUnder table i) := by
  cases hparent : s.arena.parent? table with
  | none =>
    have hkey : s.parentKey table i = none := by
      rw [parentKey, hparent]
      rfl
    rw [countUnder, hkey, firstUnder, hparent, rowsUnder_of_unowned (howned.unowned hparent),
      List.length_range, List.range_eq_range']
  | some parent =>
    obtain ⟨l, hl, hsorted, -⟩ := exists_owners howned h hparent
    rw [countUnder, parentKey_of_parent? hparent, firstUnder, hparent,
      countBefore_of_sorted hparent hl hsorted, rowsUnder_of_sorted hl hsorted, List.length_range']

theorem inBlocks_of_inOrder (howned : s.IsOwned tree) (h : s.InOrder) : s.InBlocks where
  owned hparent hrow := howned.owned hparent _ (List.mem_of_getElem? (ownersOf_getElem? hrow))
  unowned hparent hrow := howned.unowned hparent _ (List.mem_of_getElem? (ownersOf_getElem? hrow))
  ordered {table row later i j a b} hle ha hb hi hj := by
    rcases Nat.lt_or_eq_of_le hle with hlt | rfl
    · obtain ⟨hrow, hgeta⟩ := List.getElem?_eq_some_iff.1 (ownersOf_getElem? ha)
      obtain ⟨hlater, hgetb⟩ := List.getElem?_eq_some_iff.1 (ownersOf_getElem? hb)
      refine List.pairwise_iff_getElem.1 (h table) row later hrow hlater hlt i ?_ j ?_
      · rw [hgeta, hi]
        rfl
      · rw [hgetb, hj]
        rfl
    · rw [ha] at hb
      rw [← Option.some.inj hb, hi] at hj
      exact Nat.le_of_eq (Option.some.inj hj)
  block := rowsUnder_eq_range' howned h
  whole {table parent} hparent := by
    obtain ⟨l, hl, hsorted, hlt⟩ := exists_owners howned h hparent
    rw [countBefore_of_sorted hparent hl hsorted, ← s.length_ownersOf table, hl, List.length_map]
    exact List.countP_eq_length.2 fun i hi => by simpa using hlt i hi
  whole_root {table} hparent i := by
    rw [countUnder, parentKey, hparent]
    exact (congrArg List.length (rowsUnder_of_unowned (howned.unowned hparent))).trans
      List.length_range
  rowCount_eq {path table} htable i := by
    rw [rowCount, htable]
    rfl
  nthRow_eq table i n := by
    rw [nthRow, rowsUnder_eq_range' howned h]
    by_cases hn : n < s.countUnder table i
    · rw [if_pos hn, List.getElem?_range' hn, Nat.one_mul]
    · rw [if_neg hn, List.getElem?_eq_none (by rw [List.length_range']; omega)]

/-- The rows of a container lie in blocks, whatever was called on it, and every further call keeps
all rows where they are or opens one under the last row of the parent. In a derived tree the path
of every table leads back to it. -/
theorem inBlocks_afterCalls (tree : TableTree) (ops : List ValueOp) :
    ((start tree).afterCalls ops).InBlocks ∧
      (∀ op, ((start tree).afterCalls ops).CallKeeps op) ∧
        (tree.IsDerived → ∀ table < (Arena.ofTree tree).size,
          ((start tree).afterCalls ops).tableOf ((Arena.ofTree tree).path table) = .ok table) := by
  obtain ⟨howned, horder⟩ := isOwned_inOrder_afterCalls tree ops
  refine ⟨inBlocks_of_inOrder howned horder, callKeeps howned, fun htree table hlt => ?_⟩
  rw [tableOf, howned.arena_eq, Arena.idOf?_path_of_lt htree hlt]

/-- Of three phones the third stands under the second address. It is found as the first phone there,
although the first call asked for a phone before there was an address. -/
theorem inBlocks_afterCalls_phones : ∃ tree, tree.IsDerived ∧
    ((start tree).afterCalls [.row "parcel/[id=parcel_id]address/[id=address_id]phone",
      .row "parcel/[id=parcel_id]address",
      .row "parcel/[id=parcel_id]address/[id=address_id]phone",
      .value "parcel/[id=parcel_id]address/[id=address_id]phone/number" "number" "1",
      .row "parcel/[id=parcel_id]address/[id=address_id]phone",
      .row "parcel/[id=parcel_id]address",
      .value "parcel/[id=parcel_id]address/[id=address_id]phone/number" "number" "3"]).nthRow 2 1 0 =
        .ok 2 := by
  have hrun : (do
      let tree ← TableTree.ofPaths ["parcel/[id=parcel_id]address/[id=address_id]phone/number"]
      let s := (start tree).afterCalls [.row "parcel/[id=parcel_id]address/[id=address_id]phone",
        .row "parcel/[id=parcel_id]address",
        .row "parcel/[id=parcel_id]address/[id=address_id]phone",
        .value "parcel/[id=parcel_id]address/[id=address_id]phone/number" "number" "1",
        .row "parcel/[id=parcel_id]address/[id=address_id]phone",
        .row "parcel/[id=parcel_id]address",
        .value "parcel/[id=parcel_id]address/[id=address_id]phone/number" "number" "3"]
      return (s.firstUnder 2 1, s.countUnder 2 1) : Except Error (Nat × Nat)).toOption =
        some (2, 1) := by
    decide +kernel
  obtain ⟨tree, htree, hrun⟩ := bind_eq_ok.1 (toOption_eq_some.1 hrun)
  obtain ⟨hfirst, hcount⟩ := Prod.mk.inj (pure_eq_ok.1 hrun)
  refine ⟨tree, TableTree.isDerived_of_ofPaths htree, ?_⟩
  rw [(inBlocks_afterCalls tree _).1.nthRow_eq, hfirst, hcount]
  rfl

end Staging

end FeatureStore
