import FeatureStore.Error
import FeatureStore.Read.Cell

/-!
# Merging sorted rows

The rows of several sources, each sorted by its own leading cells, become one
sequence. Two rows are compared on the sort cells that their layouts have in
common. Of the first rows of all sources the least one comes next; of equal rows
that of the source named first. Rows are taken from a source one at a time, so at
most one row of each source is held (`Merge.next`). A failure of a source ends
the merge.
-/

namespace FeatureStore

/-- A cell that rows are sorted by. Cells of one name mean the same in all sources. -/
structure SortColumn where
  name : String
  descending : Bool
  deriving DecidableEq, Repr, Inhabited

/-- The leading cells that the rows of a source are sorted by. -/
abbrev SortLayout := List SortColumn

/-- A layout from the names of its cells and the directions of the first ones; the others are
ascending. -/
def SortLayout.ofFlags (flags : List Bool) (names : List String) : SortLayout :=
  names.zipIdx.map fun (name, index) => ⟨name, flags.getD index false⟩

/-- An order or its reverse. -/
def directed (descending : Bool) (order : Ordering) : Ordering :=
  if descending then order.swap else order

/-- The order of two rows on the leading sort cells that their layouts share, in the directions of
the first layout. -/
def compareRows : SortLayout → Row → SortLayout → Row → Ordering
  | a :: as, x, b :: bs, y =>
    if a.name = b.name then
      (directed a.descending (compareCells x.head?.join y.head?.join)).then
        (compareRows as x.tail bs y.tail)
    -- from here on the cells belong to different tables and are not comparable
    else .eq
  | _, _, _, _ => .eq

/-- One source of rows. -/
structure RowSource where
  layout : SortLayout
  /-- The rows still to be taken, and failures among them. -/
  rows : List (Except ExecutionFailure Row)
  /-- The row that was taken last, until it is its turn. -/
  pending : Option Row
  deriving Inhabited

namespace RowSource

/-- A source that nothing was taken from. -/
def start (layout : SortLayout) (rows : List (Except ExecutionFailure Row)) : RowSource :=
  ⟨layout, rows, none⟩

/-- The number of items that the source holds. -/
def size (s : RowSource) : Nat := s.rows.length + s.pending.toList.length

/-- The number of rows still to be taken from some sources. -/
def totalUntaken : List RowSource → Nat
  | [] => 0
  | s :: rest => s.rows.length + totalUntaken rest

/-- The number of items that some sources hold. -/
def totalSize : List RowSource → Nat
  | [] => 0
  | s :: rest => s.size + totalSize rest

/-- Takes the next row, and says whether that failed. -/
def pull (s : RowSource) : RowSource × Option ExecutionFailure :=
  match s.rows with
  | [] => ({ s with pending := none }, none)
  | .ok row :: rest => ({ s with rows := rest, pending := some row }, none)
  | .error failure :: rest => ({ s with rows := rest, pending := none }, some failure)

/-- Taking a row makes no source larger. -/
theorem size_pull_le (s : RowSource) : s.pull.1.size ≤ s.size := by
  rcases s with ⟨layout, rows, pending⟩
  match rows with
  | [] => simp [pull, size]
  | .ok row :: rest => simp [pull, size]
  | .error failure :: rest => simp [pull, size]; omega

/-- Taking a row in place of one that is pending makes the source smaller. -/
theorem size_pull_lt {s : RowSource} {row : Row} (h : s.pending = some row) :
    s.pull.1.size < s.size := by
  rcases s with ⟨layout, rows, pending⟩
  subst h
  match rows with
  | [] => simp [pull, size]
  | .ok row :: rest => simp [pull, size]
  | .error failure :: rest =>
    simp only [pull, size, Option.toList_none, Option.toList_some, List.length_nil,
      List.length_cons]
    omega

end RowSource

/-- Takes a row from every source, up to the first failure. -/
def pullAll : List RowSource → List RowSource × Option ExecutionFailure
  | [] => ([], none)
  | s :: rest =>
    match s.pull with
    | (taken, some failure) => (taken :: rest, some failure)
    | (taken, none) =>
      let (others, failure) := pullAll rest
      (taken :: others, failure)

/-- Takes a row from the source with an index. -/
def pullAt : Nat → List RowSource → List RowSource × Option ExecutionFailure
  | _, [] => ([], none)
  | 0, s :: rest =>
    let (taken, failure) := s.pull
    (taken :: rest, failure)
  | index + 1, s :: rest =>
    let (others, failure) := pullAt index rest
    (s :: others, failure)

/-- The pending row of a source, with its place among the sources. -/
structure Lead where
  group : Nat
  layout : SortLayout
  row : Row
  deriving Inhabited

/-- The pending rows of the sources, the first of which has the index `group`. -/
def leadsFrom (group : Nat) : List RowSource → List Lead
  | [] => []
  | s :: rest =>
    match s.pending with
    | some row => ⟨group, s.layout, row⟩ :: leadsFrom (group + 1) rest
    | none => leadsFrom (group + 1) rest

/-- The first of two rows; of equal ones the one that was there before. -/
def earlier (best candidate : Lead) : Lead :=
  if compareRows best.layout best.row candidate.layout candidate.row = .gt then candidate
  else best

/-- The pending row that comes first. -/
def firstLead? (sources : List RowSource) : Option Lead :=
  match leadsFrom 0 sources with
  | [] => none
  | lead :: rest => some (rest.foldl earlier lead)

/-- A row and the index of the source that it came from. -/
structure MergedRow where
  group : Nat
  row : Row
  deriving DecidableEq, Inhabited

/-- How far a merge has come. -/
inductive MergePhase where
  /-- Nothing was taken yet. -/
  | fresh
  /-- Every source that is not exhausted has a pending row. -/
  | running
  /-- All sources are exhausted. -/
  | done
  /-- A source failed. -/
  | failed
  deriving DecidableEq, Repr, Inhabited

/-- A merge under way. -/
structure Merge where
  sources : List RowSource
  phase : MergePhase
  deriving Inhabited

namespace Merge

/-- A merge that has not begun. -/
def start (sources : List (SortLayout × List (Except ExecutionFailure Row))) : Merge :=
  ⟨sources.map fun (layout, rows) => RowSource.start layout rows, .fresh⟩

/-- The number of rows that can still be taken from the sources. -/
def untaken (m : Merge) : Nat := RowSource.totalUntaken m.sources

/-- The number of items that the sources hold. -/
def size (m : Merge) : Nat := RowSource.totalSize m.sources

/-- Gives the first pending row and takes the next one from its source. -/
def emit (sources : List RowSource) : Option (Except ExecutionFailure MergedRow) × Merge :=
  match firstLead? sources with
  | none => (none, ⟨sources, .done⟩)
  | some lead =>
    -- a failure of the source takes the place of the row that was pending
    match pullAt lead.group sources with
    | (left, some failure) => (some (.error failure), ⟨left, .failed⟩)
    | (left, none) => (some (.ok ⟨lead.group, lead.row⟩), ⟨left, .running⟩)

/-- The next row, or the failure that ends the merge; nothing once it has ended. -/
def next (m : Merge) : Option (Except ExecutionFailure MergedRow) × Merge :=
  match m.phase with
  | .done => (none, m)
  | .failed => (none, m)
  | .running => emit m.sources
  | .fresh =>
    match pullAll m.sources with
    | (left, some failure) => (some (.error failure), ⟨left, .failed⟩)
    | (left, none) => emit left

/-! ## Every row given makes the merge smaller -/

/-- Every pending row stands in the source with its index. -/
theorem mem_leadsFrom {lead : Lead} {group : Nat} {sources : List RowSource}
    (h : lead ∈ leadsFrom group sources) :
    ∃ index s, lead.group = group + index ∧ sources[index]? = some s ∧
      s.pending = some lead.row := by
  induction sources generalizing group with
  | nil => simp [leadsFrom] at h
  | cons s rest ih =>
    cases hs : s.pending with
    | none =>
      rw [leadsFrom, hs] at h
      obtain ⟨index, t, hg, ht, hp⟩ := ih h
      exact ⟨index + 1, t, by omega, by simpa using ht, hp⟩
    | some row =>
      rw [leadsFrom, hs] at h
      rcases List.mem_cons.1 h with rfl | h
      · exact ⟨0, s, rfl, rfl, hs⟩
      · obtain ⟨index, t, hg, ht, hp⟩ := ih h
        exact ⟨index + 1, t, by omega, by simpa using ht, hp⟩

/-- The earlier of several rows is one of them. -/
theorem foldl_earlier_mem (rest : List Lead) (lead : Lead) :
    rest.foldl earlier lead ∈ lead :: rest := by
  induction rest generalizing lead with
  | nil => simp
  | cons other rest ih =>
    have := ih (earlier lead other)
    rw [List.foldl_cons]
    rcases List.mem_cons.1 this with h | h
    · rw [h, earlier]
      split <;> simp
    · exact List.mem_cons_of_mem _ (List.mem_cons_of_mem _ h)

/-- The first pending row is the earlier of all pending rows, taken from the first source on. -/
theorem firstLead?_eq_some {sources : List RowSource} {lead : Lead}
    (h : firstLead? sources = some lead) :
    ∃ first rest, leadsFrom 0 sources = first :: rest ∧ rest.foldl earlier first = lead := by
  unfold firstLead? at h
  split at h
  · simp at h
  · rename_i first rest hleads
    exact ⟨first, rest, hleads, Option.some.inj h⟩

/-- The first pending row stands in the source with its index. -/
theorem firstLead?_pending {sources : List RowSource} {lead : Lead}
    (h : firstLead? sources = some lead) :
    ∃ s, sources[lead.group]? = some s ∧ s.pending = some lead.row := by
  obtain ⟨first, rest, hleads, hlead⟩ := firstLead?_eq_some h
  have hmem : lead ∈ leadsFrom 0 sources := by
    rw [hleads, ← hlead]
    exact foldl_earlier_mem rest first
  obtain ⟨index, s, hg, hs, hp⟩ := mem_leadsFrom hmem
  exact ⟨s, by rw [hg]; simpa using hs, hp⟩

/-- Taking a row in place of a pending one makes the sources smaller. -/
theorem size_pullAt_lt {sources : List RowSource} {index : Nat} {s : RowSource} {row : Row}
    (hs : sources[index]? = some s) (hp : s.pending = some row) :
    RowSource.totalSize (pullAt index sources).1 < RowSource.totalSize sources := by
  induction sources generalizing index with
  | nil => simp at hs
  | cons t rest ih =>
    cases index with
    | zero =>
      obtain rfl : t = s := by simpa using hs
      have := RowSource.size_pull_lt hp
      simp only [pullAt, RowSource.totalSize]
      omega
    | succ index =>
      have hs : rest[index]? = some s := by simpa using hs
      have := ih hs
      simp only [pullAt, RowSource.totalSize]
      omega

/-- Taking a row from every source makes none larger. -/
theorem size_pullAll_le (sources : List RowSource) :
    RowSource.totalSize (pullAll sources).1 ≤ RowSource.totalSize sources := by
  induction sources with
  | nil => simp [pullAll]
  | cons s rest ih =>
    have hs := s.size_pull_le
    unfold pullAll
    split
    · rename_i taken failure hp
      rw [hp] at hs
      simp only [RowSource.totalSize] at hs ⊢
      omega
    · rename_i taken hp
      rw [hp] at hs
      simp only [RowSource.totalSize] at hs ⊢
      omega

/-- The merge is smaller behind a row that it gives. -/
theorem size_emit_lt {sources : List RowSource} {row : MergedRow} {m : Merge}
    (h : emit sources = (some (.ok row), m)) : m.size < RowSource.totalSize sources := by
  unfold emit at h
  split at h
  · simp at h
  · rename_i lead hl
    obtain ⟨s, hs, hp⟩ := firstLead?_pending hl
    have := size_pullAt_lt hs hp
    split at h
    · simp at h
    · rename_i left hleft
      rw [hleft] at this
      obtain ⟨-, rfl⟩ := Prod.mk.inj h
      exact this

/-- The merge is smaller behind a row that it gives. -/
theorem size_next_lt {m left : Merge} {row : MergedRow} (h : m.next = (some (.ok row), left)) :
    left.size < m.size := by
  unfold next at h
  split at h
  · simp at h
  · simp at h
  · exact size_emit_lt h
  · have hle := size_pullAll_le m.sources
    split at h
    · simp at h
    · rename_i sources hp
      rw [hp] at hle
      exact Nat.lt_of_lt_of_le (size_emit_lt h) hle

/-- All rows of a merge in order, and the failure that ended it. -/
def run (m : Merge) : List MergedRow × Option ExecutionFailure :=
  match h : m.next with
  | (none, _) => ([], none)
  | (some (.error failure), _) => ([], some failure)
  | (some (.ok row), left) =>
    have : left.size < m.size := size_next_lt h
    let (rows, failure) := left.run
    (row :: rows, failure)
termination_by m.size

end Merge

end FeatureStore
