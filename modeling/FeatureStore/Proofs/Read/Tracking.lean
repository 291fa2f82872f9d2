import FeatureStore.Proofs.Table.Numbering
import FeatureStore.Read.Multiplicity
import Mathlib.Tactic

/-!
# Counters while rows are read

What reading the rows along a chain does to the counters of the tables. A counter advances when
the key of its table changes, and then all counters below it start anew (`counter_advance`). Rows
whose keys were read last change nothing (`visitAll_of_isAt`). So it does not matter whether a row
is read by itself before the rows below it are, or only along with them (`visitAll_of_advance`): a
table that is not read is counted all the same, as long as some row below each of its rows is.
-/

set_option autoImplicit false

namespace FeatureStore

namespace Multiplicities

variable {a : Arena} {m : Multiplicities}

/-- The counter of a table; zero beyond the last table. -/
def counter (m : Multiplicities) (table : Nat) : Counter :=
  (m.counters[table]?).getD Counter.zero

theorem count_eq (m : Multiplicities) (table : Nat) :
    m.count table = (m.counter table).count := by
  rw [count, counter]
  cases m.counters[table]? <;> rfl

theorem last_eq (m : Multiplicities) (table : Nat) : m.last table = (m.counter table).last := by
  rw [last, counter]
  cases m.counters[table]? <;> rfl

/-- There is a counter for every table of an arena. -/
structure IsOf (m : Multiplicities) (a : Arena) : Prop where
  arena_eq : m.arena = a
  length_eq : m.counters.length = a.size

theorem isOf_start (a : Arena) : (start a).IsOf a :=
  ⟨rfl, by simp [start]⟩

theorem counter_start (a : Arena) (table : Nat) : (start a).counter table = Counter.zero := by
  rw [counter, start, List.getElem?_replicate]
  split <;> rfl

theorem IsOf.reset (h : m.IsOf a) : m.reset = start a := by
  rw [Multiplicities.reset, h.arena_eq]

theorem IsOf.advance (h : m.IsOf a) (table : Nat) (key : Option String) :
    (m.advance table key).IsOf a :=
  ⟨h.arena_eq, by simp [Multiplicities.advance, h.length_eq]⟩

theorem IsOf.visit (h : m.IsOf a) (table : Nat) (key : Option String) :
    (m.visit table key).IsOf a := by
  rw [Multiplicities.visit]
  split
  · exact h
  · exact h.advance table key

/-- The counter that advances goes up by one, and those below it start anew. -/
theorem counter_advance {table : Nat} (h : table < m.counters.length) (key : Option String)
    (k : Nat) : (m.advance table key).counter k =
      if k = table then ⟨key, (m.counter table).count + 1⟩
      else if k ∈ m.arena.descendants table then Counter.zero
      else m.counter k := by
  rw [counter, advance, List.getElem?_map, List.getElem?_zipIdx]
  by_cases hk : k < m.counters.length
  · rw [List.getElem?_eq_getElem hk]
    simp only [Option.map_some, Nat.zero_add, Option.getD_some, counter,
      List.getElem?_eq_getElem hk]
    by_cases hkt : k = table
    · subst hkt
      rw [if_pos rfl, if_pos rfl, List.getElem?_eq_getElem hk, Option.getD_some]
    · rw [if_neg hkt, if_neg hkt]
  · have hnone : m.counters[k]? = none := List.getElem?_eq_none (by omega)
    rw [counter, counter, hnone, if_neg (by omega)]
    split <;> rfl

/-! ## Reading along a chain -/

/-- The rows along a chain are read: for each its table and its key. -/
def visitAll (m : Multiplicities) (visits : List (Nat × Option String)) : Multiplicities :=
  visits.foldl (fun m (table, key) => m.visit table key) m

/-- The rows along a chain were read last. -/
def IsAt (m : Multiplicities) (visits : List (Nat × Option String)) : Prop :=
  ∀ v ∈ visits, m.last v.1 = v.2

/-- The counts of those tables that may have several rows. -/
def countsOf (m : Multiplicities) (chain : List Nat) : List Nat :=
  (chain.filter m.isMultiValued).map m.count

theorem track_eq (m : Multiplicities) (chain : List Nat) (keys : List (Option String)) :
    m.track chain keys =
      ((m.visitAll (chain.zip keys)).countsOf chain, m.visitAll (chain.zip keys)) := rfl

theorem visitAll_append (m : Multiplicities) (visits more : List (Nat × Option String)) :
    m.visitAll (visits ++ more) = (m.visitAll visits).visitAll more :=
  List.foldl_append

/-- Rows that were read last change nothing. -/
theorem visitAll_of_isAt : ∀ {visits : List (Nat × Option String)}, m.IsAt visits →
    m.visitAll visits = m
  | [], _ => rfl
  | (table, key) :: visits, h => by
    obtain ⟨hfirst, h⟩ := List.forall_mem_cons.1 h
    have hvisit : m.visit table key = m := by
      rw [visit, if_pos hfirst]
    show (m.visit table key).visitAll visits = m
    rw [hvisit, visitAll_of_isAt h]

section Advance

variable {parent : Option Nat} {depth id : Nat} {t : TableTree} {key : Option String}
  {visits : List (Nat × Option String)}

/-- What advancing the counter at the top of a part does to the counters. -/
theorem counter_advance_of_holds (hm : m.IsOf a) (hholds : a.Holds parent depth id t) (k : Nat) :
    (m.advance id key).counter k =
      if k = id then ⟨key, (m.counter id).count + 1⟩
      else if id < k ∧ k < id + t.size then Counter.zero
      else m.counter k := by
  have hid : id < m.counters.length := by
    rw [hm.length_eq]
    exact hholds.lt_size
  rw [counter_advance hid, hm.arena_eq]
  by_cases hk : k ∈ a.descendants id
  · rw [if_pos hk, if_pos (hholds.mem_descendants.1 hk)]
  · rw [if_neg hk, if_neg fun h => hk (hholds.mem_descendants.2 h)]

theorem counter_advance_of_lt (hm : m.IsOf a) (hholds : a.Holds parent depth id t) {k : Nat}
    (hk : k < id) : (m.advance id key).counter k = m.counter k := by
  rw [counter_advance_of_holds hm hholds, if_neg (by omega), if_neg (by omega)]

/-- A new row behind rows that were read last. -/
theorem visitAll_concat (hat : m.IsAt visits) (hnew : m.last id ≠ key) :
    m.visitAll (visits ++ [(id, key)]) = m.advance id key := by
  rw [visitAll_append, visitAll_of_isAt hat]
  show m.visit id key = _
  rw [visit, if_neg hnew]

/-- After a new row, it and the rows above it were read last. -/
theorem isAt_advance (hm : m.IsOf a) (hholds : a.Holds parent depth id t) (hat : m.IsAt visits)
    (habove : ∀ v ∈ visits, v.1 < id) : (m.advance id key).IsAt (visits ++ [(id, key)]) := by
  intro v hv
  rcases List.mem_append.1 hv with hv | hv
  · rw [last_eq, counter_advance_of_lt hm hholds (habove v hv), ← last_eq]
    exact hat v hv
  · rw [List.mem_singleton.1 hv, last_eq, counter_advance_of_holds hm hholds, if_pos rfl]

/-- A row read along with the rows below it counts as if it had been read before them. -/
theorem visitAll_of_advance (hm : m.IsOf a) (hholds : a.Holds parent depth id t)
    (hat : m.IsAt visits) (habove : ∀ v ∈ visits, v.1 < id) (hnew : m.last id ≠ key)
    (more : List (Nat × Option String)) :
    (m.advance id key).visitAll (visits ++ [(id, key)] ++ more) =
      m.visitAll (visits ++ [(id, key)] ++ more) := by
  -- the counter has its key already, so the visit that would advance it does nothing
  rw [visitAll_append (m.advance id key), visitAll_append m, visitAll_concat hat hnew,
    visitAll_of_isAt (isAt_advance hm hholds hat habove)]

end Advance

/-- The counts along a chain depend on the counters of its tables only. -/
theorem countsOf_congr {n : Multiplicities} {chain : List Nat} (harena : n.arena = m.arena)
    (h : ∀ k ∈ chain, n.counter k = m.counter k) : n.countsOf chain = m.countsOf chain := by
  have hmulti : n.isMultiValued = m.isMultiValued := by
    funext k
    rw [isMultiValued, isMultiValued, harena]
  rw [countsOf, countsOf, hmulti]
  refine List.map_congr_left fun k hk => ?_
  rw [count_eq, count_eq, h k (List.mem_filter.1 hk).1]

/-- Counters outside a range are as they were. -/
def SameOutside (low high : Nat) (m n : Multiplicities) : Prop :=
  ∀ k, k < low ∨ high ≤ k → n.counter k = m.counter k

namespace SameOutside

variable {low high : Nat} {n o : Multiplicities}

theorem trans (h : SameOutside low high m n) (h' : SameOutside low high n o) :
    SameOutside low high m o := fun k hk => (h' k hk).trans (h k hk)

theorem mono {low' high' : Nat} (hlow : low' ≤ low) (hhigh : high ≤ high')
    (h : SameOutside low high m n) : SameOutside low' high' m n := fun k hk =>
  h k (by omega)

end SameOutside

end Multiplicities

end FeatureStore
