import FeatureStore.Table.Arena

/-!
# Multiplicities

While rows are read in order, a counter for every table of a tree tells which of
the rows under the current parent row is read. The counter of a table advances
when the key of its row changes, and that starts the counters of all tables
below it anew.
-/

namespace FeatureStore

/-- The counter of one table. -/
structure Counter where
  /-- The key of the row read last. -/
  last : Option String
  count : Nat
  deriving DecidableEq, Repr, Inhabited

/-- A counter before the first row. -/
def Counter.zero : Counter := ⟨none, 0⟩

/-- The counters of all tables, by number. -/
structure Multiplicities where
  arena : Arena
  counters : List Counter
  deriving Inhabited

namespace Multiplicities

/-- All counters before the first row. -/
def start (arena : Arena) : Multiplicities := ⟨arena, List.replicate arena.size Counter.zero⟩

/-- All counters started anew. -/
def reset (m : Multiplicities) : Multiplicities := start m.arena

/-- The count of a table. -/
def count (m : Multiplicities) (table : Nat) : Nat :=
  ((m.counters[table]?).map Counter.count).getD 0

/-- The key of the row of a table that was read last. -/
def last (m : Multiplicities) (table : Nat) : Option String :=
  (m.counters[table]?).bind Counter.last

/-- The table may have several rows under one parent row. -/
def isMultiValued (m : Multiplicities) (table : Nat) : Bool :=
  ((m.arena.get? table).map fun node => node.kind.isMultiValued).getD false

/-- One more row of a table, with a new key. -/
def advance (m : Multiplicities) (table : Nat) (key : Option String) : Multiplicities :=
  let below := m.arena.descendants table
  { m with
    counters := m.counters.zipIdx.map fun (counter, index) =>
      if index = table then ⟨key, counter.count + 1⟩
      else if index ∈ below then Counter.zero
      else counter }

/-- A row of a table is read. -/
def visit (m : Multiplicities) (table : Nat) (key : Option String) : Multiplicities :=
  if m.last table = key then m else m.advance table key

/-- A row is read whose tables from the root down have these keys. Gives the counts of those tables
that may have several rows. -/
def track (m : Multiplicities) (chain : List Nat) (keys : List (Option String)) :
    List Nat × Multiplicities :=
  let read := (chain.zip keys).foldl (fun m (table, key) => m.visit table key) m
  ((chain.filter read.isMultiValued).map read.count, read)

end Multiplicities

end FeatureStore
