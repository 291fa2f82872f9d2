import FeatureStore.Table.Tree

/-!
# Numbered tables

The tables of a tree numbered in pre-order, so that the root is table zero and a
parent comes before its descendants. Each table knows the number of its parent
and of its children. The descendants of a table are the tables that follow it
directly and lie deeper.
-/

namespace FeatureStore

/-- One numbered table. -/
structure ArenaNode where
  name : String
  path : String
  kind : RelationKind
  parent : Option Nat
  depth : Nat
  children : List Nat
  hasColumns : Bool
  deriving DecidableEq, Repr, Inhabited

/-- The tables of a tree by number. -/
structure Arena where
  nodes : List ArenaNode
  deriving DecidableEq, Repr, Inhabited

namespace TableTree

/-- The numbers of trees that stand next to each other, the first one numbered `id`. -/
def childIds (id : Nat) : List TableTree → List Nat
  | [] => []
  | tree :: rest => id :: childIds (id + tree.size) rest

mutual
/-- The numbered tables of a tree whose top has the number `id`. -/
def number (parent : Option Nat) (depth id : Nat) : TableTree → List ArenaNode
  | .node table children =>
    { name := table.name
      path := table.path
      kind := table.kind
      parent := parent
      depth := depth
      children := childIds (id + 1) children
      hasColumns := !table.columns.isEmpty } ::
    numberList id (depth + 1) (id + 1) children

/-- The numbered tables of the children of the table `parent`, the first one numbered `id`. -/
def numberList (parent depth id : Nat) : List TableTree → List ArenaNode
  | [] => []
  | tree :: rest =>
    tree.number (some parent) depth id ++ numberList parent depth (id + tree.size) rest
end

end TableTree

namespace Arena

/-- The numbered tables of a tree. -/
def ofTree (t : TableTree) : Arena := ⟨t.number none 0 0⟩

/-- The number of tables. -/
def size (a : Arena) : Nat := a.nodes.length

/-- The table with a number. -/
def get? (a : Arena) (id : Nat) : Option ArenaNode := a.nodes[id]?

/-- The number of the parent. -/
def parent? (a : Arena) (id : Nat) : Option Nat := (a.get? id).bind ArenaNode.parent

/-- The path of a table, empty for a number beyond the last one. -/
def path (a : Arena) (id : Nat) : String := ((a.get? id).map ArenaNode.path).getD ""

/-- The number of the table with a path; slashes in front of the path do not count. -/
def idOf? (a : Arena) (path : String) : Option Nat :=
  let bare := withoutSlashes path
  a.nodes.findIdx? (·.path == bare)

/-- The tables from the root down to a table. -/
def chain (a : Arena) (id : Nat) : List Nat :=
  match a.parent? id with
  | some parent => if parent < id then a.chain parent ++ [id] else [id]
  | none => [id]
termination_by id

/-- The tables below a table. -/
def descendants (a : Arena) (id : Nat) : List Nat :=
  match a.get? id with
  | some node =>
    let below := (a.nodes.drop (id + 1)).takeWhile fun other => decide (node.depth < other.depth)
    (List.range below.length).map (id + 1 + ·)
  | none => []

end Arena

end FeatureStore
