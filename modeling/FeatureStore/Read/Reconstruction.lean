import FeatureStore.Event
import FeatureStore.Read.Group
import FeatureStore.Read.Merge
import FeatureStore.Read.Multiplicity

/-!
# From rows to features

The merged rows of all join groups become events. A row with another root sort
key than the row before ends one feature and begins the next. A row gives the
values of its columns, each with the multiplicities of the tables on its chain. A
row without some sort key of its chain stands for a parent row without partner
and gives nothing.
-/

namespace FeatureStore

/-- How the rows of one join group are laid out. -/
structure GroupLayout where
  path : String
  /-- The tables from the root down. -/
  chain : List Nat
  columns : List Column
  sort : SortLayout
  deriving Inhabited

/-- The place of the identifier among the columns. -/
def GroupLayout.identifier? (g : GroupLayout) : Option Nat :=
  g.columns.findIdx? (·.kind == .identifier)

/-- What is known between two rows. -/
structure Reconstruction where
  featureType : String
  /-- The number of sort keys of the reader in front of each row. -/
  readerKeys : Nat
  groups : List GroupLayout
  multiplicities : Multiplicities
  /-- The root sort key of the open feature. -/
  current : Option String
  /-- The number of rows seen. -/
  rows : Nat
  /-- The number of features begun. -/
  features : Nat
  deriving Inhabited

namespace Reconstruction

/-- The layout of a join group. -/
def layoutOf (arena : Arena) (descending : List Bool) (group : JoinGroup) :
    Except Error GroupLayout := do
  let chain ← group.keys.mapM fun key =>
    match arena.idOf? key.path with
    | some id => .ok id
    | none => .error (.internal (.unknownSortField key.path))
  let names := (List.range descending.length).map readerKeyName ++ group.keys.map ChainKey.path
  return ⟨group.path, chain, group.columns, SortLayout.ofFlags descending names⟩

/-- Before the first row of a read in some directions of the reader's sort keys. -/
def start (plan : ReadPlan) (descending : List Bool) : Except Error Reconstruction := do
  let arena := Arena.ofTree plan.storage.tree
  let groups ← plan.groups.mapM (layoutOf arena descending)
  return ⟨plan.featureType, descending.length, groups, Multiplicities.start arena, none, 0, 0⟩

/-- The sort layouts of all groups. -/
def layouts (r : Reconstruction) : List SortLayout := r.groups.map GroupLayout.sort

/-- The end of the open feature, if there is one. -/
def closing (r : Reconstruction) : List Event := if r.current.isSome then [.featureEnd] else []

/-- The events that begin a feature, and what is known then; nothing happens if the feature with the
root sort key is open. -/
def openFeature (r : Reconstruction) (rootKey id : String) : List Event × Reconstruction :=
  if r.current = some rootKey then ([], r)
  else
    (r.closing ++ [.featureStart r.featureType id],
      { r with
        multiplicities := r.multiplicities.reset
        current := some rootKey
        features := r.features + 1 })

/-- The events of one value. -/
def valueEvents (multiplicities : List Nat) (property : String) (value : Option String) :
    List Event :=
  .propertyStart property multiplicities :: (value.map Event.text).toList ++ [.propertyEnd property]

/-- The events of a row with all its sort keys. -/
def pushKeyed (r : Reconstruction) (index : Nat) (group : GroupLayout) (row : Row)
    (keys : List String) : List Event × Reconstruction :=
  let keysEnd := r.readerKeys + group.chain.length
  let rootKey := keys.headD ""
  -- the first group is that of the root table; a feature begun by another one has only its key
  let own := if index = 0 then group.identifier? else none
  let id := (own.bind fun i => row.text? (keysEnd + i)).getD rootKey
  let (opening, opened) := r.openFeature rootKey id
  let (counts, multiplicities) := opened.multiplicities.track group.chain (keys.map some)
  let values := group.columns.zipIdx.flatMap fun (column, i) =>
    valueEvents counts column.property (row.text? (keysEnd + i))
  (opening ++ values, { opened with multiplicities := multiplicities })

/-- The events of a row. The row has to be as long as its group asks for. -/
def push (r : Reconstruction) (merged : MergedRow) : Except Error (List Event) × Reconstruction :=
  let counted := { r with rows := r.rows + 1 }
  match r.groups[merged.group]? with
  | none => (.error (.internal (.unknownGroup merged.group)), counted)
  | some group =>
    let keysEnd := r.readerKeys + group.chain.length
    if merged.row.length < keysEnd + group.columns.length then
      (.error (.missingRow group.path r.rows), counted)
    else
      let indexes := (List.range group.chain.length).map (r.readerKeys + ·)
      match indexes.mapM merged.row.text? with
      -- an outer join found no partner for the parent row
      | none => (.ok [], counted)
      | some keys =>
        let (events, next) := counted.pushKeyed merged.group group merged.row keys
        (.ok events, next)

/-- The events behind the last row. -/
def finish (r : Reconstruction) : List Event × Reconstruction :=
  (r.closing ++ [.stop], { r with current := none })

end Reconstruction

end FeatureStore
