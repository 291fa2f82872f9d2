import FeatureStore.Path.Reading
import FeatureStore.Table.Mapping
import FeatureStore.Table.Tree

/-!
# Deriving a tree of tables

Source paths are merged step by step into a trie below the root table
(`Trie.insert`); the trie then becomes a tree of tables with their relations
(`Trie.build`). A step is one table, or a junction together with the table
behind it. A join says how a table relates to its parent by the primary keys
among its two columns (`classify`).
-/

namespace FeatureStore

/-- A source path with the property it belongs to and the kind of its columns. -/
structure MappedPath where
  property : String
  source : SourcePath
  kind : ColumnKind
  deriving Inhabited

/-- A path whose property is named after the path itself. -/
def MappedPath.read (path : String) : Except Error MappedPath :=
  (SourcePath.read path).map fun source => ⟨source.raw, source, .value⟩

/-! ## Steps -/

/-- One step down from a table: its key among the children, the table it leads to, and the
junction on the way. -/
structure Step where
  key : String
  segment : TableSegment
  junction : Option TableSegment
  deriving Inhabited

/-- The steps along the tables below the root. A junction is joined with the table behind it; a
junction at the end is a table by itself. -/
def stepsOf : List TableSegment → Except MappingFault (List Step)
  | [] => .ok []
  | [segment] =>
    if segment.join.isNone then .error (.tableWithoutJoin segment.name)
    else .ok [⟨segment.raw, segment, none⟩]
  | segment :: target :: others =>
    if segment.join.isNone then .error (.tableWithoutJoin segment.name)
    else if !segment.isJunction then
      (stepsOf (target :: others)).map (⟨segment.raw, segment, none⟩ :: ·)
    else if target.join.isNone then .error (.tableWithoutJoin target.name)
    else if segment.filter.isSome then .error (.junctionWithFilter segment.name)
    else (stepsOf others).map (⟨segment.raw ++ "/" ++ target.raw, target, some segment⟩ :: ·)

/-! ## The trie of steps -/

/-- What a trie holds at one place: the step that leads there, the columns of the paths that end
there, and the first path that passed. -/
structure TrieEntry where
  step : Step
  columns : List Column
  origin : String
  deriving Inhabited

/-- The steps of several paths merged. -/
inductive Trie where
  | node (entry : TrieEntry) (children : List Trie)
  deriving Inhabited

namespace Trie

/-- What the trie holds at its top. -/
def entry : Trie → TrieEntry
  | .node entry _ => entry

/-- The tries below the top. -/
def children : Trie → List Trie
  | .node _ children => children

/-- A trie of one place without columns. -/
def leaf (step : Step) (origin : String) : Trie := .node ⟨step, [], origin⟩ []

/-- A column after the others, unless it is one of them. -/
def addColumn (columns : List Column) (column : Column) : List Column :=
  if column ∈ columns then columns else columns ++ [column]

/-- The first trie with a key changed; without any, a new one is changed and put at the end. -/
def updateAt (key : String) (new : Trie) (change : Trie → Trie) : List Trie → List Trie
  | [] => [change new]
  | t :: rest =>
    if t.entry.step.key = key then change t :: rest else t :: updateAt key new change rest

/-- The trie with the columns of a path added behind some steps. -/
def insert (origin : String) (columns : List Column) : List Step → Trie → Trie
  | [], .node entry children =>
    .node { entry with columns := columns.foldl addColumn entry.columns } children
  | step :: rest, .node entry children =>
    .node entry (updateAt step.key (leaf step origin) (insert origin columns rest) children)

/-- The trie with the root written as in a path. The path must begin at the same table; flags
replace a root without flags, and two different roots with flags are refused. -/
def alignRoot (first : TableSegment) : Trie → Except MappingFault Trie
  | .node entry children =>
    let root := entry.step.segment
    if first.name ≠ root.name then .error (.foreignRoot root.name)
    -- a path without flags goes along with any root of that name
    else if first.raw = entry.step.key ∨ !first.hasFlags then .ok (.node entry children)
    else if root.hasFlags then .error (.conflictingRootFlags first.name)
    else .ok (.node { entry with step := ⟨first.raw, first, none⟩ } children)

/-- The trie with a path added. -/
def addPath (t : Trie) (path : MappedPath) : Except Error Trie :=
  let added : Except MappingFault Trie := do
    let aligned ← t.alignRoot path.source.root
    let steps ← stepsOf path.source.nested
    let columns := path.source.columns.map fun name => ⟨name, path.property, path.kind⟩
    return aligned.insert path.source.raw columns steps
  added.mapError (Error.mapping path.source.raw)

end Trie

/-! ## Relations -/

/-- The kind of relation that a join between two tables makes. -/
def classifyJoin (parent child : TableSegment) (join : JoinKeys) :
    Except MappingFault RelationKind :=
  -- a junction that is a table by itself is not asked for keys
  if child.isJunction then .ok .oneToMany
  else match join.sourceField == parent.primaryKey, join.targetField == child.primaryKey with
    | true, true => .ok .oneToOneMerge
    | true, false => .ok .oneToMany
    | false, true => .ok .oneToOneReference
    | false, false =>
      .error (.joinWithoutKey join.sourceField join.targetField parent.name child.name)

/-- The relation between a table and the table that a step leads to. -/
def classify (parent : TableSegment) (step : Step) : Except MappingFault Relation := do
  let child := step.segment
  match child.join with
  | none => throw (.tableWithoutJoin child.name)
  | some join =>
    match step.junction with
    | none =>
      return {
        kind := ← classifyJoin parent child join
        sourceTable := parent.name
        sourceField := join.sourceField
        sourcePrimaryKey := parent.primaryKey
        targetTable := child.name
        targetField := join.targetField
        targetPrimaryKey := child.primaryKey
        junction := none
        joinKind := child.joinKind
        targetFilter := child.filter }
    | some junction =>
      match junction.join with
      | none => throw (.junctionWithoutJoin junction.name)
      | some into =>
        return {
          kind := .manyToMany
          sourceTable := parent.name
          sourceField := into.sourceField
          sourcePrimaryKey := parent.primaryKey
          targetTable := child.name
          targetField := join.targetField
          targetPrimaryKey := child.primaryKey
          junction := some ⟨junction.name, into.targetField, join.sourceField, junction.joinKind⟩
          joinKind := child.joinKind
          targetFilter := child.filter }

/-! ## The tree -/

/-- The table at a place of the trie. -/
def TrieEntry.table (entry : TrieEntry) (path : String) (relations : List Relation) : Table :=
  let segment := entry.step.segment
  { name := segment.name
    path := path
    relations := relations
    columns := entry.columns
    sortKey := segment.sortKey
    sortKeyUnique := segment.sortKeyUnique
    primaryKey := segment.primaryKey
    filter := segment.filter }

namespace Trie

mutual
/-- The tree of a trie whose top has a path and relations. -/
def build (path : String) (relations : List Relation) : Trie → Except Error TableTree
  | .node entry children =>
    (buildList path relations entry.step.segment children).map
      (.node (entry.table path relations))

/-- The trees of the tries below a table. -/
def buildList (path : String) (relations : List Relation) (parent : TableSegment) :
    List Trie → Except Error (List TableTree)
  | [] => .ok []
  | t :: rest => do
    let relation ← (classify parent t.entry.step).mapError (Error.mapping t.entry.origin)
    let tree ← t.build (path ++ "/" ++ t.entry.step.key) (relations ++ [relation])
    let trees ← buildList path relations parent rest
    return tree :: trees
end

end Trie

namespace TableTree

/-- The tree of a list of paths; the first path fixes the root table. -/
def derive (paths : List MappedPath) : Except Error TableTree := do
  match paths with
  | [] => throw (.mapping "" .noPaths)
  | first :: _ =>
    let root := first.source.root
    let trie ← paths.foldlM Trie.addPath (Trie.leaf ⟨root.raw, root, none⟩ first.source.raw)
    trie.build trie.entry.step.key []

/-- The tree of a list of written paths, whose properties are named after the paths. -/
def ofPaths (paths : List String) : Except Error TableTree := do
  derive (← paths.mapM MappedPath.read)

/-- The kind of the columns of a property. -/
def columnKind (p : PropertyMapping) : ColumnKind :=
  match p.constant, p.role with
  | some text, _ => .constant text
  | none, .id => .identifier
  | none, .geometry => .spatial
  | none, .datetime => .temporal
  | none, .date => .date
  | none, .value => .value
  | none, .object => .value

/-- The path of a property; an object must be mapped to a table. -/
def mappedPath (m : FeatureMapping) (p : PropertyMapping) : Except Error MappedPath := do
  let resolved := m.resolve p
  let source ← SourcePath.read resolved
  if p.role = .object ∧ !source.isObject then
    throw (.mapping resolved (.objectWithColumns p.name))
  return ⟨p.name, source, columnKind p⟩

/-- The tree of a feature type. -/
def ofMapping (m : FeatureMapping) : Except Error TableTree := do
  let root ← SourcePath.read m.sourcePath
  let properties ← m.properties.mapM (mappedPath m)
  derive (⟨"", root, .value⟩ :: properties)

end TableTree

end FeatureStore
