import FeatureStore.Proofs.Table.Trie

/-!
# Derived trees

A tree is derived (`TableTree.IsDerived`) if it is the tree of some source paths that were read.
Such a tree is built from a sound trie (`IsDerived.exists_trie`), and two facts about it follow.
The edges of the tree are the links of the trie, in the same order, and the relation of an edge is
what `classify` makes of the link (`edges_of_build`), so every relation links a table to its
parent (`IsDerived.links`). The paths of the tables are the trails of the trie, so every table has
a path of its own (`IsDerived.nodup_paths`), without a slash in front
(`IsDerived.withoutSlashes_path`).
-/

set_option autoImplicit false

namespace FeatureStore

/-! ## Classification -/

/-- What a successful classification says: a table without a junction is linked by its own join,
and its kind by the keys among the columns of that join; a table behind a junction is linked by
both joins, whatever their columns are. -/
theorem classify_cases {parent : TableSegment} {step : Step} {r : Relation}
    (h : classify parent step = .ok r) :
    (r.sourceTable = parent.name ∧ r.sourcePrimaryKey = parent.primaryKey ∧
      r.targetTable = step.segment.name ∧ r.targetPrimaryKey = step.segment.primaryKey ∧
      r.targetFilter = step.segment.filter) ∧
    ∃ join, step.segment.join = some join ∧ r.targetField = join.targetField ∧
      ((step.junction = none ∧ r.junction = none ∧ r.sourceField = join.sourceField ∧
          classifyJoin parent step.segment join = .ok r.kind) ∨
        ∃ junction into, step.junction = some junction ∧ junction.join = some into ∧
          r.kind = .manyToMany ∧ r.sourceField = into.sourceField ∧ r.junction =
            some ⟨junction.name, into.targetField, join.sourceField, junction.joinKind⟩) := by
  rcases step with ⟨key, child, junction⟩
  unfold classify at h
  cases hjoin : child.join with
  | none =>
    simp only [hjoin] at h
    exact absurd h throw_ne_ok
  | some join =>
    simp only [hjoin] at h
    -- only the branch without a junction looks at the columns
    cases junction with
    | none =>
      obtain ⟨kind, hkind, hr⟩ := bind_eq_ok.1 h
      obtain rfl := pure_eq_ok.1 hr
      exact ⟨⟨rfl, rfl, rfl, rfl, rfl⟩, join, rfl, rfl, Or.inl ⟨rfl, rfl, rfl, hkind⟩⟩
    | some junction =>
      cases hinto : junction.join with
      | none =>
        simp only [hinto] at h
        exact absurd h throw_ne_ok
      | some into =>
        simp only [hinto] at h
        obtain rfl := pure_eq_ok.1 h
        exact ⟨⟨rfl, rfl, rfl, rfl, rfl⟩, join, rfl, rfl,
          Or.inr ⟨junction, into, rfl, hinto, rfl, rfl, rfl⟩⟩

/-- What the kind of a join says about its columns; a junction is not asked for them. -/
theorem classifyJoin_cases {parent child : TableSegment} {join : JoinKeys} {kind : RelationKind}
    (h : classifyJoin parent child join = .ok kind) :
    (child.isJunction = true ∧ kind = .oneToMany) ∨
    (child.isJunction = false ∧ join.sourceField = parent.primaryKey ∧
      (kind = .oneToMany ∨ kind = .oneToOneMerge)) ∨
    (child.isJunction = false ∧ join.targetField = child.primaryKey ∧
      kind = .oneToOneReference) := by
  unfold classifyJoin at h
  split at h
  · rename_i hjunction
    exact Or.inl ⟨hjunction, (Except.ok.inj h).symm⟩
  · rename_i hjunction
    have hplain : child.isJunction = false := by simpa using hjunction
    split at h
    · rename_i hsource _
      exact Or.inr (Or.inl ⟨hplain, beq_iff_eq.1 hsource, Or.inr (Except.ok.inj h).symm⟩)
    · rename_i hsource _
      exact Or.inr (Or.inl ⟨hplain, beq_iff_eq.1 hsource, Or.inl (Except.ok.inj h).symm⟩)
    · rename_i _ htarget
      exact Or.inr (Or.inr ⟨hplain, beq_iff_eq.1 htarget, (Except.ok.inj h).symm⟩)
    · simp at h

/-- A relation links a table to its parent: it names both and their primary keys, carries the row
filter of the table, and has a junction exactly if it is a many-to-many relation. -/
structure Relation.Links (r : Relation) (parent child : Table) : Prop where
  kind_ne : r.kind ≠ .none
  junction_isSome : r.junction.isSome = true ↔ r.kind = .manyToMany
  sourceTable : r.sourceTable = parent.name
  sourcePrimaryKey : r.sourcePrimaryKey = parent.primaryKey
  targetTable : r.targetTable = child.name
  targetPrimaryKey : r.targetPrimaryKey = child.primaryKey
  targetFilter : r.targetFilter = child.filter

/-! ## Links of a trie and edges of a tree -/

namespace Trie

mutual
/-- The steps of a trie, each with the table that it leads away from. -/
def links : Trie → List (TableSegment × Step)
  | .node entry children => linksOfList entry.step.segment children

/-- The links of the tries below a table, those to their tops included. -/
def linksOfList (parent : TableSegment) : List Trie → List (TableSegment × Step)
  | [] => []
  | t :: rest => (parent, t.entry.step) :: (t.links ++ linksOfList parent rest)
end

end Trie

namespace TableTree

mutual
/-- Every table below the top with its parent. -/
def edges : TableTree → List (Table × Table)
  | .node table children => edgesOfList table children

/-- The edges of the trees below a table, those to their tops included. -/
def edgesOfList (parent : Table) : List TableTree → List (Table × Table)
  | [] => []
  | tree :: rest => (parent, tree.root) :: (tree.edges ++ edgesOfList parent rest)
end

end TableTree

/-- The table has the name, the primary key and the row filter of the segment. -/
structure Table.IsOf (t : Table) (segment : TableSegment) : Prop where
  name_eq : t.name = segment.name
  primaryKey_eq : t.primaryKey = segment.primaryKey
  filter_eq : t.filter = segment.filter

/-- The edge comes from the link: its relation is what is made of the link. -/
structure EdgeOf (link : TableSegment × Step) (edge : Table × Table) : Prop where
  parent : edge.1.IsOf link.1
  child : edge.2.IsOf link.2.segment
  relation : ∃ r, classify link.1 link.2 = .ok r ∧ edge.2.relations = edge.1.relations ++ [r]

namespace EdgeOf

variable {link : TableSegment × Step} {edge : Table × Table}

/-- The relation of an edge links its two tables. -/
theorem links (h : EdgeOf link edge) :
    ∃ r, edge.2.relations = edge.1.relations ++ [r] ∧ r.Links edge.1 edge.2 := by
  obtain ⟨r, hr, hrelations⟩ := h.relation
  obtain ⟨⟨hst, hsk, htt, htk, htf⟩, join, -, -, hcases⟩ := classify_cases hr
  have hkind : r.kind ≠ .none ∧ (r.junction.isSome = true ↔ r.kind = .manyToMany) := by
    rcases hcases with ⟨-, hnone, -, hkind⟩ | ⟨junction, into, -, -, hkind, -, hsome⟩
    · rcases classifyJoin_cases hkind with ⟨-, hk⟩ | ⟨-, -, hk | hk⟩ | ⟨-, -, hk⟩ <;>
        simp [hnone, hk]
    · simp [hkind, hsome]
  refine ⟨r, hrelations, hkind.1, hkind.2, ?_, ?_, ?_, ?_, ?_⟩
  · rw [hst, h.parent.name_eq]
  · rw [hsk, h.parent.primaryKey_eq]
  · rw [htt, h.child.name_eq]
  · rw [htk, h.child.primaryKey_eq]
  · rw [htf, h.child.filter_eq]

end EdgeOf

/-- The columns that a path adds to the table it ends at. -/
def MappedPath.columns (path : MappedPath) : List Column :=
  path.source.columns.map fun name => ⟨name, path.property, path.kind⟩

/-! ## Building a tree -/

namespace Trie

/-- The top of a tree is the table at the top of the trie. -/
theorem root_of_build {t : Trie} {path : String} {relations : List Relation} {tree : TableTree}
    (h : t.build path relations = .ok tree) : tree.root = t.entry.table path relations := by
  rcases t with ⟨entry, children⟩
  rw [build] at h
  obtain ⟨trees, -, rfl⟩ := map_eq_ok.1 h
  rfl

theorem buildList_cons {path : String} {relations : List Relation} {parent : TableSegment}
    {t : Trie} {rest : List Trie} {trees : List TableTree}
    (h : buildList path relations parent (t :: rest) = .ok trees) :
    ∃ r tree others, trees = tree :: others ∧ classify parent t.entry.step = .ok r ∧
      t.build (path ++ "/" ++ t.entry.step.key) (relations ++ [r]) = .ok tree ∧
      buildList path relations parent rest = .ok others := by
  rw [buildList] at h
  obtain ⟨r, hr, h⟩ := bind_eq_ok.1 h
  obtain ⟨tree, htree, h⟩ := bind_eq_ok.1 h
  obtain ⟨others, hothers, h⟩ := bind_eq_ok.1 h
  exact ⟨r, tree, others, (pure_eq_ok.1 h).symm, mapError_eq_ok.1 hr, htree, hothers⟩

mutual
/-- The edges of a tree come from the links of its trie, in the same order. -/
theorem edges_of_build : ∀ {t : Trie} {path : String} {relations : List Relation}
    {tree : TableTree}, t.build path relations = .ok tree → List.Forall₂ EdgeOf t.links tree.edges
  | .node entry children, path, relations, tree, h => by
    rw [build] at h
    obtain ⟨trees, htrees, rfl⟩ := map_eq_ok.1 h
    have hof : (entry.table path relations).IsOf entry.step.segment := ⟨rfl, rfl, rfl⟩
    exact edges_of_buildList rfl hof htrees

theorem edges_of_buildList : ∀ {l : List Trie} {path : String} {relations : List Relation}
    {segment : TableSegment} {parent : Table} {trees : List TableTree},
    parent.relations = relations → parent.IsOf segment →
      buildList path relations segment l = .ok trees →
      List.Forall₂ EdgeOf (linksOfList segment l) (TableTree.edgesOfList parent trees)
  | [], _, _, _, _, trees, _, _, h => by
    rw [buildList] at h
    obtain rfl := Except.ok.inj h
    exact List.Forall₂.nil
  | t :: rest, path, relations, segment, parent, trees, hrelations, hof, h => by
    obtain ⟨r, tree, others, rfl, hr, htree, hothers⟩ := buildList_cons h
    -- the table below gets the relations of its parent and one more
    have hroot := root_of_build htree
    rw [linksOfList, TableTree.edgesOfList]
    refine List.Forall₂.cons ⟨hof, ?_, r, hr, ?_⟩ ?_
    · exact ⟨by rw [hroot]; rfl, by rw [hroot]; rfl, by rw [hroot]; rfl⟩
    · rw [hroot, hrelations]
      rfl
    · exact List.rel_append (edges_of_build htree) (edges_of_buildList hrelations hof hothers)
end

mutual
/-- The paths of the tables of a tree are the trails of its trie. -/
theorem paths_of_build : ∀ {t : Trie} {path : String} {relations : List Relation}
    {tree : TableTree} {above : List (List Char)}, t.IsSound → above ≠ [] →
    path.toList = joinAll '/' above → t.build path relations = .ok tree →
      tree.tables.map (fun table => table.path.toList) = (t.trails above).map (joinAll '/')
  | .node entry children, path, relations, tree, above, .node hsub _ hsteps, hne, hpath, h => by
    rw [build] at h
    obtain ⟨trees, htrees, rfl⟩ := map_eq_ok.1 h
    rw [TableTree.tables, trails, List.map_cons, List.map_cons,
      paths_of_buildList hsub (fun c hc => (hsteps c hc).1) hne hpath htrees, ← hpath]
    rfl

theorem paths_of_buildList : ∀ {l : List Trie} {path : String} {relations : List Relation}
    {segment : TableSegment} {trees : List TableTree} {above : List (List Char)},
    (∀ c ∈ l, c.IsSound) → (∀ c ∈ l, c.entry.step.IsSound) → above ≠ [] →
    path.toList = joinAll '/' above → buildList path relations segment l = .ok trees →
      (TableTree.tablesOfList trees).map (fun table => table.path.toList) =
        (trailsOfList above l).map (joinAll '/')
  | [], _, _, _, trees, _, _, _, _, _, h => by
    rw [buildList] at h
    obtain rfl := Except.ok.inj h
    rfl
  | t :: rest, path, relations, segment, trees, above, hsub, hsteps, hne, hpath, h => by
    obtain ⟨r, tree, others, rfl, -, htree, hothers⟩ := buildList_cons h
    obtain ⟨ht, hsub⟩ := List.forall_mem_cons.1 hsub
    obtain ⟨hstep, hsteps⟩ := List.forall_mem_cons.1 hsteps
    have hbelow := hstep.toList_append hne hpath
    rw [TableTree.tablesOfList, trailsOfList, List.map_append, List.map_append,
      paths_of_build ht (by simp [hne]) hbelow htree,
      paths_of_buildList hsub hsteps hne hpath hothers]
end

mutual
/-- Trails are made of segments that are not empty. -/
theorem isSegment_of_mem_trails : ∀ {t : Trie} {above trail : List (List Char)}, t.IsSound →
    (∀ part ∈ above, IsSegment part) → trail ∈ t.trails above → ∀ part ∈ trail, IsSegment part
  | .node entry children, above, trail, .node hsub _ hsteps, habove, h => by
    rw [trails] at h
    rcases List.mem_cons.1 h with rfl | h
    · exact habove
    · exact isSegment_of_mem_trailsOfList hsub (fun c hc => (hsteps c hc).1) habove h

theorem isSegment_of_mem_trailsOfList : ∀ {l : List Trie} {above trail : List (List Char)},
    (∀ c ∈ l, c.IsSound) → (∀ c ∈ l, c.entry.step.IsSound) → (∀ part ∈ above, IsSegment part) →
      trail ∈ trailsOfList above l → ∀ part ∈ trail, IsSegment part
  | [], _, _, _, _, _, h => by simp [trailsOfList] at h
  | t :: rest, above, trail, hsub, hsteps, habove, h => by
    obtain ⟨ht, hsub⟩ := List.forall_mem_cons.1 hsub
    obtain ⟨hstep, hsteps⟩ := List.forall_mem_cons.1 hsteps
    rw [trailsOfList] at h
    rcases List.mem_append.1 h with h | h
    · refine isSegment_of_mem_trails ht (fun part hpart => ?_) h
      rcases List.mem_append.1 hpart with hpart | hpart
      · exact habove part hpart
      · exact hstep.isSegment part hpart
    · exact isSegment_of_mem_trailsOfList hsub hsteps habove h
end

/-! ## Adding paths -/

/-- A sound trie whose top is a table as it was written. -/
structure IsRooted (t : Trie) : Prop where
  sound : t.IsSound
  written : t.entry.step.segment.IsWritten
  key_eq : t.key = t.entry.step.segment.raw

/-- A trie of a written root table alone. -/
theorem isRooted_leaf {root : TableSegment} (h : root.IsWritten) (origin : String) :
    (leaf ⟨root.raw, root, none⟩ origin).IsRooted :=
  ⟨isSound_leaf _ _, h, rfl⟩

/-- Writing the root as in one more path: either it stays as it is, which goes along with a path
that writes it likewise or without flags, or it had no flags and gets those of the path. -/
theorem alignRoot_cases {first : TableSegment} {t aligned : Trie}
    (h : t.alignRoot first = .ok aligned) : first.name = t.entry.step.segment.name ∧
      (aligned = t ∧ (first.raw = t.key ∨ first.hasFlags = false) ∨
        aligned = .node { t.entry with step := ⟨first.raw, first, none⟩ } t.children ∧
          t.entry.step.segment.hasFlags = false ∧ first.hasFlags = true) := by
  rcases t with ⟨entry, children⟩
  unfold alignRoot at h
  dsimp only at h
  split at h
  · simp at h
  · rename_i hname
    refine ⟨Classical.not_not.1 hname, ?_⟩
    split at h
    · rename_i hgoes
      exact Or.inl ⟨(Except.ok.inj h).symm, hgoes.imp_right (by simp)⟩
    · rename_i hgoes
      split at h
      · simp at h
      · rename_i hplain
        rw [not_or, Bool.not_eq_true', Bool.not_eq_false] at hgoes
        exact Or.inr ⟨(Except.ok.inj h).symm, Bool.not_eq_true _ ▸ hplain, hgoes.2⟩

/-- Writing the root as in a path leaves its columns and what is below it. -/
theorem alignRoot_eq_ok {first : TableSegment} {t aligned : Trie}
    (h : t.alignRoot first = .ok aligned) :
    aligned.entry.columns = t.entry.columns ∧ aligned.children = t.children ∧
      (aligned.entry.step = t.entry.step ∨ aligned.entry.step = ⟨first.raw, first, none⟩) := by
  obtain ⟨-, ⟨rfl, -⟩ | ⟨rfl, -, -⟩⟩ := alignRoot_cases h
  · exact ⟨rfl, rfl, Or.inl rfl⟩
  · exact ⟨rfl, rfl, Or.inr rfl⟩

theorem IsSound.of_children {t u : Trie} (h : t.IsSound) (hc : u.children = t.children) :
    u.IsSound := by
  rcases t with ⟨entry, children⟩
  rcases u with ⟨other, below⟩
  obtain rfl : below = children := hc
  cases h with
  | node hsub hkeys hsteps => exact .node hsub hkeys hsteps

/-- What adding a path does: the root is aligned, and the columns of the path are inserted behind
its steps. -/
theorem addPath_eq_ok {t next : Trie} {path : MappedPath} (h : t.addPath path = .ok next) :
    ∃ aligned steps, t.alignRoot path.source.root = .ok aligned ∧
      stepsOf path.source.nested = .ok steps ∧
      next = aligned.insert path.source.raw path.columns steps := by
  obtain ⟨aligned, haligned, h⟩ := bind_eq_ok.1 (mapError_eq_ok.1 h)
  obtain ⟨steps, hsteps, h⟩ := bind_eq_ok.1 h
  exact ⟨aligned, steps, haligned, hsteps, (pure_eq_ok.1 h).symm⟩

/-- A written path keeps a trie sound and its root written. -/
theorem IsRooted.addPath {t next : Trie} {path : MappedPath} (ht : t.IsRooted)
    (hp : path.source.IsWritten) (h : t.addPath path = .ok next) : next.IsRooted := by
  obtain ⟨aligned, steps, haligned, hsteps, rfl⟩ := addPath_eq_ok h
  obtain ⟨hroot, hnested⟩ := List.forall_mem_cons.1 hp
  obtain ⟨-, hchildren, hstep⟩ := alignRoot_eq_ok haligned
  have hproper := (stepsAlong_of_stepsOf hsteps).properSteps hnested
  have hsound := isSound_insert path.source.raw path.columns steps aligned hproper
    (ht.sound.of_children hchildren)
  refine ⟨hsound, ?_, ?_⟩
  · rw [step_insert]
    rcases hstep with hstep | hstep <;> rw [hstep]
    · exact ht.written
    · exact hroot
  · rw [key, step_insert]
    rcases hstep with hstep | hstep <;> rw [hstep]
    exact ht.key_eq

end Trie

/-! ## Derived trees -/

namespace TableTree

/-- The tree is that of some source paths, each of which was read from a text. -/
def IsDerived (tree : TableTree) : Prop :=
  ∃ paths : List MappedPath, (∀ p ∈ paths, ∃ text, SourcePath.read text = .ok p.source) ∧
    derive paths = .ok tree

/-- The tables of paths that were read are as they were written. -/
theorem isWritten_of_reads {paths : List MappedPath}
    (hread : ∀ p ∈ paths, ∃ text, SourcePath.read text = .ok p.source) :
    ∀ p ∈ paths, p.source.IsWritten := by
  intro p hp
  obtain ⟨text, htext⟩ := hread p hp
  exact SourcePath.isWritten_of_read htext

theorem isDerived_of_ofPaths {paths : List String} {tree : TableTree}
    (h : ofPaths paths = .ok tree) : tree.IsDerived := by
  obtain ⟨mapped, hmapped, hderive⟩ := bind_eq_ok.1 h
  refine ⟨mapped, fun p hp => ?_, hderive⟩
  obtain ⟨text, -, hread⟩ := exists_of_mapM_eq_ok hmapped hp
  obtain ⟨source, hsource, rfl⟩ := map_eq_ok.1 hread
  exact ⟨text, hsource⟩

theorem exists_read_of_mappedPath {m : FeatureMapping} {p : PropertyMapping} {path : MappedPath}
    (h : mappedPath m p = .ok path) : ∃ text, SourcePath.read text = .ok path.source := by
  obtain ⟨source, hsource, h⟩ := bind_eq_ok.1 h
  split at h
  · obtain ⟨_, hthrow, -⟩ := bind_eq_ok.1 h
    exact absurd hthrow throw_ne_ok
  · obtain rfl := pure_eq_ok.1 h
    exact ⟨_, hsource⟩

theorem isDerived_of_ofMapping {m : FeatureMapping} {tree : TableTree}
    (h : ofMapping m = .ok tree) : tree.IsDerived := by
  obtain ⟨root, hroot, h⟩ := bind_eq_ok.1 h
  obtain ⟨properties, hproperties, hderive⟩ := bind_eq_ok.1 h
  refine ⟨_, fun p hp => ?_, hderive⟩
  rcases List.mem_cons.1 hp with rfl | hp
  · exact ⟨_, hroot⟩
  · obtain ⟨property, -, hpath⟩ := exists_of_mapM_eq_ok hproperties hp
    exact exists_read_of_mappedPath hpath

/-- What deriving does: the paths are added to a trie of the first root, and the tree of that trie
is built. -/
theorem derive_eq_ok {paths : List MappedPath} {tree : TableTree} (h : derive paths = .ok tree) :
    ∃ first rest t, paths = first :: rest ∧
      paths.foldlM Trie.addPath
        (Trie.leaf ⟨first.source.root.raw, first.source.root, none⟩ first.source.raw) = .ok t ∧
      t.build t.entry.step.key [] = .ok tree := by
  match paths, h with
  | [], h => exact absurd h throw_ne_ok
  | first :: rest, h =>
    obtain ⟨t, ht, hbuild⟩ := bind_eq_ok.1 h
    exact ⟨first, rest, t, rfl, ht, hbuild⟩

namespace IsDerived

variable {tree : TableTree}

/-- A derived tree is built from a sound trie. -/
theorem exists_trie (h : tree.IsDerived) :
    ∃ t : Trie, t.IsRooted ∧ t.build t.entry.step.key [] = .ok tree := by
  obtain ⟨paths, hread, hderive⟩ := h
  obtain ⟨first, rest, t, rfl, ht, hbuild⟩ := derive_eq_ok hderive
  have hwritten := isWritten_of_reads hread
  refine ⟨t, foldlM_induction Trie.IsRooted ?_ ?_ ht, hbuild⟩
  · exact Trie.isRooted_leaf (hwritten first List.mem_cons_self _ List.mem_cons_self) _
  · intro u p next hp hu hnext
    exact hu.addPath (hwritten p hp) hnext

/-- The relation of every edge links its two tables. -/
theorem links (h : tree.IsDerived) {edge : Table × Table} (hedge : edge ∈ tree.edges) :
    ∃ r, edge.2.relations = edge.1.relations ++ [r] ∧ r.Links edge.1 edge.2 := by
  obtain ⟨t, -, hbuild⟩ := h.exists_trie
  obtain ⟨link, -, hof⟩ := exists_left_of_forall₂ (Trie.edges_of_build hbuild) hedge
  exact hof.links

theorem root_relations (h : tree.IsDerived) : tree.root.relations = [] := by
  obtain ⟨t, -, hbuild⟩ := h.exists_trie
  rw [Trie.root_of_build hbuild]
  rfl

/-- The paths of the tables are trails of segments, and no two of the trails are the same. -/
theorem exists_trails (h : tree.IsDerived) :
    ∃ trails : List (List (List Char)), trails.Nodup ∧
      (∀ trail ∈ trails, (∀ part ∈ trail, IsSegment part) ∧
        ∃ part rest, trail = part :: rest ∧ part ≠ []) ∧
      tree.tables.map (fun table => table.path.toList) = trails.map (joinAll '/') := by
  obtain ⟨t, ht, hbuild⟩ := h.exists_trie
  have hpath : t.entry.step.key.toList = joinAll '/' [t.entry.step.segment.raw.toList] := by
    rw [show t.entry.step.key = _ from ht.key_eq]
    rfl
  refine ⟨t.trails [t.entry.step.segment.raw.toList], Trie.nodup_trails _ ht.sound, ?_,
    Trie.paths_of_build ht.sound (by simp) hpath hbuild⟩
  intro trail htrail
  refine ⟨Trie.isSegment_of_mem_trails ht.sound ?_ htrail, ?_⟩
  · intro part hpart
    obtain rfl := List.mem_singleton.1 hpart
    exact ht.written.isSegment
  · obtain ⟨rest, rfl⟩ := Trie.prefix_of_mem_trails htrail
    exact ⟨_, rest, rfl, ht.written.nonempty⟩

/-- Every table has a path of its own. -/
theorem nodup_paths (h : tree.IsDerived) : (tree.tables.map Table.path).Nodup := by
  obtain ⟨trails, hnodup, hparts, hpaths⟩ := h.exists_trails
  refine List.Nodup.of_map String.toList ?_
  rw [List.map_map]
  show (tree.tables.map fun table => table.path.toList).Nodup
  rw [hpaths]
  -- trails of segments are told by the paths that they make
  refine hnodup.map_on fun a ha b hb hab => ?_
  obtain ⟨hsa, part, rest, rfl, -⟩ := hparts a ha
  obtain ⟨hsb, part', rest', rfl, -⟩ := hparts b hb
  exact joinAll_injective (by simp) (by simp) hsa hsb hab

/-- No path begins with a slash. -/
theorem withoutSlashes_path (h : tree.IsDerived) {t : Table} (ht : t ∈ tree.tables) :
    withoutSlashes t.path = t.path := by
  obtain ⟨trails, -, hparts, hpaths⟩ := h.exists_trails
  have hmem : t.path.toList ∈ trails.map (joinAll '/') := by
    rw [← hpaths]
    exact List.mem_map_of_mem (f := fun table : Table => table.path.toList) ht
  obtain ⟨trail, htrail, hjoin⟩ := List.mem_map.1 hmem
  obtain ⟨hsegments, part, rest, rfl, hne⟩ := hparts trail htrail
  rw [withoutSlashes, ← hjoin, dropSlashes_joinAll rest (hsegments part List.mem_cons_self) hne,
    hjoin, String.ofList_toList]

end IsDerived

end TableTree

end FeatureStore
