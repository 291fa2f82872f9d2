import FeatureStore.Proofs.Table.Numbering

/-!
# Well-formed trees

The tree of any list of mapped paths is well formed (`TableTree.wellFormed_of_derive`): only its root
has no relation, and every other table has the relations of its parent and one more, which describes
the two tables as they stand in the tree (`Relation.Describes`). The root segment may be replaced
while paths are added, but relations are made from the finished trie, so they name the final keys
(`EdgeOf.describes`). Only where a junction is involved is the kind of a relation not told by the
primary keys among its columns.
-/

set_option autoImplicit false

namespace FeatureStore

/-! ## Kinds of relations -/

/-- A part occurs in a list of characters exactly if it is an infix of it. -/
theorem TableSegment.occursIn_iff {part : List Char} : ∀ {cs : List Char},
    occursIn part cs = true ↔ part <:+: cs
  | [] => by rw [occursIn, List.isEmpty_iff, List.infix_nil]
  | c :: rest => by
    rw [occursIn, Bool.or_eq_true, List.isPrefixOf_iff_prefix, occursIn_iff, List.infix_cons_iff]

/-- The kind of a relation is told by the primary keys among its two columns, of which there is at
least one. -/
structure Relation.FollowsKeys (r : Relation) (parent child : Table) : Prop where
  merge_iff : r.kind = .oneToOneMerge ↔
    r.sourceField = parent.primaryKey ∧ r.targetField = child.primaryKey
  many_iff : r.kind = .oneToMany ↔
    r.sourceField = parent.primaryKey ∧ r.targetField ≠ child.primaryKey
  reference_iff : r.kind = .oneToOneReference ↔
    r.sourceField ≠ parent.primaryKey ∧ r.targetField = child.primaryKey
  key : r.sourceField = parent.primaryKey ∨ r.targetField = child.primaryKey

/-- The relation is that of a table to its parent: it links the two, and its kind follows the keys
wherever no junction is involved. -/
structure Relation.Describes (r : Relation) (parent child : Table) : Prop
    extends r.Links parent child where
  followsKeys : r.junction = none → ¬ junctionMarker.toList <:+: child.name.toList →
    r.FollowsKeys parent child

/-- The kind of a join to a table that is no junction, by its two columns. -/
theorem classifyJoin_followsKeys {parent child : TableSegment} {join : JoinKeys}
    {kind : RelationKind} (hplain : child.isJunction = false)
    (h : classifyJoin parent child join = .ok kind) :
    (kind = .oneToOneMerge ↔
        join.sourceField = parent.primaryKey ∧ join.targetField = child.primaryKey) ∧
      (kind = .oneToMany ↔
        join.sourceField = parent.primaryKey ∧ join.targetField ≠ child.primaryKey) ∧
      (kind = .oneToOneReference ↔
        join.sourceField ≠ parent.primaryKey ∧ join.targetField = child.primaryKey) ∧
      (join.sourceField = parent.primaryKey ∨ join.targetField = child.primaryKey) := by
  rw [classifyJoin, if_neg (by simp [hplain])] at h
  -- each of the four cases fixes both comparisons
  split at h <;> rename_i hsource htarget
  · obtain rfl := Except.ok.inj h
    simp [beq_iff_eq.1 hsource, beq_iff_eq.1 htarget]
  · obtain rfl := Except.ok.inj h
    simp [beq_iff_eq.1 hsource, beq_eq_false_iff_ne.1 htarget]
  · obtain rfl := Except.ok.inj h
    simp [beq_eq_false_iff_ne.1 hsource, beq_iff_eq.1 htarget]
  · simp at h

/-- The relation of an edge describes its two tables. -/
theorem EdgeOf.describes {link : TableSegment × Step} {edge : Table × Table}
    (h : EdgeOf link edge) :
    ∃ r, edge.2.relations = edge.1.relations ++ [r] ∧ r.Describes edge.1 edge.2 := by
  obtain ⟨r, hrelations, hlinks⟩ := h.links
  refine ⟨r, hrelations, hlinks, fun hnone hname => ?_⟩
  -- the relation is the one that was made of the link
  obtain ⟨r', hr, hrelations'⟩ := h.relation
  obtain rfl : r = r' := by
    rw [hrelations', List.append_cancel_left_eq] at hrelations
    exact (List.singleton_inj.1 hrelations).symm
  have hplain : link.2.segment.isJunction = false := by
    rw [Bool.eq_false_iff]
    intro hjunction
    rw [h.child.name_eq] at hname
    exact hname (TableSegment.occursIn_iff.1 hjunction)
  obtain ⟨-, join, -, htarget, hcases⟩ := classify_cases hr
  rcases hcases with ⟨-, -, hsource, hkind⟩ | ⟨_, _, -, -, -, -, hsome⟩
  · obtain ⟨hmerge, hmany, hreference, hkey⟩ := classifyJoin_followsKeys hplain hkind
    rw [← hsource, ← htarget, ← h.parent.primaryKey_eq, ← h.child.primaryKey_eq]
      at hmerge hmany hreference hkey
    exact ⟨hmerge, hmany, hreference, hkey⟩
  · rw [hnone] at hsome
    simp at hsome

/-! ## Tables and edges -/

namespace TableTree

theorem tables_eq_cons (t : TableTree) : t.tables = t.root :: tablesOfList t.children := by
  rcases t with ⟨table, children⟩
  rfl

mutual
/-- Every table but the top is the lower end of one edge. -/
theorem map_snd_edges : ∀ t : TableTree, t.edges.map Prod.snd = tablesOfList t.children
  | .node table children => map_snd_edgesOfList table children

theorem map_snd_edgesOfList : ∀ (parent : Table) (l : List TableTree),
    (edgesOfList parent l).map Prod.snd = tablesOfList l
  | _, [] => rfl
  | parent, tree :: rest => by
    rw [edgesOfList, List.map_cons, List.map_append, map_snd_edges, map_snd_edgesOfList,
      tablesOfList, tables_eq_cons, List.cons_append]
end

mutual
/-- If every table has one relation more than its parent, tables are as deep as they have
relations. -/
theorem depths_number : ∀ {t : TableTree} {parent : Option Nat} {depth id : Nat},
    (∀ edge ∈ t.edges, ∃ r, edge.2.relations = edge.1.relations ++ [r]) →
    t.root.relations.length = depth →
      (t.number parent depth id).map ArenaNode.depth = t.tables.map fun u => u.relations.length
  | .node table children, parent, depth, id, hedges, hdepth => by
    rw [number, tables, List.map_cons, List.map_cons, depths_numberList hedges hdepth]
    rw [← hdepth]
    rfl

theorem depths_numberList : ∀ {l : List TableTree} {above : Table} {parent depth id : Nat},
    (∀ edge ∈ edgesOfList above l, ∃ r, edge.2.relations = edge.1.relations ++ [r]) →
    above.relations.length = depth →
      (numberList parent (depth + 1) id l).map ArenaNode.depth =
        (tablesOfList l).map fun u => u.relations.length
  | [], _, _, _, _, _, _ => rfl
  | tree :: rest, above, parent, depth, id, hedges, hdepth => by
    rw [edgesOfList] at hedges
    obtain ⟨⟨r, hr⟩, hedges⟩ := List.forall_mem_cons.1 hedges
    rw [numberList, tablesOfList, List.map_append, List.map_append]
    congr 1
    · refine depths_number (fun edge hedge => hedges edge (List.mem_append_left _ hedge)) ?_
      rw [hr, List.length_append, hdepth]
      rfl
    · exact depths_numberList (fun edge hedge => hedges edge (List.mem_append_right _ hedge)) hdepth
end

/-! ## Derived trees -/

/-- The relation of every edge describes its two tables. -/
theorem describes_of_derive {paths : List MappedPath} {tree : TableTree}
    (h : derive paths = .ok tree) {edge : Table × Table} (hedge : edge ∈ tree.edges) :
    ∃ r, edge.2.relations = edge.1.relations ++ [r] ∧ r.Describes edge.1 edge.2 := by
  obtain ⟨first, rest, t, -, -, hbuild⟩ := derive_eq_ok h
  obtain ⟨link, -, hof⟩ := exists_left_of_forall₂ (Trie.edges_of_build hbuild) hedge
  exact hof.describes

/-- The last relation of a table is the one to its parent. -/
theorem kind_of_relations {t : Table} {above : List Relation} {r : Relation}
    (h : t.relations = above ++ [r]) : t.kind = r.kind := by
  rw [Table.kind, Table.relation?, h, List.getLast?_concat]
  rfl

/-- Derived trees are well formed: exactly the root has no relation to a parent; every other table
has the relations of its parent and one that describes the two; and so a table has as many relations
as it is deep. -/
theorem wellFormed_of_derive {paths : List MappedPath} {tree : TableTree}
    (h : derive paths = .ok tree) :
    tree.isWellFormed = true ∧ tree.tables = tree.root :: tree.tables.tail ∧
      tree.root.kind = .none ∧ (∀ t ∈ tree.tables.tail, t.kind ≠ .none) ∧
      tree.edges.map Prod.snd = tree.tables.tail ∧
      (∀ edge ∈ tree.edges,
        ∃ e, edge.2.relations = edge.1.relations ++ [e] ∧ e.Describes edge.1 edge.2) ∧
      (Arena.ofTree tree).nodes.map ArenaNode.depth =
        tree.tables.map fun t => t.relations.length := by
  have hdescribes : ∀ edge ∈ tree.edges,
      ∃ r, edge.2.relations = edge.1.relations ++ [r] ∧ r.Describes edge.1 edge.2 :=
    fun edge hedge => describes_of_derive h hedge
  have htables := tree.tables_eq_cons
  have htail : tree.tables.tail = tablesOfList tree.children := by rw [htables, List.tail_cons]
  have hroot : tree.root.relations = [] := by
    obtain ⟨first, rest, t, -, -, hbuild⟩ := derive_eq_ok h
    rw [Trie.root_of_build hbuild]
    rfl
  have hkind : tree.root.kind = .none := by
    rw [Table.kind, Table.relation?, hroot]
    rfl
  -- a table below the root is the lower end of an edge
  have hbelow : ∀ t ∈ tree.tables.tail, t.kind ≠ .none ∧ t.isRoot = false := by
    intro t ht
    rw [htail, ← map_snd_edges] at ht
    obtain ⟨edge, hedge, rfl⟩ := List.mem_map.1 ht
    obtain ⟨r, hr, hdesc⟩ := hdescribes edge hedge
    constructor
    · rw [kind_of_relations hr]
      exact hdesc.kind_ne
    · rw [Table.isRoot, hr]
      simp
  refine ⟨?_, by rw [htail, htables], hkind, fun t ht => (hbelow t ht).1,
    by rw [htail, map_snd_edges], hdescribes, ?_⟩
  · have hfilter : tree.tables.tail.filter (fun t => t.kind == .none) = [] := by
      refine List.filter_eq_nil_iff.2 fun t ht => ?_
      simpa using (hbelow t ht).1
    rw [isWellFormed, List.drop_one, htables, ← htail, List.filter_cons, hfilter]
    simp only [hkind, beq_self_eq_true, if_true, List.length_singleton, Bool.true_and,
      List.tail_cons, Bool.and_eq_true, List.all_eq_true]
    exact ⟨by rw [Table.isRoot, hroot]; rfl, fun t ht => by rw [(hbelow t ht).2]; rfl⟩
  · refine depths_number (fun edge hedge => ?_) (by rw [hroot]; rfl)
    obtain ⟨r, hr, -⟩ := hdescribes edge hedge
    exact ⟨r, hr⟩

/-- A later path gives the root its keys, by which the relations of an earlier one are told; a
junction is the last table of one path and stands between two tables of another. -/
theorem wellFormed_of_derive_keys :
    let texts := ["parcel/[code=parcel_code]address/street", "parcel{primaryKey=code}/name",
      "parcel/[owner_id=id]person/[id=id]contact/mail", "parcel/[code=parcel_id]parcel_2_note/text",
      "parcel/[code=parcel_id]parcel_2_tag/[tag_id=id]tag/label"]
    ∃ paths tree, texts.mapM MappedPath.read = .ok paths ∧ derive paths = .ok tree ∧
      tree.tables.map Table.kind =
        [.none, .oneToMany, .oneToOneReference, .oneToOneMerge, .oneToMany, .manyToMany] ∧
      tree.isWellFormed = true ∧
      ∀ edge ∈ tree.edges,
        ∃ e, edge.2.relations = edge.1.relations ++ [e] ∧ e.Describes edge.1 edge.2 := by
  intro texts
  have hkinds : (do
      let paths ← texts.mapM MappedPath.read
      let tree ← derive paths
      return tree.tables.map Table.kind : Except Error (List RelationKind)).toOption =
      some [.none, .oneToMany, .oneToOneReference, .oneToOneMerge, .oneToMany, .manyToMany] := by
    decide +kernel
  obtain ⟨paths, hpaths, hok⟩ := bind_eq_ok.1 (toOption_eq_some.1 hkinds)
  obtain ⟨tree, htree, hok⟩ := bind_eq_ok.1 hok
  obtain ⟨hwellFormed, -, -, -, -, hdescribes, -⟩ := wellFormed_of_derive htree
  exact ⟨paths, tree, hpaths, htree, pure_eq_ok.1 hok, hwellFormed, hdescribes⟩

end TableTree

end FeatureStore
