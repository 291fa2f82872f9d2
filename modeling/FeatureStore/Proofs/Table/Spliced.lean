import FeatureStore.Proofs.Table.Names

/-!
# Names that statements take from a tree

Statements are written with the names of a tree as they are: those of its tables, columns, keys,
relations and junctions, and the properties in its row filters (`TableTree.names`). Reading a path
checks all of them but two kinds, the keys that flags give to a table and the properties in its row
filter (`Table.givenNames`). A table has these from the segment that it was read from, so none of
them was written but in some path (`TableTree.exists_segment_of_derive`), and nothing but them keeps
the names of a tree from being identifiers (`TableTree.isName_names_iff`).
-/

set_option autoImplicit false

namespace FeatureStore

/-! ## Names -/

/-- The properties in a condition on the rows of a table. -/
def rowNames (filter : Option Filter) : List String := (filter.map Filter.properties).getD []

/-- The names that joins along a relation are written with. -/
def Relation.names (r : Relation) : List String :=
  [r.sourceTable, r.sourceField, r.sourcePrimaryKey, r.targetTable, r.targetField,
      r.targetPrimaryKey] ++
    (r.junction.toList.flatMap fun j => [j.table, j.sourceField, j.targetField]) ++
    rowNames r.targetFilter

namespace Table

/-- The names of a table that are not checked when it is read. -/
def givenNames (t : Table) : List String := t.sortKey :: t.primaryKey :: rowNames t.filter

/-- All names of a table. -/
def names (t : Table) : List String :=
  t.name :: (t.columns.map Column.name ++ t.relations.flatMap Relation.names ++ t.givenNames)

end Table

namespace TableTree

/-- All names of a tree. -/
def names (tree : TableTree) : List String := tree.tables.flatMap Table.names

/-- The names of a tree that are not checked when its paths are read. -/
def givenNames (tree : TableTree) : List String := tree.tables.flatMap Table.givenNames

end TableTree

/-- The names in the flags of a segment. -/
def TableSegment.givenNames (s : TableSegment) : List String :=
  s.ownSortKey.toList ++ s.ownPrimaryKey.toList ++ rowNames s.filter

/-! ## Segments of a trie -/

namespace Trie

mutual
/-- The segments that the places of a trie were read from. -/
def segments : Trie → List TableSegment
  | .node entry children => entry.step.segment :: segmentsOfList children

/-- The segments of some tries. -/
def segmentsOfList : List Trie → List TableSegment
  | [] => []
  | t :: rest => t.segments ++ segmentsOfList rest
end

theorem mem_segmentsOfList {s : TableSegment} {l : List Trie} :
    s ∈ segmentsOfList l ↔ ∃ t ∈ l, s ∈ t.segments := by
  induction l with
  | nil => simp [segmentsOfList]
  | cons t rest ih =>
    rw [segmentsOfList, List.mem_append, ih]
    simp

/-- Steps that are inserted add the segments that they lead to. -/
theorem mem_segments_insert {origin : String} {columns : List Column} {s : TableSegment} :
    ∀ {steps : List Step} {t : Trie}, s ∈ (t.insert origin columns steps).segments →
      s ∈ t.segments ∨ ∃ step ∈ steps, s = step.segment
  | [], .node entry children, h => .inl h
  | step :: rest, .node entry children, h => by
    rcases List.mem_cons.1 h with rfl | h
    · exact .inl List.mem_cons_self
    · obtain ⟨c, hc, hs⟩ := mem_segmentsOfList.1 h
      rcases mem_updateAt hc with hc | ⟨t, ht, rfl⟩
      · exact .inl (List.mem_cons_of_mem _ (mem_segmentsOfList.2 ⟨c, hc, hs⟩))
      · -- the other steps go on below the trie that the first one leads to
        rcases mem_segments_insert hs with hs | ⟨other, hother, rfl⟩
        · rcases ht with ⟨ht, -⟩ | rfl
          · exact .inl (List.mem_cons_of_mem _ (mem_segmentsOfList.2 ⟨t, ht, hs⟩))
          · obtain rfl : s = step.segment := by simpa [leaf, segments, segmentsOfList] using hs
            exact .inr ⟨step, List.mem_cons_self, rfl⟩
        · exact .inr ⟨other, List.mem_cons_of_mem _ hother, rfl⟩

/-- A path that is added brings the segments of its tables. -/
theorem mem_segments_addPath {t next : Trie} {path : MappedPath} {s : TableSegment}
    (h : t.addPath path = .ok next) (hs : s ∈ next.segments) :
    s ∈ t.segments ∨ s ∈ path.source.tables := by
  obtain ⟨aligned, steps, haligned, hsteps, rfl⟩ := addPath_eq_ok h
  obtain ⟨-, hchildren, hstep⟩ := alignRoot_eq_ok haligned
  rcases t with ⟨entry, children⟩
  rcases aligned with ⟨other, below⟩
  obtain rfl : below = children := hchildren
  rcases mem_segments_insert hs with hs | ⟨step, hmem, rfl⟩
  · rcases List.mem_cons.1 hs with rfl | hs
    · rcases hstep with hstep | hstep
      · exact .inl (List.mem_cons.2 (.inl (congrArg Step.segment hstep)))
      · exact .inr (List.mem_cons.2 (.inl (congrArg Step.segment hstep)))
    · exact .inl (List.mem_cons_of_mem _ hs)
  · refine .inr (List.mem_cons_of_mem _ ?_)
    rw [← (stepsAlong_of_stepsOf hsteps).flatMap_segments]
    exact List.mem_flatMap.2 ⟨step, hmem, by simp [Step.segments]⟩

end Trie

/-- The table has the name, the keys and the row filter of the segment. -/
structure Table.Shows (t : Table) (s : TableSegment) : Prop extends t.IsOf s where
  sortKey_eq : t.sortKey = s.sortKey

namespace Trie

mutual
/-- The tables of a tree are those of its trie, in the same order. -/
theorem tables_of_build : ∀ {t : Trie} {path : String} {relations : List Relation}
    {tree : TableTree}, t.build path relations = .ok tree →
      List.Forall₂ (fun s table => Table.Shows table s) t.segments tree.tables
  | .node entry children, path, relations, tree, h => by
    rw [build] at h
    obtain ⟨trees, htrees, rfl⟩ := map_eq_ok.1 h
    exact .cons ⟨⟨rfl, rfl, rfl⟩, rfl⟩ (tables_of_buildList htrees)

theorem tables_of_buildList : ∀ {l : List Trie} {path : String} {relations : List Relation}
    {parent : TableSegment} {trees : List TableTree},
    buildList path relations parent l = .ok trees →
      List.Forall₂ (fun s table => Table.Shows table s) (segmentsOfList l)
        (TableTree.tablesOfList trees)
  | [], _, _, _, trees, h => by
    rw [buildList] at h
    obtain rfl := Except.ok.inj h
    exact .nil
  | t :: rest, path, relations, parent, trees, h => by
    obtain ⟨r, tree, others, rfl, -, htree, hothers⟩ := buildList_cons h
    exact List.rel_append (tables_of_build htree) (tables_of_buildList hothers)
end

end Trie

/-- A table is given nothing but what the flags of its segment say. -/
theorem Table.Shows.mem_givenNames {t : Table} {s : TableSegment} (h : t.Shows s) {name : String}
    (hname : name ∈ t.givenNames) : name = defaultKey ∨ name ∈ s.givenNames := by
  have hkey : ∀ own : Option String, own.getD defaultKey = defaultKey ∨
      own.getD defaultKey ∈ own.toList := fun own => by cases own <;> simp
  rw [Table.givenNames, h.sortKey_eq, h.primaryKey_eq, h.filter_eq] at hname
  rw [TableSegment.givenNames, List.mem_append, List.mem_append]
  rcases List.mem_cons.1 hname with rfl | hname
  · exact (hkey s.ownSortKey).imp_right fun hown => .inl (.inl hown)
  · rcases List.mem_cons.1 hname with rfl | hname
    · exact (hkey s.ownPrimaryKey).imp_right fun hown => .inl (.inr hown)
    · exact .inr (.inr hname)

/-! ## Derived trees -/

namespace TableTree

/-- Every table of a tree shows a segment of one of its paths. -/
theorem exists_segment_of_derive {paths : List MappedPath} {tree : TableTree}
    (h : derive paths = .ok tree) {t : Table} (ht : t ∈ tree.tables) :
    ∃ path ∈ paths, ∃ s ∈ path.source.tables, t.Shows s := by
  obtain ⟨first, rest, trie, rfl, htrie, hbuild⟩ := derive_eq_ok h
  have hsegments : ∀ s ∈ trie.segments, ∃ path ∈ first :: rest, s ∈ path.source.tables := by
    refine foldlM_induction (fun u : Trie => ∀ s ∈ u.segments, ∃ path ∈ first :: rest,
      s ∈ path.source.tables) ?_ ?_ htrie
    · intro s hs
      obtain rfl : s = first.source.root := by
        simpa [Trie.leaf, Trie.segments, Trie.segmentsOfList] using hs
      exact ⟨first, List.mem_cons_self, List.mem_cons_self⟩
    · intro u path next hpath hu hnext s hs
      rcases Trie.mem_segments_addPath hnext hs with hs | hs
      · exact hu s hs
      · exact ⟨path, hpath, hs⟩
  obtain ⟨s, hs, hshows⟩ := exists_left_of_forall₂ (Trie.tables_of_build hbuild) ht
  obtain ⟨path, hpath, hs⟩ := hsegments s hs
  exact ⟨path, hpath, s, hs, hshows⟩

mutual
/-- Both ends of an edge are tables of the tree. -/
theorem mem_tables_of_mem_edges : ∀ {t : TableTree} {edge : Table × Table}, edge ∈ t.edges →
    edge.1 ∈ t.tables ∧ edge.2 ∈ t.tables
  | .node table children, edge, h => by
    obtain ⟨hparent, hchild⟩ := mem_tablesOfList_of_mem_edgesOfList h
    exact ⟨List.mem_cons.2 hparent, List.mem_cons_of_mem _ hchild⟩

theorem mem_tablesOfList_of_mem_edgesOfList : ∀ {l : List TableTree} {parent : Table}
    {edge : Table × Table}, edge ∈ edgesOfList parent l →
      (edge.1 = parent ∨ edge.1 ∈ tablesOfList l) ∧ edge.2 ∈ tablesOfList l
  | tree :: rest, parent, edge, h => by
    rw [edgesOfList] at h
    rw [tablesOfList, List.mem_append, List.mem_append]
    rcases List.mem_cons.1 h with rfl | h
    · refine ⟨.inl rfl, .inl ?_⟩
      rw [tables_eq_cons]
      exact List.mem_cons_self
    · rcases List.mem_append.1 h with h | h
      · obtain ⟨hparent, hchild⟩ := mem_tables_of_mem_edges h
        exact ⟨.inr (.inl hparent), .inl hchild⟩
      · obtain ⟨hparent, hchild⟩ := mem_tablesOfList_of_mem_edgesOfList h
        exact ⟨hparent.imp_right .inr, .inr hchild⟩
end

/-- The names of a relation are checked, but for the keys of the tables that it links and the
properties in the row filter of the lower one. -/
theorem isName_of_mem_relation {r : Relation} {parent child : Table} (hnames : r.HasNames)
    (hlinks : r.Links parent child) (hparent : IsName parent.name) {name : String}
    (h : name ∈ r.names) : IsName name ∨ name ∈ parent.givenNames ∨ name ∈ child.givenNames := by
  rw [Relation.names, List.mem_append, List.mem_append] at h
  rcases h with (h | h) | h
  · simp only [List.mem_cons, List.not_mem_nil, or_false] at h
    rcases h with rfl | rfl | rfl | rfl | rfl | rfl
    · exact .inl (hlinks.sourceTable ▸ hparent)
    · exact .inl hnames.sourceField
    · exact .inr (.inl (by simp [hlinks.sourcePrimaryKey, Table.givenNames]))
    · exact .inl hnames.targetTable
    · exact .inl hnames.targetField
    · exact .inr (.inr (by simp [hlinks.targetPrimaryKey, Table.givenNames]))
  · obtain ⟨j, hj, h⟩ := List.mem_flatMap.1 h
    obtain ⟨htable, hsource, htarget⟩ := hnames.junction j (Option.mem_toList.1 hj)
    simp only [List.mem_cons, List.not_mem_nil, or_false] at h
    rcases h with rfl | rfl | rfl
    · exact .inl htable
    · exact .inl hsource
    · exact .inl htarget
  · rw [hlinks.targetFilter] at h
    exact .inr (.inr (by simp [Table.givenNames, h]))

/-- Every name of a derived tree is an identifier or given by a flag. -/
theorem IsDerived.isName_or_given {tree : TableTree} (htree : tree.IsDerived) {name : String}
    (h : name ∈ tree.names) : IsName name ∨ name ∈ tree.givenNames := by
  have hgiven : ∀ t ∈ tree.tables, ∀ n ∈ t.givenNames, n ∈ tree.givenNames :=
    fun t ht n hn => List.mem_flatMap.2 ⟨t, ht, hn⟩
  -- a table has the relations of its parent and one more, so they are followed down the edges
  have hrelations : ∀ t ∈ tree.tables, ∀ r ∈ t.relations, ∀ n ∈ r.names,
      IsName n ∨ n ∈ tree.givenNames := by
    refine forall_tables_of_edges (by simp [htree.root_relations]) fun edge hedge hparent => ?_
    obtain ⟨r, hr, hlinks⟩ := htree.links hedge
    obtain ⟨habove, hbelow⟩ := mem_tables_of_mem_edges hedge
    rw [hr]
    refine List.forall_mem_append.2 ⟨hparent, List.forall_mem_singleton.2 fun n hn => ?_⟩
    have hnames : r.HasNames := (htree.hasNames edge.2 hbelow).relations r (by simp [hr])
    rcases isName_of_mem_relation hnames hlinks (htree.hasNames edge.1 habove).name hn with
      hn | hn | hn
    · exact .inl hn
    · exact .inr (hgiven edge.1 habove n hn)
    · exact .inr (hgiven edge.2 hbelow n hn)
  obtain ⟨t, ht, h⟩ := List.mem_flatMap.1 h
  rw [Table.names, List.mem_cons, List.mem_append, List.mem_append] at h
  rcases h with rfl | (h | h) | h
  · exact .inl (htree.hasNames t ht).name
  · obtain ⟨c, hc, rfl⟩ := List.mem_map.1 h
    exact .inl ((htree.hasNames t ht).columns c hc)
  · obtain ⟨r, hr, h⟩ := List.mem_flatMap.1 h
    exact hrelations t ht r hr name h
  · exact .inr (hgiven t ht name h)

/-- The names of a tree are identifiers exactly if those are that its flags give: every other name is
one anyway, and what a flag gives to a table, but for the default key, stands in a segment of one of
the paths. -/
theorem isName_names_iff {texts : List String} {tree : TableTree} (h : ofPaths texts = .ok tree) :
    ((∀ name ∈ tree.names, IsName name) ↔ ∀ name ∈ tree.givenNames, IsName name) ∧
      (∀ name ∈ tree.names, IsName name ∨ name ∈ tree.givenNames) ∧
      ∀ name ∈ tree.givenNames, name = defaultKey ∨ ∃ text ∈ texts, ∃ path,
        SourcePath.read text = .ok path ∧ ∃ s ∈ path.tables, name ∈ s.givenNames := by
  have htree : tree.IsDerived := isDerived_of_ofPaths h
  refine ⟨⟨fun hall name hname => ?_, fun hgiven name hname => ?_⟩,
    fun name => htree.isName_or_given, fun name hname => ?_⟩
  · obtain ⟨t, ht, hname⟩ := List.mem_flatMap.1 hname
    exact hall name (List.mem_flatMap.2 ⟨t, ht, by simp [Table.names, hname]⟩)
  · exact (htree.isName_or_given hname).elim id (hgiven name)
  · obtain ⟨mapped, hmapped, hderive⟩ := bind_eq_ok.1 h
    obtain ⟨t, ht, hname⟩ := List.mem_flatMap.1 hname
    obtain ⟨path, hpath, s, hs, hshows⟩ := exists_segment_of_derive hderive ht
    obtain ⟨text, htext, hread⟩ := exists_of_mapM_eq_ok hmapped hpath
    obtain ⟨source, hsource, rfl⟩ := map_eq_ok.1 hread
    exact (hshows.mem_givenNames hname).imp_right fun hgiven =>
      ⟨text, htext, source, hsource, s, hs, hgiven⟩

/-- Flags that give identifiers: a key of the root, which a relation repeats, and one of a table
behind a junction, with a row filter. -/
theorem isName_names_iff_tag :
    let texts := ["parcel\x7bprimaryKey=pk\x7d/[pk=parcel_id]parcel_2_tag/[tag_id=id]tag" ++
      "\x7bsortKey=rank\x7d\x7bfilter=\x7b\"op\":\"is_null\",\"value\":" ++
        "\x7b\"property\":\"gone\"\x7d\x7d\x7d/label"]
    ∃ tree, ofPaths texts = .ok tree ∧
      tree.names = ["parcel", "id", "pk", "tag", "label", "parcel", "pk", "pk", "tag", "id", "id",
        "parcel_2_tag", "parcel_id", "tag_id", "gone", "rank", "id", "gone"] ∧
      (∀ name ∈ tree.givenNames, IsName name) ∧ ∀ name ∈ tree.names, IsName name := by
  intro texts
  have hnames : (do
      let tree ← ofPaths texts
      return (tree.names, tree.givenNames) : Except Error (List String × List String)).toOption =
      some (["parcel", "id", "pk", "tag", "label", "parcel", "pk", "pk", "tag", "id", "id",
        "parcel_2_tag", "parcel_id", "tag_id", "gone", "rank", "id", "gone"],
        ["id", "pk", "rank", "id", "gone"]) := by
    decide +kernel
  obtain ⟨tree, htree, hok⟩ := bind_eq_ok.1 (toOption_eq_some.1 hnames)
  obtain ⟨hall, hgiven⟩ := Prod.mk.inj (pure_eq_ok.1 hok)
  have hidentifiers : ∀ name ∈ tree.givenNames, IsName name := by
    rw [hgiven]
    decide
  exact ⟨tree, htree, hall, hidentifiers, (isName_names_iff htree).1.2 hidentifiers⟩

/-- A key that is a condition. -/
theorem not_isName_or : ∃ tree, ofPaths ["parcel\x7bsortKey=code OR id\x7d/name"] = .ok tree ∧
    tree.root.sortKey = "code OR id" ∧ ¬ ∀ name ∈ tree.names, IsName name := by
  have hnames : (do
      let tree ← ofPaths ["parcel\x7bsortKey=code OR id\x7d/name"]
      return (tree.root.sortKey, tree.names) : Except Error (String × List String)).toOption =
      some ("code OR id", ["parcel", "name", "code OR id", "id"]) := by
    decide +kernel
  obtain ⟨tree, htree, hok⟩ := bind_eq_ok.1 (toOption_eq_some.1 hnames)
  obtain ⟨hkey, hall⟩ := Prod.mk.inj (pure_eq_ok.1 hok)
  refine ⟨tree, htree, hkey, ?_⟩
  rw [hall]
  decide

end TableTree

end FeatureStore
