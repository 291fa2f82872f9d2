import FeatureStore.Proofs.Table.Merging
import FeatureStore.Proofs.Table.WellFormed

/-!
# Names of derived trees

Reading a source path checks the names in it: those of tables, of the columns that joins equate, and
of the columns at its end. So in a derived tree all of them are identifiers
(`TableTree.IsDerived.hasNames`). The keys that flags give to a table are not checked, and they may
be any text.
-/

set_option autoImplicit false

namespace FeatureStore

/-- A name may stand in a statement as it is. -/
def IsName (name : String) : Prop := isIdentifier name.toList = true

instance (name : String) : Decidable (IsName name) := inferInstanceAs (Decidable (_ = true))

/-! ## Names that are read -/

namespace TableSegment

/-- The names of a segment and of the columns that it is joined by are identifiers. -/
structure HasNames (s : TableSegment) : Prop where
  name : IsName s.name
  join : ∀ keys ∈ s.join, IsName keys.sourceField ∧ IsName keys.targetField

theorem hasNames_of_readJoin? {raw rest : List Char} {join : Option JoinKeys}
    (h : readJoin? raw = .ok (join, rest)) :
    ∀ keys ∈ join, IsName keys.sourceField ∧ IsName keys.targetField := by
  rw [readJoin?.eq_def] at h
  split at h
  · split at h
    · simp at h
    · split at h
      · simp at h
      · dsimp only at h
        split at h
        · rename_i hnames
          obtain ⟨rfl, -⟩ := Prod.mk.inj (Except.ok.inj h)
          rw [Bool.and_eq_true] at hnames
          intro keys hkeys
          obtain rfl := Option.some.inj hkeys
          rw [IsName, IsName, String.toList_ofList, String.toList_ofList]
          exact hnames
        · simp at h
  · obtain ⟨rfl, -⟩ := Prod.mk.inj (Except.ok.inj h)
    simp

/-- The names in a segment that was read are identifiers. -/
theorem hasNames_of_read {raw : List Char} {s : TableSegment}
    (h : TableSegment.read raw = .ok s) : s.HasNames := by
  obtain ⟨join, rest, hjoin, hname, hhead⟩ := head_of_read h
  constructor
  · rw [hhead.name, plain, IsName, String.toList_ofList]
    exact hname
  · rw [hhead.join]
    exact hasNames_of_readJoin? hjoin

theorem IsWritten.hasNames {s : TableSegment} (h : s.IsWritten) : s.HasNames :=
  hasNames_of_read h.reads

end TableSegment

namespace SourcePath

theorem isName_of_readColumns {list : List Char} {names : List String}
    (h : readColumns list = .ok names) : ∀ name ∈ names, IsName name := by
  rw [readColumns] at h
  split at h
  · simp at h
  · rename_i hfind
    obtain rfl := Except.ok.inj h
    intro name hname
    obtain ⟨text, htext, rfl⟩ := List.mem_map.1 hname
    rw [IsName, String.toList_ofList]
    simpa using List.find?_eq_none.1 hfind text htext

/-- The columns at the end of a path that was read are identifiers. -/
theorem isName_of_read {text : String} {p : SourcePath} (h : SourcePath.read text = .ok p) :
    ∀ name ∈ p.columns, IsName name := by
  obtain ⟨all, -, -, -, hcolumns, -⟩ := parts_of_readTrimmed (readTrimmed_of_read h).2
  cases hlist : (partition all).2 with
  | none =>
    rw [hlist] at hcolumns
    rw [← Except.ok.inj hcolumns]
    simp
  | some list =>
    rw [hlist] at hcolumns
    exact isName_of_readColumns hcolumns

end SourcePath

/-! ## Names of tables and relations -/

/-- The names that a join along a relation is written with are identifiers. -/
structure Relation.HasNames (r : Relation) : Prop where
  sourceField : IsName r.sourceField
  targetTable : IsName r.targetTable
  targetField : IsName r.targetField
  junction : ∀ j ∈ r.junction, IsName j.table ∧ IsName j.sourceField ∧ IsName j.targetField

/-- The names of a table are identifiers, its keys apart. -/
structure Table.HasNames (t : Table) : Prop where
  name : IsName t.name
  columns : ∀ c ∈ t.columns, IsName c.name
  relations : ∀ r ∈ t.relations, r.HasNames

/-- A relation takes its names from the segments that it links. -/
theorem hasNames_of_classify {parent : TableSegment} {step : Step} {r : Relation}
    (h : classify parent step = .ok r) (hwritten : ∀ t ∈ step.segments, t.IsWritten) :
    r.HasNames := by
  obtain ⟨⟨-, -, htable, -, -⟩, join, hjoin, htarget, hcases⟩ := classify_cases h
  have hchild : step.segment.HasNames := (hwritten _ (by simp [Step.segments])).hasNames
  obtain ⟨hsourceName, htargetName⟩ := hchild.join join hjoin
  rw [← htarget] at htargetName
  rcases hcases with ⟨-, hnone, hsource, -⟩ | ⟨junction, into, hjunction, hinto, -, hsource, hmade⟩
  · rw [← hsource] at hsourceName
    exact ⟨hsourceName, htable ▸ hchild.name, htargetName, by simp [hnone]⟩
  · have hmiddle : junction.HasNames :=
      (hwritten junction (by simp [Step.segments, hjunction])).hasNames
    obtain ⟨hintoSource, hintoTarget⟩ := hmiddle.join into hinto
    rw [← hsource] at hintoSource
    refine ⟨hintoSource, htable ▸ hchild.name, htargetName, fun j hj => ?_⟩
    obtain rfl := Option.some.inj (hmade.symm.trans hj)
    exact ⟨hmiddle.name, hintoTarget, hsourceName⟩

namespace Trie

mutual
/-- All steps of a sound trie are sound. -/
theorem IsSound.of_mem_links : ∀ {t : Trie} {link : TableSegment × Step}, t.IsSound →
    link ∈ t.links → link.2.IsSound
  | .node _ _, _, .node hsub _ hsteps, h =>
    isSound_of_mem_linksOfList hsub (fun c hc => (hsteps c hc).1) h

theorem isSound_of_mem_linksOfList : ∀ {l : List Trie} {parent : TableSegment}
    {link : TableSegment × Step}, (∀ c ∈ l, c.IsSound) → (∀ c ∈ l, c.entry.step.IsSound) →
      link ∈ linksOfList parent l → link.2.IsSound
  | [], _, _, _, _, h => by simp [linksOfList] at h
  | t :: rest, parent, link, hsub, hsteps, h => by
    obtain ⟨ht, hsub⟩ := List.forall_mem_cons.1 hsub
    obtain ⟨hstep, hsteps⟩ := List.forall_mem_cons.1 hsteps
    rw [linksOfList] at h
    rcases List.mem_cons.1 h with rfl | h
    · exact hstep
    · rcases List.mem_append.1 h with h | h
      · exact ht.of_mem_links h
      · exact isSound_of_mem_linksOfList hsub hsteps h
end

end Trie

namespace TableTree

mutual
/-- What holds of the top, and of a table if it does of its parent, holds of all tables. -/
theorem forall_tables_of_edges {P : Table → Prop} : ∀ {t : TableTree}, P t.root →
    (∀ edge ∈ t.edges, P edge.1 → P edge.2) → ∀ table ∈ t.tables, P table
  | .node table children, hroot, hedges => by
    refine List.forall_mem_cons.2 ⟨hroot, ?_⟩
    exact forall_tablesOfList_of_edges hroot hedges

theorem forall_tablesOfList_of_edges {P : Table → Prop} {parent : Table} :
    ∀ {l : List TableTree}, P parent → (∀ edge ∈ edgesOfList parent l, P edge.1 → P edge.2) →
      ∀ table ∈ tablesOfList l, P table
  | [], _, _ => by simp [tablesOfList]
  | tree :: rest, hparent, hedges => by
    rw [edgesOfList] at hedges
    obtain ⟨hfirst, hedges⟩ := List.forall_mem_cons.1 hedges
    obtain ⟨hbelow, hrest⟩ := List.forall_mem_append.1 hedges
    rw [tablesOfList]
    exact List.forall_mem_append.2 ⟨forall_tables_of_edges (hfirst hparent) hbelow,
      forall_tablesOfList_of_edges hparent hrest⟩
end

/-- The columns of a derived tree are those at the ends of its paths. -/
theorem isName_of_mem_columns {paths : List MappedPath} {tree : TableTree}
    (hread : ∀ p ∈ paths, ∃ text, SourcePath.read text = .ok p.source)
    (h : derive paths = .ok tree) : ∀ t ∈ tree.tables, ∀ c ∈ t.columns, IsName c.name := by
  obtain ⟨trie, hcollects, hdistinct, hbuild, -⟩ := exists_collects_of_derive h
  intro t ht c hc
  obtain ⟨keys, -, hcolumns, -⟩ := Trie.exists_keys_of_table hdistinct hbuild ht
  have hmem : c ∈ (trie.columnsAt? keys).getD [] := by
    rw [hcolumns]
    exact hc
  obtain ⟨path, hpath, -, hc⟩ := (hcollects.mem_iff keys c).1 hmem
  obtain ⟨name, hname, rfl⟩ := List.mem_map.1 hc
  obtain ⟨text, htext⟩ := hread path hpath
  exact SourcePath.isName_of_read htext name hname

/-- The names of a derived tree are identifiers, keys apart. -/
theorem IsDerived.hasNames {tree : TableTree} (htree : tree.IsDerived) :
    ∀ t ∈ tree.tables, t.HasNames := by
  have hcolumns : ∀ t ∈ tree.tables, ∀ c ∈ t.columns, IsName c.name := by
    obtain ⟨paths, hread, hderive⟩ := htree
    exact isName_of_mem_columns hread hderive
  obtain ⟨trie, hrooted, hbuild⟩ := htree.exists_trie
  have hroot := Trie.root_of_build hbuild
  have hbelow : ∀ t ∈ tree.tables, IsName t.name ∧ ∀ r ∈ t.relations, r.HasNames := by
    refine forall_tables_of_edges ?_ fun edge hedge hparent => ?_
    · rw [hroot]
      exact ⟨hrooted.written.hasNames.name, by simp [TrieEntry.table]⟩
    · obtain ⟨link, hlink, hof⟩ := exists_left_of_forall₂ (Trie.edges_of_build hbuild) hedge
      have hsound := hrooted.sound.of_mem_links hlink
      obtain ⟨r, hr, hrelations⟩ := hof.relation
      constructor
      · rw [hof.child.name_eq]
        exact (hsound.written link.2.segment (by simp [Step.segments])).hasNames.name
      · rw [hrelations]
        exact List.forall_mem_append.2 ⟨hparent.2,
          List.forall_mem_singleton.2 (hasNames_of_classify hr hsound.written)⟩
  exact fun t ht => ⟨(hbelow t ht).1, hcolumns t ht, (hbelow t ht).2⟩

end TableTree

end FeatureStore
