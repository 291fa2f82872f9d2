import FeatureStore.Proofs.Path.Scanning
import FeatureStore.Proofs.Table.Mirrored

/-!
# Paths that begin other paths

One path begins another if its segments are the first segments of the other
(`isPathPrefix_iff`). Any part of the segments of a text is a path of its own, with exactly these
segments (`segments_joinAll_of_infix`), because every cut lies outside brackets. So among the texts
that can be cut, to begin is an order of the texts without the slashes in front.

In a derived tree the path of a table is that of its parent and a step more, and a step is made of
segments. So the path of a table begins the paths of its children (`isPathPrefix_of_mem_edges`), and
with them those of all tables below it.
-/

set_option autoImplicit false

namespace FeatureStore

/-- The path is cut into these segments; slashes in front of it do not count. -/
def HasSegments (path : String) (parts : List (List Char)) : Prop :=
  segments (dropSlashes path.toList) = .ok parts

/-! ## Parts of segments -/

/-- Some segments of a text that follow each other make a text that is cut into them again. -/
theorem segments_joinAll_of_infix {text : List Char} {parts inner : List (List Char)}
    (h : segments text = .ok parts) (hne : inner ≠ []) (hinner : inner <:+: parts) :
    segments (joinAll '/' inner) = .ok inner :=
  segments_joinAll hne fun part hpart => isSegment_of_mem h part (hinner.subset hpart)

/-- What stands behind more than slashes keeps its slashes. -/
theorem dropSlashes_append {front : List Char} (h : dropSlashes front ≠ []) (behind : List Char) :
    dropSlashes (front ++ behind) = dropSlashes front ++ behind := by
  rw [dropSlashes, List.dropWhile_append, if_neg]
  · rfl
  · rwa [List.isEmpty_iff]

namespace HasSegments

variable {p q : String} {ps qs : List (List Char)}

theorem unique {more : List (List Char)} (h : HasSegments p ps) (h' : HasSegments p more) :
    ps = more :=
  Except.ok.inj (h.symm.trans h')

/-- Paths with the same segments differ in the slashes in front only. -/
theorem withoutSlashes_eq (hp : HasSegments p ps) (hq : HasSegments q ps) :
    withoutSlashes p = withoutSlashes q := by
  rw [withoutSlashes, withoutSlashes, ← joinAll_of_segments hp, joinAll_of_segments hq]

/-- A path that goes on behind a slash has the segments of both of its parts, unless there are only
slashes in front. -/
theorem append (hp : HasSegments p ps) (hne : dropSlashes p.toList ≠ []) (hqs : qs ≠ [])
    (hparts : ∀ part ∈ qs, IsSegment part) (hq : q.toList = joinAll '/' qs) :
    HasSegments (p ++ "/" ++ q) (ps ++ qs) := by
  have hps : ps ≠ [] := segmentsFrom_ne_nil hp
  have htext : dropSlashes (p ++ "/" ++ q).toList = joinAll '/' (ps ++ qs) := by
    rw [joinAll_append hps hqs, joinAll_of_segments hp, ← hq, String.toList_append,
      String.toList_append, List.append_assoc, dropSlashes_append hne]
    rfl
  rw [HasSegments, htext]
  refine segments_joinAll (by simp [hps]) fun part hpart => ?_
  rcases List.mem_append.1 hpart with hpart | hpart
  · exact isSegment_of_mem hp part hpart
  · exact hparts part hpart

end HasSegments

/-! ## The order of paths -/

/-- One path begins another exactly if both can be cut and its segments come first in the other. -/
theorem isPathPrefix_iff {p q : String} : isPathPrefix p q = true ↔
    ∃ ps qs, HasSegments p ps ∧ HasSegments q qs ∧ ps <+: qs := by
  unfold isPathPrefix HasSegments
  cases segments (dropSlashes p.toList) with
  | error e => simp
  | ok ps =>
    cases segments (dropSlashes q.toList) with
    | error e => simp
    | ok qs => simp [List.isPrefixOf_iff_prefix]

theorem isPathPrefix_iff_of_segments {p q : String} {ps qs : List (List Char)}
    (hp : HasSegments p ps) (hq : HasSegments q qs) : isPathPrefix p q = true ↔ ps <+: qs := by
  rw [isPathPrefix_iff]
  constructor
  · rintro ⟨ps', qs', hp', hq', h⟩
    rwa [hp.unique hp', hq.unique hq']
  · exact fun h => ⟨ps, qs, hp, hq, h⟩

theorem isPathPrefix_trans {p q r : String} (hpq : isPathPrefix p q = true)
    (hqr : isPathPrefix q r = true) : isPathPrefix p r = true := by
  obtain ⟨ps, qs, hp, hq, hpre⟩ := isPathPrefix_iff.1 hpq
  obtain ⟨qs', rs, hq', hr, hpre'⟩ := isPathPrefix_iff.1 hqr
  obtain rfl := hq.unique hq'
  exact isPathPrefix_iff.2 ⟨ps, rs, hp, hr, hpre.trans hpre'⟩

/-- Paths begin each other exactly if they are the same without the slashes in front. -/
theorem isPathPrefix_antisymm_iff {p q : String} {ps qs : List (List Char)}
    (hp : HasSegments p ps) (hq : HasSegments q qs) :
    isPathPrefix p q = true ∧ isPathPrefix q p = true ↔ withoutSlashes p = withoutSlashes q := by
  rw [isPathPrefix_iff_of_segments hp hq, isPathPrefix_iff_of_segments hq hp]
  constructor
  · rintro ⟨hpq, hqp⟩
    obtain rfl := hpq.eq_of_length (Nat.le_antisymm hpq.length_le hqp.length_le)
    exact hp.withoutSlashes_eq hq
  · intro h
    have htext : dropSlashes p.toList = dropSlashes q.toList := String.ofList_injective h
    have hsame : HasSegments q ps := by
      rw [HasSegments, ← htext]
      exact hp
    obtain rfl := hsame.unique hq
    exact ⟨List.prefix_refl _, List.prefix_refl _⟩

/-! ## Paths of a derived tree -/

/-- The path can be cut, and is more than slashes. -/
def IsTablePath (path : String) : Prop :=
  dropSlashes path.toList ≠ [] ∧ ∃ parts, HasSegments path parts

/-- Behind a step, a path is one of a table again, and begins with what it was. -/
theorem IsTablePath.append {path : String} {step : Step} (hpath : IsTablePath path)
    (hstep : step.IsSound) : IsTablePath (path ++ "/" ++ step.key) ∧
      isPathPrefix path (path ++ "/" ++ step.key) = true := by
  obtain ⟨hne, parts, hparts⟩ := hpath
  have hmore : HasSegments (path ++ "/" ++ step.key) (parts ++ step.raws) :=
    hparts.append hne step.raws_ne_nil hstep.isSegment hstep.key_eq
  refine ⟨⟨?_, _, hmore⟩, isPathPrefix_iff.2 ⟨_, _, hparts, hmore, List.prefix_append _ _⟩⟩
  rw [String.toList_append, String.toList_append, List.append_assoc, dropSlashes_append hne]
  exact List.append_ne_nil_of_left_ne_nil hne _

namespace Trie

mutual
/-- The path of a table begins those of its children. -/
theorem isPathPrefix_of_build : ∀ {t : Trie} {path : String} {relations : List Relation}
    {tree : TableTree}, t.IsSound → IsTablePath path → t.build path relations = .ok tree →
      ∀ edge ∈ tree.edges, isPathPrefix edge.1.path edge.2.path = true
  | .node entry children, path, relations, tree, .node hsub _ hsteps, hpath, h => by
    rw [build] at h
    obtain ⟨trees, htrees, rfl⟩ := map_eq_ok.1 h
    exact isPathPrefix_of_buildList hsub (fun c hc => (hsteps c hc).1) rfl hpath htrees

theorem isPathPrefix_of_buildList : ∀ {l : List Trie} {path : String}
    {relations : List Relation} {segment : TableSegment} {parent : Table}
    {trees : List TableTree}, (∀ c ∈ l, c.IsSound) → (∀ c ∈ l, c.entry.step.IsSound) →
      parent.path = path → IsTablePath path → buildList path relations segment l = .ok trees →
      ∀ edge ∈ TableTree.edgesOfList parent trees, isPathPrefix edge.1.path edge.2.path = true
  | [], _, _, _, _, trees, _, _, _, _, h => by
    rw [buildList] at h
    obtain rfl := Except.ok.inj h
    exact fun _ hedge => absurd hedge List.not_mem_nil
  | t :: rest, path, relations, segment, parent, trees, hsub, hsteps, hparent, hpath, h => by
    obtain ⟨r, tree, others, rfl, -, htree, hothers⟩ := buildList_cons h
    obtain ⟨ht, hsub⟩ := List.forall_mem_cons.1 hsub
    obtain ⟨hstep, hsteps⟩ := List.forall_mem_cons.1 hsteps
    obtain ⟨hbelow, hbegins⟩ := hpath.append hstep
    rw [TableTree.edgesOfList]
    refine List.forall_mem_cons.2 ⟨?_, List.forall_mem_append.2 ⟨?_, ?_⟩⟩
    · rw [root_of_build htree, hparent]
      exact hbegins
    · exact isPathPrefix_of_build ht hbelow htree
    · exact isPathPrefix_of_buildList hsub hsteps hparent hpath hothers
end

end Trie

namespace TableTree

mutual
/-- The edges of a part are edges of the tree. -/
theorem edges_subset_of_mem_parts : ∀ {t sub : TableTree}, sub ∈ t.parts → sub.edges ⊆ t.edges
  | .node table children, sub, h => by
    rw [parts] at h
    rcases List.mem_cons.1 h with rfl | h
    · exact List.Subset.refl _
    · exact edges_subset_of_mem_partsOfList h table

theorem edges_subset_of_mem_partsOfList : ∀ {l : List TableTree} {sub : TableTree},
    sub ∈ partsOfList l → ∀ parent : Table, sub.edges ⊆ edgesOfList parent l
  | [], _, h, _ => absurd h List.not_mem_nil
  | tree :: rest, sub, h, parent => by
    rw [partsOfList] at h
    rw [edgesOfList]
    intro edge hedge
    refine List.mem_cons_of_mem _ (List.mem_append.2 ?_)
    rcases List.mem_append.1 h with h | h
    · exact Or.inl (edges_subset_of_mem_parts h hedge)
    · exact Or.inr (edges_subset_of_mem_partsOfList h parent hedge)
end

mutual
/-- What begins the path of the top begins the paths of all tables, if every table's path begins
those of its children. -/
theorem isPathPrefix_of_edges : ∀ {t : TableTree} {path : String},
    (∀ edge ∈ t.edges, isPathPrefix edge.1.path edge.2.path = true) →
      isPathPrefix path t.root.path = true →
      ∀ table ∈ t.tables, isPathPrefix path table.path = true
  | .node top children, path, hedges, htop, table, h => by
    rw [tables] at h
    rcases List.mem_cons.1 h with rfl | h
    · exact htop
    · exact isPathPrefix_trans htop (isPathPrefix_of_edgesOfList hedges table h)

theorem isPathPrefix_of_edgesOfList : ∀ {l : List TableTree} {parent : Table},
    (∀ edge ∈ edgesOfList parent l, isPathPrefix edge.1.path edge.2.path = true) →
      ∀ table ∈ tablesOfList l, isPathPrefix parent.path table.path = true
  | [], _, _, _, h => absurd h List.not_mem_nil
  | tree :: rest, parent, hedges, table, h => by
    rw [edgesOfList] at hedges
    obtain ⟨hfirst, hedges⟩ := List.forall_mem_cons.1 hedges
    obtain ⟨hbelow, hothers⟩ := List.forall_mem_append.1 hedges
    rw [tablesOfList] at h
    rcases List.mem_append.1 h with h | h
    · exact isPathPrefix_of_edges hbelow hfirst table h
    · exact isPathPrefix_of_edgesOfList hothers table h
end

/-- In a derived tree the path of a table begins those of its children. -/
theorem isPathPrefix_of_mem_edges {tree : TableTree} (htree : tree.IsDerived) :
    ∀ edge ∈ tree.edges, isPathPrefix edge.1.path edge.2.path = true := by
  obtain ⟨t, ht, hbuild⟩ := htree.exists_trie
  refine Trie.isPathPrefix_of_build ht.sound ?_ hbuild
  -- the path of the root is a single segment
  have hkey : t.entry.step.key = t.entry.step.segment.raw := ht.key_eq
  have hbare : dropSlashes t.entry.step.key.toList = t.entry.step.segment.raw.toList := by
    rw [hkey]
    exact dropSlashes_joinAll [] ht.written.isSegment ht.written.nonempty
  simp only [IsTablePath, HasSegments, hbare]
  exact ⟨ht.written.nonempty, _, ht.written.isSegment⟩

/-- In a derived tree the path of a table begins those of all tables below it. -/
theorem isPathPrefix_of_mem_parts {tree sub : TableTree} (htree : tree.IsDerived)
    (hsub : sub ∈ tree.parts) :
    ∀ table ∈ tablesOfList sub.children, isPathPrefix sub.root.path table.path = true := by
  rcases sub with ⟨top, children⟩
  exact isPathPrefix_of_edgesOfList fun edge hedge =>
    isPathPrefix_of_mem_edges htree edge (edges_subset_of_mem_parts hsub hedge)

end TableTree

/-- Segments and the paths they make. Segments of a text that follow each other make a text that is
cut into them again. Of two paths that can be cut, one begins the other exactly if its segments are
the first of the other. To begin is therefore reflexive, transitive, and antisymmetric up to slashes
in front, which do not count. In a derived tree the path of a table begins those of all tables below
it. -/
theorem isPathPrefix_ordersPaths :
    (∀ (text : List Char) (parts inner : List (List Char)), segments text = .ok parts →
      inner ≠ [] → inner <:+: parts → segments (joinAll '/' inner) = .ok inner) ∧
    (∀ (p q : String) (ps qs : List (List Char)), HasSegments p ps → HasSegments q qs →
      (isPathPrefix p q = true ↔ ps <+: qs)) ∧
    (∀ (p : String) (ps : List (List Char)), HasSegments p ps → isPathPrefix p p = true) ∧
    (∀ p q r : String, isPathPrefix p q = true → isPathPrefix q r = true →
      isPathPrefix p r = true) ∧
    (∀ (p q : String) (ps qs : List (List Char)), HasSegments p ps → HasSegments q qs →
      (isPathPrefix p q = true ∧ isPathPrefix q p = true ↔
        withoutSlashes p = withoutSlashes q)) ∧
    (∀ tree : TableTree, tree.IsDerived → ∀ sub ∈ tree.parts,
      ∀ table ∈ TableTree.tablesOfList sub.children,
        isPathPrefix sub.root.path table.path = true) := by
  refine ⟨?_, ?_, ?_, ?_, ?_, ?_⟩
  · exact fun text parts inner h hne hinner => segments_joinAll_of_infix h hne hinner
  · exact fun p q ps qs hp hq => isPathPrefix_iff_of_segments hp hq
  · exact fun p ps hp => (isPathPrefix_iff_of_segments hp hp).2 (List.prefix_refl ps)
  · exact fun p q r hpq hqr => isPathPrefix_trans hpq hqr
  · exact fun p q ps qs hp hq => isPathPrefix_antisymm_iff hp hq
  · exact fun tree htree sub hsub => TableTree.isPathPrefix_of_mem_parts htree hsub

/-- A flag with a slash stands in one segment, and with the column behind it makes a path of its
own. The path of the root table, whatever slashes stand in front, begins that of the table with the
flag. -/
theorem isPathPrefix_ordersPaths_address :
    let text := "parcel/[id=parcel_id]address{sortKey=a/b}/street"
    let address := "parcel/[id=parcel_id]address{sortKey=a/b}"
    let inner := ["[id=parcel_id]address{sortKey=a/b}".toList, "street".toList]
    segments (joinAll '/' inner) = .ok inner ∧ isPathPrefix "//parcel" address = true ∧
      isPathPrefix address address = true ∧ isPathPrefix "//parcel" text = true ∧
      isPathPrefix "//parcel" "parcel" = true ∧ isPathPrefix "parcel" "//parcel" = true ∧
      ∃ tree, TableTree.ofPaths [text] = .ok tree ∧ ∃ sub ∈ tree.parts,
        ∃ table ∈ TableTree.tablesOfList sub.children, sub.root.path = "parcel" ∧
          table.path = address ∧ isPathPrefix sub.root.path table.path = true := by
  intro text address inner
  obtain ⟨hparts, hruns, hrefl, htrans, hanti, hbelow⟩ := isPathPrefix_ordersPaths
  have hroot : HasSegments "//parcel" ["parcel".toList] := toOption_eq_some.1 (by decide)
  have hbare : HasSegments "parcel" ["parcel".toList] := toOption_eq_some.1 (by decide)
  have haddress : HasSegments address
      ["parcel".toList, "[id=parcel_id]address{sortKey=a/b}".toList] :=
    toOption_eq_some.1 (by decide +kernel)
  have htext : HasSegments text ("parcel".toList :: inner) :=
    toOption_eq_some.1 (by decide +kernel)
  have hbegins := (hruns _ _ _ _ hroot haddress).2 (by decide)
  have hmore := (hruns _ _ _ _ haddress htext).2 (by decide)
  have hsame := (hanti _ _ _ _ hroot hbare).2 (by decide)
  have htree : ((TableTree.ofPaths [text]).map fun tree => tree.parts.map fun sub =>
      (sub.root.path, (TableTree.tablesOfList sub.children).map Table.path)).toOption =
        some [("parcel", [address]), (address, [])] := by
    decide +kernel
  obtain ⟨tree, hok, hpaths⟩ := map_eq_ok.1 (toOption_eq_some.1 htree)
  obtain ⟨sub, rest, hsub, hfirst, -⟩ := List.map_eq_cons_iff.1 hpaths
  obtain ⟨hpath, htables⟩ := Prod.mk.inj hfirst
  obtain ⟨table, others, htable, haddr, -⟩ := List.map_eq_cons_iff.1 htables
  have hmem : sub ∈ tree.parts := by rw [hsub]; exact List.mem_cons_self
  have hmem' : table ∈ TableTree.tablesOfList sub.children := by
    rw [htable]
    exact List.mem_cons_self
  refine ⟨hparts (dropSlashes text.toList) _ inner htext (by decide)
    (List.suffix_cons _ _).isInfix, hbegins, hrefl _ _ haddress, htrans _ _ _ hbegins hmore,
    hsame.1, hsame.2, tree, hok, sub, hmem, table, hmem', hpath, haddr, ?_⟩
  exact hbelow tree (TableTree.isDerived_of_ofPaths hok) sub hmem table hmem'

end FeatureStore
