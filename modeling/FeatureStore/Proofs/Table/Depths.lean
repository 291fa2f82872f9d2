import FeatureStore.Proofs.Table.Numbering

/-!
# Depths along a path

How deep the tables lie whose paths begin one path. A table further along a path lies no higher
(`Trie.depth_le_of_prefix`), although one step may take two segments: a junction together with the
table behind it lies as deep as the same junction by itself. So the tables of a derived tree have
trails of segments (`Arena.IsTrailed`), which make their paths, tell them apart and are ordered like
their depths wherever one begins another (`Arena.exists_trailed`).
-/

set_option autoImplicit false

namespace FeatureStore

/-! ## Places of a trie -/

namespace Trie

mutual
/-- For every place of a trie in pre-order the texts on the way to it and its depth. The top is
reached by `above` and lies at `depth`. -/
def places (above : List (List Char)) (depth : Nat) : Trie → List (List (List Char) × Nat)
  | .node _ children => (above, depth) :: placesOfList above (depth + 1) children

/-- The places of the tries below a place. -/
def placesOfList (above : List (List Char)) (depth : Nat) :
    List Trie → List (List (List Char) × Nat)
  | [] => []
  | t :: rest => t.places (above ++ t.entry.step.raws) depth ++ placesOfList above depth rest
end

mutual
theorem trails_of_places (above : List (List Char)) (depth : Nat) : ∀ t : Trie,
    (t.places above depth).map Prod.fst = t.trails above
  | .node entry children => by
    rw [places, trails, List.map_cons, trails_of_placesOfList]

theorem trails_of_placesOfList (above : List (List Char)) (depth : Nat) : ∀ l : List Trie,
    (placesOfList above depth l).map Prod.fst = trailsOfList above l
  | [] => rfl
  | t :: rest => by
    rw [placesOfList, trailsOfList, List.map_append, trails_of_places, trails_of_placesOfList]
end

variable {above a b : List (List Char)} {depth m n : Nat}

theorem mem_trails_of_mem_places {t : Trie} (h : (a, m) ∈ t.places above depth) :
    a ∈ t.trails above := by
  rw [← trails_of_places above depth]
  exact List.mem_map_of_mem (f := Prod.fst) h

theorem mem_placesOfList {p : List (List Char) × Nat} {l : List Trie} :
    p ∈ placesOfList above depth l ↔
      ∃ c ∈ l, p ∈ c.places (above ++ c.entry.step.raws) depth := by
  induction l with
  | nil => simp [placesOfList]
  | cons t rest ih => simp [placesOfList, ih]

/-- No place lies higher than the top. -/
theorem le_of_mem_places : ∀ {t : Trie} {above : List (List Char)} {depth : Nat},
    (a, m) ∈ t.places above depth → depth ≤ m
  | .node entry children, above, depth, h => by
    rw [places] at h
    rcases List.mem_cons.1 h with h | h
    · exact Nat.le_of_eq (Prod.mk.inj h).2.symm
    · obtain ⟨c, hc, hmem⟩ := mem_placesOfList.1 h
      have := le_of_mem_places hmem
      omega

theorem places_of_children_eq_nil {t : Trie} (h : t.children = []) :
    t.places above depth = [(above, depth)] := by
  rcases t with ⟨entry, children⟩
  obtain rfl : children = [] := h
  rfl

/-- Of two siblings on one path, the one whose trails begin those of the other has nothing below
it. -/
theorem depth_eq_of_siblings {s t : Trie} (hs : s.entry.step.IsSound) (ht : t.entry.step.IsSound)
    (hne : s.key ≠ t.key) (hsdead : s.entry.step.isDeadEnd = true → s.children = [])
    (htdead : t.entry.step.isDeadEnd = true → t.children = [])
    (ha : (a, m) ∈ s.places (above ++ s.entry.step.raws) depth)
    (hb : (b, n) ∈ t.places (above ++ t.entry.step.raws) depth) (hab : a <+: b) : m = depth := by
  have hfirst := (prefix_of_mem_trails (mem_trails_of_mem_places ha)).trans hab
  have hsecond := prefix_of_mem_trails (mem_trails_of_mem_places hb)
  have hsame := key_eq_of_prefix hs ht hfirst hsecond
  cases hjs : s.entry.step.junction with
  | none =>
    cases hjt : t.entry.step.junction with
    | none => exact absurd (hsame (by rw [length_raws_of_none hjs, length_raws_of_none hjt])) hne
    | some j =>
      have hdead := isDeadEnd_of_prefix hs ht hjs hjt hfirst hsecond
      rw [places_of_children_eq_nil (hsdead hdead), List.mem_singleton] at ha
      exact (Prod.mk.inj ha).2
  | some i =>
    cases hjt : t.entry.step.junction with
    | none =>
      -- the trail of the second would be too short for the first
      have hdead := isDeadEnd_of_prefix ht hs hjt hjs hsecond hfirst
      rw [places_of_children_eq_nil (htdead hdead), List.mem_singleton] at hb
      have hlength := hfirst.length_le
      rw [(Prod.mk.inj hb).1, List.length_append, List.length_append, length_raws_of_none hjt,
        length_raws_of_some hjs] at hlength
      omega
    | some j => exact absurd (hsame (by rw [length_raws_of_some hjs, length_raws_of_some hjt])) hne

/-- In a sound trie a place further along a path lies no higher. -/
theorem depth_le_of_prefix : ∀ {t : Trie} {above : List (List Char)} {depth : Nat}, t.IsSound →
    (a, m) ∈ t.places above depth → (b, n) ∈ t.places above depth → a <+: b → m ≤ n
  | .node entry children, above, depth, .node hsub hkeys hsteps, ha, hb, hab => by
    rw [places] at ha hb
    rcases List.mem_cons.1 ha with ha | ha
    · -- the top lies highest
      rw [(Prod.mk.inj ha).2]
      exact le_of_mem_places (t := .node entry children) (by rwa [places])
    · obtain ⟨s, hs, ha⟩ := mem_placesOfList.1 ha
      have hlonger := (prefix_of_mem_trails (mem_trails_of_mem_places ha)).length_le
      have hpos := List.length_pos_iff.2 s.entry.step.raws_ne_nil
      rw [List.length_append] at hlonger
      rcases List.mem_cons.1 hb with hb | hb
      · -- the trail of the top is too short for one below it
        have := hab.length_le
        rw [(Prod.mk.inj hb).1] at this
        omega
      · obtain ⟨t, ht, hb⟩ := mem_placesOfList.1 hb
        by_cases hkey : s.key = t.key
        · obtain rfl := List.inj_on_of_nodup_map hkeys hs ht hkey
          exact depth_le_of_prefix (hsub s hs) ha hb hab
        · rw [depth_eq_of_siblings (hsteps s hs).1 (hsteps t ht).1 hkey (hsteps s hs).2
            (hsteps t ht).2 ha hb hab]
          exact le_of_mem_places hb

mutual
/-- The numbered tables of a tree are the places of its trie. -/
theorem places_of_build : ∀ {t : Trie} {path : String} {relations : List Relation}
    {tree : TableTree} {above : List (List Char)} {parent : Option Nat} {depth id : Nat},
    t.IsSound → above ≠ [] → path.toList = joinAll '/' above → t.build path relations = .ok tree →
      (tree.number parent depth id).map (fun node => (node.path.toList, node.depth)) =
        (t.places above depth).map fun p => (joinAll '/' p.1, p.2)
  | .node entry children, path, relations, tree, above, parent, depth, id,
      .node hsub _ hsteps, hne, hpath, h => by
    rw [build] at h
    obtain ⟨trees, htrees, rfl⟩ := map_eq_ok.1 h
    rw [TableTree.number, places, List.map_cons, List.map_cons,
      places_of_buildList hsub (fun c hc => (hsteps c hc).1) hne hpath htrees, ← hpath]
    rfl

theorem places_of_buildList : ∀ {l : List Trie} {path : String} {relations : List Relation}
    {segment : TableSegment} {trees : List TableTree} {above : List (List Char)}
    {parent depth id : Nat},
    (∀ c ∈ l, c.IsSound) → (∀ c ∈ l, c.entry.step.IsSound) → above ≠ [] →
    path.toList = joinAll '/' above → buildList path relations segment l = .ok trees →
      (TableTree.numberList parent depth id trees).map
          (fun node => (node.path.toList, node.depth)) =
        (placesOfList above depth l).map fun p => (joinAll '/' p.1, p.2)
  | [], _, _, _, trees, _, _, _, _, _, _, _, _, h => by
    rw [buildList] at h
    obtain rfl := Except.ok.inj h
    rfl
  | t :: rest, path, relations, segment, trees, above, parent, depth, id, hsub, hsteps, hne,
      hpath, h => by
    obtain ⟨r, tree, others, rfl, -, htree, hothers⟩ := buildList_cons h
    obtain ⟨ht, hsub⟩ := List.forall_mem_cons.1 hsub
    obtain ⟨hstep, hsteps⟩ := List.forall_mem_cons.1 hsteps
    have hbelow := hstep.toList_append hne hpath
    rw [TableTree.numberList, placesOfList, List.map_append, List.map_append,
      places_of_build ht (by simp [hne]) hbelow htree,
      places_of_buildList hsub hsteps hne hpath hothers]
end

end Trie

/-! ## Trails of tables -/

namespace Arena

/-- How deep a table lies. -/
def depthOf (a : Arena) (id : Nat) : Nat := ((a.get? id).map ArenaNode.depth).getD 0

/-- The trails make the paths of the tables and tell them apart, and a table whose trail begins
that of another lies no deeper. -/
structure IsTrailed (a : Arena) (trail : Nat → List (List Char)) : Prop where
  path_eq : ∀ {k : Nat}, k < a.size → (a.path k).toList = joinAll '/' (trail k)
  isSegment : ∀ {k : Nat}, k < a.size → ∀ part ∈ trail k, IsSegment part
  exists_first : ∀ {k : Nat}, k < a.size → ∃ part rest, trail k = part :: rest ∧ part ≠ []
  injective : ∀ {j k : Nat}, j < a.size → k < a.size → trail j = trail k → j = k
  depth_le : ∀ {j k : Nat}, j < a.size → k < a.size → trail j <+: trail k →
    a.depthOf j ≤ a.depthOf k

/-- Where the nodes are listed as places, a table is the place with its number. -/
theorem place_of_nodes {a : Arena} {places : List (List (List Char) × Nat)}
    (h : a.nodes.map (fun node => (node.path.toList, node.depth)) =
      places.map fun p => (joinAll '/' p.1, p.2)) {k : Nat} (hk : k < a.size) :
    ∃ p ∈ places, places[k]? = some p ∧ (a.path k).toList = joinAll '/' p.1 ∧
      a.depthOf k = p.2 := by
  have hlength := congrArg List.length h
  rw [List.length_map, List.length_map] at hlength
  have hnode : k < a.nodes.length := hk
  have hplace : k < places.length := hlength ▸ hk
  have hget := congrArg (·[k]?) h
  simp only [List.getElem?_map, List.getElem?_eq_getElem hnode, List.getElem?_eq_getElem hplace,
    Option.map_some, Option.some.injEq, Prod.mk.injEq] at hget
  refine ⟨places[k], List.getElem_mem hplace, List.getElem?_eq_getElem hplace, ?_, ?_⟩
  · rw [path, get?, List.getElem?_eq_getElem hnode]
    exact hget.1
  · rw [depthOf, get?, List.getElem?_eq_getElem hnode]
    exact hget.2

/-- The tables of a derived tree have trails. -/
theorem exists_trailed {tree : TableTree} (htree : tree.IsDerived) :
    ∃ trail, (ofTree tree).IsTrailed trail := by
  obtain ⟨t, ht, hbuild⟩ := htree.exists_trie
  have hpath : t.entry.step.key.toList = joinAll '/' [t.entry.step.segment.raw.toList] := by
    rw [show t.entry.step.key = _ from ht.key_eq]
    rfl
  obtain ⟨places, hplaces⟩ : ∃ places, places =
      t.places [t.entry.step.segment.raw.toList] 0 := ⟨_, rfl⟩
  have hnodes : (ofTree tree).nodes.map (fun node => (node.path.toList, node.depth)) =
      places.map fun p => (joinAll '/' p.1, p.2) := by
    rw [hplaces]
    exact Trie.places_of_build ht.sound (by simp) hpath hbuild
  have hsize : places.length = (ofTree tree).size := by
    rw [size, ← List.length_map (fun node : ArenaNode => (node.path.toList, node.depth)), hnodes,
      List.length_map]
  have hnodup : (places.map Prod.fst).Nodup := by
    rw [hplaces, Trie.trails_of_places]
    exact Trie.nodup_trails _ ht.sound
  refine ⟨fun k => ((places[k]?).map Prod.fst).getD [], ?_⟩
  constructor
  case path_eq =>
    intro k hk
    obtain ⟨p, -, hp, hpath, -⟩ := place_of_nodes hnodes hk
    rw [hpath, hp]
    rfl
  case isSegment =>
    intro k hk
    obtain ⟨⟨trail, depth⟩, hmem, hp, -, -⟩ := place_of_nodes hnodes hk
    rw [hplaces] at hmem
    rw [hp]
    refine Trie.isSegment_of_mem_trails ht.sound (fun part hpart => ?_)
      (Trie.mem_trails_of_mem_places hmem)
    rw [List.mem_singleton.1 hpart]
    exact ht.written.isSegment
  case exists_first =>
    intro k hk
    obtain ⟨⟨trail, depth⟩, hmem, hp, -, -⟩ := place_of_nodes hnodes hk
    rw [hplaces] at hmem
    obtain ⟨rest, rfl⟩ := Trie.prefix_of_mem_trails (Trie.mem_trails_of_mem_places hmem)
    exact ⟨_, rest, by rw [hp]; rfl, ht.written.nonempty⟩
  case injective =>
    intro j k hj hk heq
    obtain ⟨p, -, hp, -, -⟩ := place_of_nodes hnodes hj
    obtain ⟨q, -, hq, -, -⟩ := place_of_nodes hnodes hk
    rw [hp, hq] at heq
    refine (List.getElem?_inj (by rw [List.length_map, hsize]; exact hj) hnodup).1 ?_
    rw [List.getElem?_map, List.getElem?_map, hp, hq]
    exact congrArg some heq
  case depth_le =>
    intro j k hj hk hprefix
    obtain ⟨⟨trail, depth⟩, hmem, hp, -, hdepth⟩ := place_of_nodes hnodes hj
    obtain ⟨⟨trail', depth'⟩, hmem', hq, -, hdepth'⟩ := place_of_nodes hnodes hk
    rw [hplaces] at hmem hmem'
    rw [hp, hq] at hprefix
    rw [hdepth, hdepth']
    exact Trie.depth_le_of_prefix ht.sound hmem hmem' hprefix

end Arena

end FeatureStore
