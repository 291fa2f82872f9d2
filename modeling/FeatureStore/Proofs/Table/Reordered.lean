import FeatureStore.Proofs.Table.Merging

/-!
# The order of paths

A tree does not depend on the order in which the paths behind the first one are merged. Two trees
are the same up to order if the same tables stand at their tops, with the columns in some order, and
below them the same trees, each up to order, in some order (`TableTree.Reordered`).

What paths leave behind in a trie is said without their order: by the columns at each place
(`Trie.Collects`), and by the one way to write the root table that all of them go along with
(`TableSegment.IsRootOf`). Tries that agree in both build trees that are the same up to order, and
one of them can be built exactly if the other can (`Trie.exists_build_of_agrees`). That the paths
go along with each other is a condition on all of them together, so that whether they can be merged
does not depend on their order either (`Trie.exists_addPaths`). Hence the properties of a feature
type may be listed in any order (`TableTree.ofMapping_perm`).
-/

set_option autoImplicit false

namespace FeatureStore

/-- A relation that gives every member of a list a partner. -/
theorem exists_forall₂ {α β : Type} {R : α → β → Prop} : ∀ {l : List α},
    (∀ a ∈ l, ∃ b, R a b) → ∃ out, List.Forall₂ R l out
  | [], _ => ⟨[], .nil⟩
  | a :: l, h => by
    obtain ⟨⟨b, hb⟩, hl⟩ := List.forall_mem_cons.1 h
    obtain ⟨out, hout⟩ := exists_forall₂ hl
    exact ⟨b :: out, .cons hb hout⟩

/-- A traversal of the same members in another order gives the same results in another order. -/
theorem exists_mapM_of_perm {ε α β : Type} {f : α → Except ε β} {l m : List α} {out : List β}
    (hperm : l.Perm m) (h : l.mapM f = .ok out) :
    ∃ moved, m.mapM f = .ok moved ∧ moved.Perm out := by
  obtain ⟨moved, hmoved, hout⟩ := List.perm_comp_forall₂ hperm.symm (mapM_eq_ok_iff.1 h)
  exact ⟨moved, mapM_eq_ok_iff.2 hmoved, hout⟩

/-- The second tree is the first one up to order: at its top stands the same table, with its columns
in some order, and below it stand the trees of the first one, each up to order, in some order. -/
inductive TableTree.Reordered : TableTree → TableTree → Prop
  | node {table other : Table} {children middle below : List TableTree} :
      other = { table with columns := other.columns } → table.columns.Perm other.columns →
      List.Forall₂ Reordered children middle → middle.Perm below →
      Reordered (.node table children) (.node other below)

/-! ## Tries that agree -/

namespace Trie

theorem IsSound.siblings {t : Trie} (h : t.IsSound) : (∀ c ∈ t.children, c.IsSound) ∧
    (t.children.map key).Nodup ∧ ∀ c ∈ t.children, c.entry.step.IsSound := by
  cases h with
  | node hsub hkeys hsteps => exact ⟨hsub, hkeys, fun c hc => (hsteps c hc).1⟩

/-- The same step leads to both tries, and every place has the same columns in both, in some
order. -/
structure Agrees (t u : Trie) : Prop where
  step_eq : u.entry.step = t.entry.step
  columns : ∀ keys, Option.Rel List.Perm (t.columnsAt? keys) (u.columnsAt? keys)

/-- Tries made of the same paths agree, if their roots do. -/
theorem Collects.agrees {paths others : List MappedPath} {t u : Trie} (ht : t.Collects paths)
    (hu : u.Collects others) (hsame : ∀ path, path ∈ paths ↔ path ∈ others)
    (hstep : u.entry.step = t.entry.step) : t.Agrees u where
  step_eq := hstep
  columns keys := by
    have hsome : (t.columnsAt? keys).isSome = true ↔ (u.columnsAt? keys).isSome = true := by
      rw [ht.isSome_iff, hu.isSome_iff]
      simp only [hsame]
    have hmem : ∀ c, c ∈ (t.columnsAt? keys).getD [] ↔ c ∈ (u.columnsAt? keys).getD [] := by
      intro c
      rw [ht.mem_iff, hu.mem_iff]
      simp only [hsame]
    have hnodup := ht.nodup keys
    have hnodup' := hu.nodup keys
    -- both tries have the place or neither has, and its columns are the same in some order
    cases hcolumns : t.columnsAt? keys with
    | none =>
      cases hcolumns' : u.columnsAt? keys with
      | none => exact .none
      | some more => simp [hcolumns, hcolumns'] at hsome
    | some columns =>
      cases hcolumns' : u.columnsAt? keys with
      | none => simp [hcolumns, hcolumns'] at hsome
      | some more =>
        rw [hcolumns, hcolumns'] at hmem
        rw [hcolumns] at hnodup
        rw [hcolumns'] at hnodup'
        exact .some ((List.perm_ext_iff_of_nodup hnodup hnodup').2 hmem)

namespace Agrees

variable {t u : Trie}

theorem symm (h : t.Agrees u) : u.Agrees t where
  step_eq := h.step_eq.symm
  columns keys := by
    have hcolumns := h.columns keys
    generalize t.columnsAt? keys = columns at hcolumns ⊢
    generalize u.columnsAt? keys = more at hcolumns ⊢
    cases hcolumns with
    | some hperm => exact .some hperm.symm
    | none => exact .none

/-- What lies below one of two tries that agree has its partner below the other. -/
theorem exists_partner (ht : t.IsSound) (hu : u.IsSound) (h : t.Agrees u) {c : Trie}
    (hc : c ∈ t.children) : ∃ d ∈ u.children, d.key = c.key ∧ c.Agrees d := by
  obtain ⟨-, hkeys, hsteps⟩ := ht.siblings
  obtain ⟨-, -, hsteps'⟩ := hu.siblings
  have hfound : t.children.find? (fun e => e.key = c.key) = some c := find?_of_nodup_map hkeys hc
  -- the place of the key is there in both
  have hplace := h.columns [c.key]
  rw [columnsAt?_cons_of_find? hfound] at hplace
  cases hfound' : u.children.find? fun e => e.key = c.key with
  | none =>
    rw [columnsAt?_cons_of_find?_none hfound'] at hplace
    exact nomatch hplace
  | some d =>
    have hd := List.mem_of_find?_eq_some hfound'
    have hkey : d.key = c.key := by simpa using List.find?_some hfound'
    refine ⟨d, hd, hkey, (hsteps' d hd).eq_of_key (hsteps c hc) hkey, fun keys => ?_⟩
    have hcolumns := h.columns (c.key :: keys)
    rwa [columnsAt?_cons_of_find? hfound, columnsAt?_cons_of_find? hfound'] at hcolumns

/-- Below two tries that agree lie tries that agree, in some order. -/
theorem exists_children (ht : t.IsSound) (hu : u.IsSound) (h : t.Agrees u) :
    ∃ middle, List.Forall₂ Agrees t.children middle ∧ middle.Perm u.children := by
  obtain ⟨-, hkeys, -⟩ := ht.siblings
  obtain ⟨-, hkeys', -⟩ := hu.siblings
  have hpartners : ∀ c ∈ t.children, ∃ d, d ∈ u.children ∧ d.key = c.key ∧ c.Agrees d :=
    fun c hc => h.exists_partner ht hu hc
  obtain ⟨middle, hmiddle⟩ := exists_forall₂ hpartners
  refine ⟨middle, hmiddle.imp fun c d hcd => hcd.2.2, ?_⟩
  have hsame : middle.map key = t.children.map key := by
    rw [← List.forall₂_eq_eq_eq, List.forall₂_map_left_iff, List.forall₂_map_right_iff]
    exact hmiddle.flip.imp fun d c hcd => hcd.2.1
  -- partners are told by their keys, and every key of the second trie is one of the first
  refine (List.perm_ext_iff_of_nodup (List.Nodup.of_map key (hsame ▸ hkeys))
    (List.Nodup.of_map key hkeys')).2 fun d => ⟨fun hd => ?_, fun hd => ?_⟩
  · obtain ⟨c, -, hmem, -⟩ := exists_left_of_forall₂ hmiddle hd
    exact hmem
  · obtain ⟨c, hc, hkey, -⟩ := h.symm.exists_partner hu ht hd
    have hlisted : c.key ∈ middle.map key := hsame ▸ List.mem_map_of_mem hc
    obtain ⟨e, he, hkey'⟩ := List.mem_map.1 hlisted
    obtain ⟨-, -, hmem, -⟩ := exists_left_of_forall₂ hmiddle he
    rwa [← List.inj_on_of_nodup_map hkeys' hmem hd (hkey'.trans hkey)]

end Agrees

/-! ## Trees of tries that agree -/

/-- The tree below a table is built from a trie. -/
def IsBuilt (path : String) (relations : List Relation) (parent : TableSegment) (t : Trie)
    (tree : TableTree) : Prop :=
  ∃ r, classify parent t.entry.step = .ok r ∧
    t.build (path ++ "/" ++ t.entry.step.key) (relations ++ [r]) = .ok tree

/-- The trees below a table are built one by one. -/
theorem buildList_eq_ok_iff {path : String} {relations : List Relation} {parent : TableSegment} :
    ∀ {l : List Trie} {trees : List TableTree}, buildList path relations parent l = .ok trees ↔
      List.Forall₂ (IsBuilt path relations parent) l trees
  | [], trees => by
    rw [buildList, List.forall₂_nil_left_iff]
    exact ⟨fun h => (Except.ok.inj h).symm, fun h => by rw [h]⟩
  | t :: rest, trees => by
    rw [List.forall₂_cons_left_iff]
    constructor
    · intro h
      obtain ⟨r, tree, others, rfl, hr, htree, hothers⟩ := buildList_cons h
      exact ⟨tree, others, ⟨r, hr, htree⟩, buildList_eq_ok_iff.1 hothers, rfl⟩
    · rintro ⟨tree, others, ⟨r, hr, htree⟩, hothers, rfl⟩
      rw [buildList, hr]
      refine bind_eq_ok.2 ⟨r, rfl, bind_eq_ok.2 ⟨tree, htree, ?_⟩⟩
      exact bind_eq_ok.2 ⟨others, buildList_eq_ok_iff.2 hothers, rfl⟩

mutual
/-- What can be built from a trie can be built up to order from any trie that agrees with it. -/
theorem exists_build_of_agrees : ∀ {t u : Trie} {path : String} {relations : List Relation}
    {tree : TableTree}, t.IsSound → u.IsSound → t.Agrees u → t.build path relations = .ok tree →
      ∃ other, u.build path relations = .ok other ∧ tree.Reordered other
  | .node entry children, .node entry' below, path, relations, tree, ht, hu, hagrees, h => by
    rw [build] at h
    obtain ⟨trees, htrees, rfl⟩ := map_eq_ok.1 h
    obtain ⟨middle, hmiddle, hperm⟩ := hagrees.exists_children ht hu
    have hstep : entry'.step = entry.step := hagrees.step_eq
    obtain ⟨others, hothers, hreordered⟩ := exists_buildList_of_agrees ht.siblings.1
      (fun d hd => hu.siblings.1 d (hperm.subset hd)) hmiddle htrees
    obtain ⟨moved, hmoved, hback⟩ :=
      List.perm_comp_forall₂ hperm.symm (buildList_eq_ok_iff.1 hothers)
    refine ⟨.node (entry'.table path relations) moved, ?_, .node ?_ ?_ hreordered hback.symm⟩
    · have hmoved : buildList path relations entry.step.segment below = .ok moved :=
        buildList_eq_ok_iff.2 hmoved
      rw [build, hstep, hmoved]
      rfl
    · rw [TrieEntry.table, TrieEntry.table, hstep]
    · have hcolumns := hagrees.columns []
      cases hcolumns with
      | some hall => exact hall

theorem exists_buildList_of_agrees : ∀ {l m : List Trie} {path : String}
    {relations : List Relation} {parent : TableSegment} {trees : List TableTree},
    (∀ c ∈ l, c.IsSound) → (∀ d ∈ m, d.IsSound) → List.Forall₂ Agrees l m →
      buildList path relations parent l = .ok trees →
      ∃ others, buildList path relations parent m = .ok others ∧
        List.Forall₂ TableTree.Reordered trees others
  | [], _, _, _, _, trees, _, _, .nil, h => ⟨[], rfl, by
    rw [buildList] at h
    rw [← Except.ok.inj h]
    exact .nil⟩
  | t :: rest, _, path, relations, parent, trees, hl, hm, .cons hagrees hrest, h => by
    obtain ⟨r, tree, others, rfl, hr, htree, hothers⟩ := buildList_cons h
    obtain ⟨ht, hl⟩ := List.forall_mem_cons.1 hl
    obtain ⟨hu, hm⟩ := List.forall_mem_cons.1 hm
    obtain ⟨other, hother, hfirst⟩ := exists_build_of_agrees ht hu hagrees htree
    obtain ⟨more, hmore, hreordered⟩ := exists_buildList_of_agrees hl hm hrest hothers
    refine ⟨other :: more, buildList_eq_ok_iff.2 (.cons ⟨r, ?_, ?_⟩ (buildList_eq_ok_iff.1 hmore)),
      .cons hfirst hreordered⟩
    · rw [hagrees.step_eq, hr]
    · rw [hagrees.step_eq, hother]
end

end Trie

/-! ## The root of all paths -/

/-- The way in which some paths together write their root table: as the one that has flags does, and
without such a one as the first does. -/
structure TableSegment.IsRootOf (roots : List TableSegment) (root : TableSegment) : Prop where
  mem : root ∈ roots
  name_eq : ∀ r ∈ roots, r.name = root.name
  raw_eq : ∀ r ∈ roots, r.hasFlags = true → r.raw = root.raw
  first : root.hasFlags = false → roots.head? = some root

namespace TableSegment.IsRootOf

variable {roots others : List TableSegment} {root other : TableSegment}

/-- A root table with flags is written in one way. -/
theorem eq_of_hasFlags (hwritten : ∀ r ∈ roots, r.IsWritten) (h : IsRootOf roots root)
    {r : TableSegment} (hr : r ∈ roots) (hflags : r.hasFlags = true) : r = root :=
  (hwritten r hr).eq_of_raw (hwritten root h.mem) (h.raw_eq r hr hflags)

/-- The order of the paths behind the first one does not count. -/
theorem unique (hwritten : ∀ r ∈ roots, r.IsWritten) (h : IsRootOf roots root)
    (h' : IsRootOf others other) (hsame : ∀ r, r ∈ roots ↔ r ∈ others)
    (hfirst : roots.head? = others.head?) : root = other := by
  cases hflags : root.hasFlags with
  | true =>
    have hwritten' : ∀ r ∈ others, r.IsWritten := fun r hr => hwritten r ((hsame r).2 hr)
    exact h'.eq_of_hasFlags hwritten' ((hsame root).1 h.mem) hflags
  | false =>
    cases hflags' : other.hasFlags with
    | true => exact (h.eq_of_hasFlags hwritten ((hsame other).2 h'.mem) hflags').symm
    | false =>
      have hheads := (h.first hflags).symm.trans (hfirst.trans (h'.first hflags'))
      exact Option.some.inj hheads

theorem congr (h : IsRootOf roots root) (hsame : ∀ r, r ∈ roots ↔ r ∈ others)
    (hfirst : roots.head? = others.head?) : IsRootOf others root where
  mem := (hsame root).1 h.mem
  name_eq r hr := h.name_eq r ((hsame r).2 hr)
  raw_eq r hr := h.raw_eq r ((hsame r).2 hr)
  first hflags := by rw [← hfirst, h.first hflags]

end TableSegment.IsRootOf

namespace Trie

open TableSegment

/-- The root table as it is written so far. -/
def top (t : Trie) : TableSegment := t.entry.step.segment

/-- No junction leads to the root, and its key is its text. -/
theorem step_addPaths {paths : List MappedPath} {start t : Trie}
    (hstart : start.entry.step = ⟨start.top.raw, start.top, none⟩)
    (h : paths.foldlM addPath start = .ok t) : t.entry.step = ⟨t.top.raw, t.top, none⟩ := by
  refine foldlM_induction (fun u => u.entry.step = ⟨u.top.raw, u.top, none⟩) hstart ?_ h
  intro u path next _ hu hnext
  obtain ⟨aligned, steps, haligned, -, rfl⟩ := addPath_eq_ok hnext
  rw [top, step_insert]
  obtain ⟨-, -, hstep | hstep⟩ := alignRoot_eq_ok haligned
  · rw [hstep]
    exact hu
  · rw [hstep]

/-- The root stays the one of all paths added. -/
theorem isRootOf_alignRoot {roots : List TableSegment} {first : TableSegment} {t aligned : Trie}
    (hwritten : ∀ r ∈ roots, r.IsWritten) (hkey : t.key = t.top.raw) (ht : IsRootOf roots t.top)
    (h : t.alignRoot first = .ok aligned) : IsRootOf (roots ++ [first]) aligned.top := by
  obtain ⟨hname, ⟨rfl, hgoes⟩ | ⟨rfl, hplain, hflags⟩⟩ := alignRoot_cases h
  · have hraw : first.hasFlags = true → first.raw = aligned.top.raw := fun hflags =>
      (hgoes.resolve_right (by simp [hflags])).trans hkey
    refine ⟨List.mem_append_left _ ht.mem, ?_, ?_, fun hnone => ?_⟩
    · exact List.forall_mem_append.2 ⟨ht.name_eq, List.forall_mem_singleton.2 hname⟩
    · exact List.forall_mem_append.2 ⟨ht.raw_eq, List.forall_mem_singleton.2 hraw⟩
    · rw [List.head?_append, ht.first hnone]
      rfl
  · show IsRootOf (roots ++ [first]) first
    refine ⟨List.mem_append_right _ List.mem_cons_self, ?_, ?_, fun hnone => ?_⟩
    · refine List.forall_mem_append.2 ⟨fun r hr => ?_, List.forall_mem_singleton.2 rfl⟩
      exact (ht.name_eq r hr).trans hname.symm
    · -- none of the paths before has flags, or the root would have had them
      refine List.forall_mem_append.2 ⟨fun r hr hr' => ?_, List.forall_mem_singleton.2 fun _ => rfl⟩
      rw [ht.eq_of_hasFlags hwritten hr hr', top, hplain] at hr'
      exact nomatch hr'
    · rw [hflags] at hnone
      exact nomatch hnone

/-- The root of a trie is the one of all paths added to it. -/
theorem isRootOf_addPaths : ∀ {paths : List MappedPath} {roots : List TableSegment}
    {start t : Trie}, (∀ r ∈ roots, r.IsWritten) → (∀ p ∈ paths, p.source.IsWritten) →
    start.IsRooted → IsRootOf roots start.top → paths.foldlM addPath start = .ok t →
      IsRootOf (roots ++ paths.map fun p => p.source.root) t.top
  | [], roots, start, t, _, _, _, hroot, h => by
    rw [List.foldlM_nil] at h
    rwa [List.map_nil, List.append_nil, ← pure_eq_ok.1 h]
  | path :: paths, roots, start, t, hroots, hpaths, hstart, hroot, h => by
    rw [List.foldlM_cons] at h
    obtain ⟨next, hnext, h⟩ := bind_eq_ok.1 h
    obtain ⟨hpath, hpaths⟩ := List.forall_mem_cons.1 hpaths
    have hwritten : ∀ r ∈ roots ++ [path.source.root], r.IsWritten :=
      List.forall_mem_append.2 ⟨hroots, List.forall_mem_singleton.2 (hpath _ List.mem_cons_self)⟩
    have hadded : IsRootOf (roots ++ [path.source.root]) next.top := by
      obtain ⟨aligned, steps, haligned, -, rfl⟩ := addPath_eq_ok hnext
      rw [top, step_insert]
      exact isRootOf_alignRoot hroots hstart.key_eq hroot haligned
    have hall := isRootOf_addPaths hwritten hpaths (hstart.addPath hpath hnext) hadded h
    rwa [List.append_assoc] at hall

/-- A path that goes along with the root of all paths can be added to a trie that does. -/
theorem exists_addPath {t : Trie} {path : MappedPath} {root : TableSegment} (hroot : root.IsWritten)
    (hkey : t.key = t.top.raw) (hname : t.top.name = root.name)
    (htop : t.top.hasFlags = true → t.top = root) (hpath : path.source.IsWritten)
    (hname' : path.source.root.name = root.name)
    (hraw : path.source.root.hasFlags = true → path.source.root.raw = root.raw)
    {way : List String} (hway : path.Goes way) : ∃ next, t.addPath path = .ok next ∧
      next.key = next.top.raw ∧ next.top.name = root.name ∧
        (next.top.hasFlags = true → next.top = root) := by
  obtain ⟨steps, hsteps, -⟩ := hway
  have haligned : ∃ aligned, t.alignRoot path.source.root = .ok aligned ∧
      aligned.key = aligned.top.raw ∧ aligned.top.name = root.name ∧
        (aligned.top.hasFlags = true → aligned.top = root) := by
    rcases t with ⟨entry, children⟩
    unfold alignRoot
    dsimp only
    rw [if_neg (not_not.2 (hname'.trans hname.symm : _ = entry.step.segment.name))]
    split
    · exact ⟨_, rfl, hkey, hname, htop⟩
    · rename_i hgoes
      rw [not_or, Bool.not_eq_true', Bool.not_eq_false] at hgoes
      have hfirst : path.source.root = root :=
        (hpath _ List.mem_cons_self).eq_of_raw hroot (hraw hgoes.2)
      rw [if_neg]
      · exact ⟨_, rfl, rfl, hname', fun _ => hfirst⟩
      · -- flags in the trie are those of the path, whose text would be the key then
        intro hflags
        refine hgoes.1 ?_
        rw [hfirst, ← htop hflags]
        exact hkey.symm
  obtain ⟨aligned, haligned, hkey', hname'', htop'⟩ := haligned
  refine ⟨aligned.insert path.source.raw path.columns steps, ?_, ?_⟩
  · refine mapError_eq_ok.2 (bind_eq_ok.2 ⟨aligned, haligned, bind_eq_ok.2 ⟨steps, hsteps, rfl⟩⟩)
  · rw [key, top, step_insert]
    exact ⟨hkey', hname'', htop'⟩

/-- Paths that go along with one root and each go some way can be added one after the other. -/
theorem exists_addPaths {root : TableSegment} (hroot : root.IsWritten) :
    ∀ {paths : List MappedPath} {start : Trie}, start.key = start.top.raw →
      start.top.name = root.name → (start.top.hasFlags = true → start.top = root) →
      (∀ p ∈ paths, p.source.IsWritten ∧ p.source.root.name = root.name ∧
        (p.source.root.hasFlags = true → p.source.root.raw = root.raw) ∧ ∃ way, p.Goes way) →
      ∃ t, paths.foldlM addPath start = .ok t
  | [], start, _, _, _, _ => ⟨start, rfl⟩
  | path :: paths, start, hkey, hname, htop, hpaths => by
    obtain ⟨⟨hpath, hname', hraw, way, hway⟩, hpaths⟩ := List.forall_mem_cons.1 hpaths
    obtain ⟨next, hnext, hkey', hname'', htop'⟩ :=
      exists_addPath hroot hkey hname htop hpath hname' hraw hway
    obtain ⟨t, ht⟩ := exists_addPaths hroot hkey' hname'' htop' hpaths
    exact ⟨t, by rw [List.foldlM_cons]; exact bind_eq_ok.2 ⟨next, hnext, ht⟩⟩

end Trie

/-! ## Paths in another order -/

namespace Trie

open TableSegment

/-- What merging paths makes, said without their order but for the first one. -/
structure IsMergeOf (paths : List MappedPath) (t : Trie) : Prop where
  sound : t.IsSound
  collects : t.Collects paths
  step_eq : t.entry.step = ⟨t.top.raw, t.top, none⟩
  isRootOf : IsRootOf (paths.map fun p => p.source.root) t.top

/-- A trie of the root of a path alone. -/
def seed (first : MappedPath) : Trie :=
  leaf ⟨first.source.root.raw, first.source.root, none⟩ first.source.raw

variable {first : MappedPath} {rest others : List MappedPath}

theorem isMergeOf_addPaths {t : Trie} (hwritten : ∀ p ∈ first :: rest, p.source.IsWritten)
    (h : (first :: rest).foldlM addPath (seed first) = .ok t) : t.IsMergeOf (first :: rest) := by
  have hfirst : first.source.root.IsWritten :=
    hwritten first List.mem_cons_self _ List.mem_cons_self
  have hrooted : (seed first).IsRooted := isRooted_leaf hfirst _
  have hstart : IsRootOf [first.source.root] (seed first).top :=
    ⟨List.mem_cons_self, List.forall_mem_singleton.2 rfl,
      List.forall_mem_singleton.2 fun _ => rfl, fun _ => rfl⟩
  have hroot := isRootOf_addPaths (List.forall_mem_singleton.2 hfirst) hwritten hrooted hstart h
  have hsound : t.IsRooted := foldlM_induction IsRooted hrooted
    (fun u p next hp hu hnext => hu.addPath (hwritten p hp) hnext) h
  refine ⟨hsound.sound, (collects_leaf _ _).addPaths h, step_addPaths rfl h, ?_⟩
  -- the root of the first path counts once only
  exact hroot.congr (fun r => by simp) rfl

namespace IsMergeOf

variable {t u : Trie}

theorem isWritten_top (hwritten : ∀ p ∈ first :: rest, p.source.IsWritten)
    (ht : t.IsMergeOf (first :: rest)) : t.top.IsWritten := by
  obtain ⟨p, hp, htop⟩ := List.mem_map.1 ht.isRootOf.mem
  rw [← htop]
  exact hwritten p hp _ List.mem_cons_self

/-- Tries made of the same paths in different orders agree. -/
theorem agrees (hwritten : ∀ p ∈ first :: rest, p.source.IsWritten) (hperm : rest.Perm others)
    (ht : t.IsMergeOf (first :: rest)) (hu : u.IsMergeOf (first :: others)) : t.Agrees u := by
  have hroots : ∀ r ∈ (first :: rest).map fun p => p.source.root, r.IsWritten := by
    intro r hr
    obtain ⟨p, hp, rfl⟩ := List.mem_map.1 hr
    exact hwritten p hp _ List.mem_cons_self
  have htop : t.top = u.top := ht.isRootOf.unique hroots hu.isRootOf
    (fun r => ((hperm.cons first).map _).mem_iff) rfl
  refine ht.collects.agrees hu.collects (fun p => (hperm.cons first).mem_iff) ?_
  rw [ht.step_eq, hu.step_eq, htop]

/-- Paths that were merged can be merged in any order behind the first one. -/
theorem exists_addPaths (hwritten : ∀ p ∈ first :: rest, p.source.IsWritten)
    (hperm : rest.Perm others) (ht : t.IsMergeOf (first :: rest))
    (hways : ∀ p ∈ first :: rest, ∃ way, p.Goes way) :
    ∃ u, (first :: others).foldlM addPath (seed first) = .ok u := by
  have hroot : ∀ p ∈ first :: rest, p.source.root.name = t.top.name ∧
      (p.source.root.hasFlags = true → p.source.root.raw = t.top.raw) := fun p hp =>
    have hmem := List.mem_map_of_mem (f := fun p : MappedPath => p.source.root) hp
    ⟨ht.isRootOf.name_eq _ hmem, ht.isRootOf.raw_eq _ hmem⟩
  obtain ⟨hname, hraw⟩ := hroot first List.mem_cons_self
  have hfirst : first.source.root.IsWritten :=
    hwritten first List.mem_cons_self _ List.mem_cons_self
  have htop := ht.isWritten_top hwritten
  have hkey : (seed first).key = (seed first).top.raw := rfl
  refine Trie.exists_addPaths htop hkey hname
    (fun hflags => hfirst.eq_of_raw htop (hraw hflags)) fun p hp => ?_
  have hold : p ∈ first :: rest := (hperm.cons first).mem_iff.2 hp
  exact ⟨hwritten p hold, (hroot p hold).1, (hroot p hold).2, hways p hold⟩

end IsMergeOf

end Trie

namespace TableTree

/-- The order of the paths behind the first one counts neither for whether a tree is derived nor for
the tree up to order. -/
theorem exists_derive_of_perm {first : MappedPath} {rest others : List MappedPath}
    {tree : TableTree} (hwritten : ∀ p ∈ first :: rest, p.source.IsWritten)
    (hperm : rest.Perm others) (h : derive (first :: rest) = .ok tree) :
    ∃ other, derive (first :: others) = .ok other ∧ tree.Reordered other := by
  obtain ⟨t, ht, hbuild⟩ := bind_eq_ok.1 h
  have hmerge := Trie.isMergeOf_addPaths hwritten ht
  have hways : ∀ p ∈ first :: rest, ∃ way, p.Goes way := by
    intro p hp
    obtain ⟨_, _, hstep⟩ := exists_step_of_foldlM_eq_ok ht p hp
    obtain ⟨way, hway, -⟩ := Trie.columnsAt?_addPath hstep
    exact ⟨way, hway⟩
  obtain ⟨u, hu⟩ := hmerge.exists_addPaths hwritten hperm hways
  have hwritten' : ∀ p ∈ first :: others, p.source.IsWritten := fun p hp =>
    hwritten p ((hperm.cons first).mem_iff.2 hp)
  have hmerge' := Trie.isMergeOf_addPaths hwritten' hu
  have hagrees := hmerge.agrees hwritten hperm hmerge'
  obtain ⟨other, hother, hreordered⟩ :=
    Trie.exists_build_of_agrees hmerge.sound hmerge'.sound hagrees hbuild
  refine ⟨other, bind_eq_ok.2 ⟨u, hu, ?_⟩, hreordered⟩
  rw [hagrees.step_eq]
  exact hother

/-- A feature type whose properties are listed in another order has the same tree up to order. -/
theorem exists_ofMapping_of_perm {m : FeatureMapping} {properties : List PropertyMapping}
    {tree : TableTree} (hperm : m.properties.Perm properties) (h : ofMapping m = .ok tree) :
    ∃ other, ofMapping { m with properties := properties } = .ok other ∧ tree.Reordered other := by
  obtain ⟨root, hroot, h⟩ := bind_eq_ok.1 h
  obtain ⟨paths, hpaths, hderive⟩ := bind_eq_ok.1 h
  have hread : ∀ p ∈ ⟨"", root, .value⟩ :: paths, ∃ text, SourcePath.read text = .ok p.source := by
    refine List.forall_mem_cons.2 ⟨⟨_, hroot⟩, fun p hp => ?_⟩
    obtain ⟨property, -, hpath⟩ := exists_of_mapM_eq_ok hpaths hp
    exact exists_read_of_mappedPath hpath
  obtain ⟨moved, hmoved, hback⟩ := exists_mapM_of_perm hperm hpaths
  obtain ⟨other, hother, hreordered⟩ :=
    exists_derive_of_perm (isWritten_of_reads hread) hback.symm hderive
  exact ⟨other, bind_eq_ok.2 ⟨root, hroot, bind_eq_ok.2 ⟨moved, hmoved, hother⟩⟩, hreordered⟩

/-- The order of the properties of a feature type does not matter: with its properties in any other
order the type has a tree exactly if it had one before, and the trees are the same up to the order
of columns and of children. -/
theorem ofMapping_perm {m : FeatureMapping} {properties : List PropertyMapping}
    (h : m.properties.Perm properties) :
    ((∃ tree, ofMapping m = .ok tree) ↔
        ∃ other, ofMapping { m with properties := properties } = .ok other) ∧
      ∀ tree other, ofMapping m = .ok tree →
        ofMapping { m with properties := properties } = .ok other → tree.Reordered other := by
  refine ⟨⟨?_, ?_⟩, fun tree other htree hother => ?_⟩
  · rintro ⟨tree, htree⟩
    obtain ⟨other, hother, -⟩ := exists_ofMapping_of_perm h htree
    exact ⟨other, hother⟩
  · rintro ⟨other, hother⟩
    have hback : { m with properties := properties }.properties.Perm m.properties := h.symm
    obtain ⟨tree, htree, -⟩ := exists_ofMapping_of_perm hback hother
    exact ⟨tree, htree⟩
  · obtain ⟨found, hfound, hreordered⟩ := exists_ofMapping_of_perm h htree
    rwa [Except.ok.inj (hother.symm.trans hfound)]

/-- Parcels with a number of properties, one of which gives the root table its sort key. -/
def parcelProperties : List PropertyMapping :=
  [⟨"name", "name", .value, none⟩, ⟨"city", "[id=parcel_id]address/city", .value, none⟩,
    ⟨"tag", "[id=parcel_id]parcel_2_tag/[tag_id=id]tag/label", .value, none⟩,
    ⟨"code", "/parcel\x7bsortKey=code\x7d/code", .id, none⟩,
    ⟨"street", "[id=parcel_id]address/street", .value, none⟩]

/-- The properties from the last to the first: the flags of the root come earlier, and the tables
and their columns in another order. -/
theorem ofMapping_perm_parcel :
    let m : FeatureMapping := ⟨"parcels", "parcel", parcelProperties⟩
    let columnsOf : TableTree → List (String × List String) := fun t =>
      t.tables.map fun table => (table.name, table.columns.map Column.name)
    ∃ tree other, m.properties.Perm parcelProperties.reverse ∧ ofMapping m = .ok tree ∧
      ofMapping { m with properties := parcelProperties.reverse } = .ok other ∧
      columnsOf tree =
        [("parcel", ["name", "code"]), ("address", ["city", "street"]), ("tag", ["label"])] ∧
      columnsOf other =
        [("parcel", ["code", "name"]), ("address", ["street", "city"]), ("tag", ["label"])] ∧
      tree.Reordered other := by
  intro m columnsOf
  have hperm : m.properties.Perm parcelProperties.reverse := (List.reverse_perm _).symm
  have hboth : (do
      let tree ← ofMapping m
      let other ← ofMapping { m with properties := parcelProperties.reverse }
      return (columnsOf tree, columnsOf other) : Except Error _).toOption = some
      ([("parcel", ["name", "code"]), ("address", ["city", "street"]), ("tag", ["label"])],
        [("parcel", ["code", "name"]), ("address", ["street", "city"]), ("tag", ["label"])]) := by
    decide +kernel
  obtain ⟨tree, htree, hboth⟩ := bind_eq_ok.1 (toOption_eq_some.1 hboth)
  obtain ⟨other, hother, hboth⟩ := bind_eq_ok.1 hboth
  obtain ⟨hcolumns, hcolumns'⟩ := Prod.mk.inj (pure_eq_ok.1 hboth)
  exact ⟨tree, other, hperm, htree, hother, hcolumns, hcolumns',
    (ofMapping_perm hperm).2 tree other htree hother⟩

end TableTree

end FeatureStore
