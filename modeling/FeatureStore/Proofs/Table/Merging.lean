import FeatureStore.Proofs.Table.Derived

/-!
# Merged paths

Which tables and columns a tree gets from the paths that are merged into it. A place of a trie is
known by the keys on the way to it, and what adding a path does is said by the columns at each
place (`Trie.columnsAt?_insert`): those at the end of the path get the columns of the path, places on
the way are made if they are missing, and all others stay as they are. So after any number of paths
the places are the beginnings of their ways, and a place has the columns of the paths that end there,
each once (`Trie.Collects`). The tables of the tree are the places of its trie
(`Trie.exists_table_of_columnsAt?`, `Trie.exists_keys_of_table`), and a way spells the texts of the
tables along it however a junction is taken together with the table behind it
(`pathBelow_keys`). Hence a tree has the tables and the columns of its paths and no
others (`TableTree.merges_of_derive`). None of this asks where the paths come from.
-/

set_option autoImplicit false

namespace FeatureStore

/-! ## Texts of ways -/

/-- The path of the table that some texts lead to from a table. -/
def pathBelow (root : String) (texts : List String) : String := "/".intercalate (root :: texts)

theorem pathBelow_cons (root text : String) (texts : List String) :
    pathBelow root (text :: texts) = pathBelow (root ++ "/" ++ text) texts := rfl

theorem pathBelow_append (root : String) (front back : List String) :
    pathBelow root (front ++ back) = pathBelow (pathBelow root front) back := by
  induction front generalizing root with
  | nil => rfl
  | cons text front ih => rw [List.cons_append, pathBelow_cons, pathBelow_cons, ih]

/-- The texts of the tables that a step consists of. -/
def Step.texts (s : Step) : List String := s.segments.map TableSegment.raw

/-- The key of a step spells the texts of its tables. -/
def Step.IsSpelled (s : Step) : Prop := ∀ root, pathBelow root [s.key] = pathBelow root s.texts

theorem Step.isSpelled_direct (segment : TableSegment) : IsSpelled ⟨segment.raw, segment, none⟩ :=
  fun _ => rfl

theorem Step.isSpelled_behind (segment target : TableSegment) :
    IsSpelled ⟨segment.raw ++ "/" ++ target.raw, target, some segment⟩ := by
  intro root
  show root ++ "/" ++ (segment.raw ++ "/" ++ target.raw) =
    root ++ "/" ++ segment.raw ++ "/" ++ target.raw
  simp only [String.append_assoc]

/-- The keys of steps spell the texts of the tables that they were made of. -/
theorem StepsAlong.isSpelled {segs : List TableSegment} {steps : List Step}
    (h : StepsAlong segs steps) : ∀ s ∈ steps, s.IsSpelled := by
  induction h with
  | nil => exact List.forall_mem_nil _
  | last _ => exact List.forall_mem_singleton.2 (Step.isSpelled_direct _)
  | direct _ _ _ ih => exact List.forall_mem_cons.2 ⟨Step.isSpelled_direct _, ih⟩
  | behind _ _ _ _ _ ih => exact List.forall_mem_cons.2 ⟨Step.isSpelled_behind _ _, ih⟩

/-- The keys along a way spell the texts of the tables along it. -/
theorem pathBelow_keys {steps : List Step} (h : ∀ s ∈ steps, s.IsSpelled) (root : String) :
    pathBelow root (steps.map Step.key) =
      pathBelow root ((steps.flatMap Step.segments).map TableSegment.raw) := by
  induction steps generalizing root with
  | nil => rfl
  | cons s steps ih =>
    obtain ⟨hs, hsteps⟩ := List.forall_mem_cons.1 h
    calc pathBelow root ((s :: steps).map Step.key)
        = pathBelow (pathBelow root [s.key]) (steps.map Step.key) := rfl
      _ = pathBelow (pathBelow root s.texts) (steps.map Step.key) := by rw [hs root]
      _ = pathBelow (pathBelow root s.texts)
            ((steps.flatMap Step.segments).map TableSegment.raw) := ih hsteps _
      _ = pathBelow root (((s :: steps).flatMap Step.segments).map TableSegment.raw) := by
          rw [List.flatMap_cons, List.map_append, pathBelow_append]
          rfl

/-! ## Columns added one by one -/

namespace Trie

theorem mem_addColumn {columns : List Column} {column c : Column} :
    c ∈ addColumn columns column ↔ c ∈ columns ∨ c = column := by
  rw [addColumn]
  split
  · rename_i hmem
    constructor
    · exact Or.inl
    · rintro (h | rfl)
      · exact h
      · exact hmem
  · simp

/-- All columns added are there, besides those from before. -/
theorem mem_foldl_addColumn {more columns : List Column} {c : Column} :
    c ∈ more.foldl addColumn columns ↔ c ∈ columns ∨ c ∈ more := by
  induction more generalizing columns with
  | nil => simp
  | cons column more ih => rw [List.foldl_cons, ih, mem_addColumn, List.mem_cons, or_assoc]

/-- No column is added twice. -/
theorem nodup_foldl_addColumn {more columns : List Column} (h : columns.Nodup) :
    (more.foldl addColumn columns).Nodup := by
  induction more generalizing columns with
  | nil => exact h
  | cons column more ih =>
    rw [List.foldl_cons]
    apply ih
    rw [addColumn]
    split
    · exact h
    · rename_i hnew
      exact List.Nodup.append h (List.nodup_singleton column) (by simpa using hnew)

/-! ## Columns at a place -/

/-- The columns at the place that some keys lead to, if there is one. -/
def columnsAt? : List String → Trie → Option (List Column)
  | [], t => some t.entry.columns
  | key :: rest, t =>
    match t.children.find? fun c => c.key = key with
    | some c => columnsAt? rest c
    | none => none

theorem columnsAt?_cons_of_find? {key : String} {rest : List String} {t c : Trie}
    (h : t.children.find? (fun c => c.key = key) = some c) :
    t.columnsAt? (key :: rest) = c.columnsAt? rest := by
  rw [columnsAt?, h]

theorem columnsAt?_cons_of_find?_none {key : String} {rest : List String} {t : Trie}
    (h : t.children.find? (fun c => c.key = key) = none) : t.columnsAt? (key :: rest) = none := by
  rw [columnsAt?, h]

/-- Columns and children alone tell the columns at all places. -/
theorem columnsAt?_congr {t u : Trie} (hcolumns : u.entry.columns = t.entry.columns)
    (hchildren : u.children = t.children) (keys : List String) :
    u.columnsAt? keys = t.columnsAt? keys := by
  cases keys with
  | nil => rw [columnsAt?, columnsAt?, hcolumns]
  | cons key rest => rw [columnsAt?, columnsAt?, hchildren]

/-- After a change at a key, the trie with that key is the changed one. -/
theorem find?_updateAt_self {name : String} {new : Trie} {change : Trie → Trie}
    (hnew : new.key = name) (hchange : ∀ t, (change t).key = t.key) (l : List Trie) :
    (updateAt name new change l).find? (fun c => c.key = name) =
      some (change ((l.find? fun c => c.key = name).getD new)) := by
  induction l with
  | nil =>
    have hkey : (change new).key = name := by rw [hchange, hnew]
    rw [updateAt, List.find?_cons_of_pos (by simpa using hkey)]
    rfl
  | cons t rest ih =>
    by_cases ht : t.key = name
    · have hkey : (change t).key = name := by rw [hchange, ht]
      rw [updateAt, if_pos (show t.entry.step.key = name from ht),
        List.find?_cons_of_pos (by simpa using hkey), List.find?_cons_of_pos (by simpa using ht)]
      rfl
    · rw [updateAt, if_neg (show ¬ t.entry.step.key = name from ht),
        List.find?_cons_of_neg (by simpa using ht), List.find?_cons_of_neg (by simpa using ht), ih]

/-- After a change at a key, the tries with other keys are the same. -/
theorem find?_updateAt_of_ne {name other : String} {new : Trie} {change : Trie → Trie}
    (hnew : new.key = name) (hchange : ∀ t, (change t).key = t.key) (hne : name ≠ other)
    (l : List Trie) :
    (updateAt name new change l).find? (fun c => c.key = other) =
      l.find? fun c => c.key = other := by
  induction l with
  | nil =>
    have hkey : ¬ (change new).key = other := by rwa [hchange, hnew]
    rw [updateAt, List.find?_cons_of_neg (by simpa using hkey)]
  | cons t rest ih =>
    by_cases ht : t.key = name
    · have hkey : ¬ (change t).key = other := by rwa [hchange, ht]
      have hkey' : ¬ t.key = other := by rwa [ht]
      rw [updateAt, if_pos (show t.entry.step.key = name from ht),
        List.find?_cons_of_neg (by simpa using hkey), List.find?_cons_of_neg (by simpa using hkey')]
    · rw [updateAt, if_neg (show ¬ t.entry.step.key = name from ht), List.find?_cons,
        List.find?_cons, ih]

theorem columnsAt?_leaf (step : Step) (origin : String) (keys : List String) :
    (leaf step origin).columnsAt? keys = if keys = [] then some [] else none := by
  cases keys with
  | nil => rfl
  | cons key rest => rfl

/-- Adding columns leaves the key of a trie. -/
theorem key_insert (origin : String) (columns : List Column) (steps : List Step) (t : Trie) :
    (t.insert origin columns steps).key = t.key := by
  rw [key, step_insert, key]

/-- The columns at a place below the first step are added to the trie that this step leads to. -/
theorem columnsAt?_insert_self (origin : String) (columns : List Column) (step : Step)
    (rest : List Step) (t : Trie) (keys : List String) :
    (t.insert origin columns (step :: rest)).columnsAt? (step.key :: keys) =
      (insert origin columns rest
        ((t.children.find? fun c => c.key = step.key).getD (leaf step origin))).columnsAt? keys := by
  rcases t with ⟨entry, children⟩
  have hleaf : (leaf step origin).key = step.key := rfl
  exact columnsAt?_cons_of_find?
    (find?_updateAt_self hleaf (key_insert origin columns rest) children)

/-- The columns at a place that the first step does not lead to stay the same. -/
theorem columnsAt?_insert_of_ne (origin : String) (columns : List Column) {step : Step}
    (rest : List Step) (t : Trie) {key : String} (hne : step.key ≠ key) (keys : List String) :
    (t.insert origin columns (step :: rest)).columnsAt? (key :: keys) =
      t.columnsAt? (key :: keys) := by
  rcases t with ⟨entry, children⟩
  have hleaf : (leaf step origin).key = step.key := rfl
  have hsame := find?_updateAt_of_ne hleaf (key_insert origin columns rest) hne children
  cases hold : children.find? fun c => c.key = key with
  | some c =>
    have hnew := hsame.trans hold
    have hafter : (insert origin columns (step :: rest) (.node entry children)).columnsAt?
        (key :: keys) = c.columnsAt? keys := columnsAt?_cons_of_find? hnew
    have hbefore : (node entry children).columnsAt? (key :: keys) = c.columnsAt? keys :=
      columnsAt?_cons_of_find? hold
    rw [hafter, hbefore]
  | none =>
    have hnew := hsame.trans hold
    have hafter : (insert origin columns (step :: rest) (.node entry children)).columnsAt?
        (key :: keys) = none := columnsAt?_cons_of_find?_none hnew
    have hbefore : (node entry children).columnsAt? (key :: keys) = none :=
      columnsAt?_cons_of_find?_none hold
    rw [hafter, hbefore]

/-- What adding columns behind some steps does: they are added at the end, the places on the way are
there, and the columns at all other places stay the same. -/
theorem columnsAt?_insert (origin : String) (columns : List Column) :
    ∀ (steps : List Step) (t : Trie) (keys : List String),
      (t.insert origin columns steps).columnsAt? keys =
        if keys = steps.map Step.key then
          some (columns.foldl addColumn ((t.columnsAt? keys).getD []))
        else if keys <+: steps.map Step.key then some ((t.columnsAt? keys).getD [])
        else t.columnsAt? keys
  | [], .node entry children, [] => rfl
  | [], .node entry children, key :: keys => by
    rw [List.map_nil, if_neg (List.cons_ne_nil _ _), if_neg (by simp)]
    rfl
  | step :: rest, .node entry children, [] => by
    rw [if_neg (by simp), if_pos List.nil_prefix]
    rfl
  | step :: rest, t, key :: keys => by
    rw [List.map_cons]
    by_cases hkey : step.key = key
    · -- the way goes on in the trie with the key, which may be a new one
      subst hkey
      rw [columnsAt?_insert_self, columnsAt?_insert origin columns rest]
      simp only [List.cons.injEq, true_and, List.cons_prefix_cons]
      cases hold : t.children.find? fun c => c.key = step.key with
      | some c => rw [columnsAt?_cons_of_find? hold, Option.getD_some]
      | none =>
        rw [columnsAt?_cons_of_find?_none hold, Option.getD_none, columnsAt?_leaf]
        cases keys with
        | nil => simp
        | cons next keys => simp
    · -- the way parts from the key
      have hne : key ≠ step.key := Ne.symm hkey
      rw [columnsAt?_insert_of_ne origin columns rest t hkey, if_neg (by simp [hne]),
        if_neg (by simp [hne])]

/-! ## Columns of several paths -/

end Trie

/-- The keys on the way that a path goes. -/
def MappedPath.Goes (path : MappedPath) (way : List String) : Prop :=
  ∃ steps, stepsOf path.source.nested = .ok steps ∧ way = steps.map Step.key

/-- A path goes one way only. -/
theorem MappedPath.Goes.unique {path : MappedPath} {way other : List String} (h : path.Goes way)
    (h' : path.Goes other) : way = other := by
  obtain ⟨steps, hsteps, rfl⟩ := h
  obtain ⟨steps', hsteps', rfl⟩ := h'
  rw [Except.ok.inj (hsteps.symm.trans hsteps')]

namespace Trie

/-- The trie is made of some paths: its places are the beginnings of their ways, and a place has the
columns of the paths that end there, each once. -/
structure Collects (paths : List MappedPath) (t : Trie) : Prop where
  isSome_iff : ∀ keys, (t.columnsAt? keys).isSome = true ↔
    keys = [] ∨ ∃ path ∈ paths, ∃ way, path.Goes way ∧ keys <+: way
  mem_iff : ∀ keys c, c ∈ (t.columnsAt? keys).getD [] ↔
    ∃ path ∈ paths, path.Goes keys ∧ c ∈ path.columns
  nodup : ∀ keys, ((t.columnsAt? keys).getD []).Nodup

theorem collects_leaf (step : Step) (origin : String) : (leaf step origin).Collects [] where
  isSome_iff keys := by
    rw [columnsAt?_leaf]
    by_cases h : keys = [] <;> simp [h]
  mem_iff keys c := by
    rw [columnsAt?_leaf]
    by_cases h : keys = [] <;> simp [h]
  nodup keys := by
    rw [columnsAt?_leaf]
    by_cases h : keys = [] <;> simp [h]

/-- What adding a path does to the columns at each place. -/
theorem columnsAt?_addPath {t next : Trie} {path : MappedPath} (h : t.addPath path = .ok next) :
    ∃ way, path.Goes way ∧ ∀ keys, next.columnsAt? keys =
      if keys = way then some (path.columns.foldl addColumn ((t.columnsAt? keys).getD []))
      else if keys <+: way then some ((t.columnsAt? keys).getD [])
      else t.columnsAt? keys := by
  obtain ⟨aligned, steps, haligned, hsteps, rfl⟩ := addPath_eq_ok h
  obtain ⟨hcolumns, hchildren, -⟩ := alignRoot_eq_ok haligned
  refine ⟨steps.map Step.key, ⟨steps, hsteps, rfl⟩, fun keys => ?_⟩
  rw [columnsAt?_insert, columnsAt?_congr hcolumns hchildren]

/-- A path added is one more path that the trie is made of. -/
theorem Collects.addPath {paths : List MappedPath} {t next : Trie} {path : MappedPath}
    (ht : t.Collects paths) (h : t.addPath path = .ok next) : next.Collects (paths ++ [path]) := by
  obtain ⟨way, hway, hnext⟩ := columnsAt?_addPath h
  constructor
  · intro keys
    have hold := ht.isSome_iff keys
    -- the new places are the beginnings of the way
    have hnew : (next.columnsAt? keys).isSome = true ↔
        (t.columnsAt? keys).isSome = true ∨ keys <+: way := by
      rw [hnext]
      by_cases heq : keys = way
      · simp [heq]
      · by_cases hpre : keys <+: way <;> simp [heq, hpre]
    rw [hnew, hold]
    simp only [List.mem_append, List.mem_singleton, or_and_right, exists_or, exists_eq_left,
      or_assoc]
    refine or_congr_right (or_congr_right ⟨fun hpre => ⟨way, hway, hpre⟩, ?_⟩)
    rintro ⟨other, hother, hpre⟩
    rwa [hway.unique hother]
  · intro keys c
    have hold := ht.mem_iff keys c
    have hnew : c ∈ (next.columnsAt? keys).getD [] ↔
        c ∈ (t.columnsAt? keys).getD [] ∨ (keys = way ∧ c ∈ path.columns) := by
      rw [hnext]
      by_cases heq : keys = way
      · rw [if_pos heq, Option.getD_some, mem_foldl_addColumn]
        simp [heq]
      · by_cases hpre : keys <+: way <;> simp [heq, hpre]
    rw [hnew, hold]
    simp only [List.mem_append, List.mem_singleton, or_and_right, exists_or, exists_eq_left]
    refine or_congr_right (and_congr_left fun _ => ⟨?_, fun hgoes => hgoes.unique hway⟩)
    rintro rfl
    exact hway
  · intro keys
    have hold := ht.nodup keys
    rw [hnext]
    by_cases heq : keys = way
    · rw [if_pos heq]
      exact nodup_foldl_addColumn hold
    · rw [if_neg heq]
      split <;> exact hold

/-- After a run of additions, the trie is made of all paths added. -/
theorem Collects.addPaths : ∀ {paths before : List MappedPath} {start t : Trie},
    start.Collects before → paths.foldlM Trie.addPath start = .ok t → t.Collects (before ++ paths)
  | [], before, start, t, hstart, h => by
    rw [List.foldlM_nil] at h
    rwa [List.append_nil, ← pure_eq_ok.1 h]
  | path :: paths, before, start, t, hstart, h => by
    rw [List.foldlM_cons] at h
    obtain ⟨next, hnext, h⟩ := bind_eq_ok.1 h
    have hall := Collects.addPaths (hstart.addPath hnext) h
    rwa [List.append_assoc] at hall

/-! ## Keys of siblings -/

/-- Siblings have different keys, everywhere in the trie. -/
inductive HasDistinctKeys : Trie → Prop
  | node {entry : TrieEntry} {children : List Trie} :
      (∀ c ∈ children, HasDistinctKeys c) → (children.map key).Nodup →
      HasDistinctKeys (.node entry children)

theorem hasDistinctKeys_leaf (step : Step) (origin : String) : (leaf step origin).HasDistinctKeys :=
  .node (by simp) (by simp)

theorem HasDistinctKeys.of_children {t u : Trie} (h : t.HasDistinctKeys)
    (hc : u.children = t.children) : u.HasDistinctKeys := by
  rcases t with ⟨entry, children⟩
  rcases u with ⟨other, below⟩
  obtain rfl : below = children := hc
  cases h with
  | node hsub hkeys => exact .node hsub hkeys

/-- Adding columns behind some steps keeps the keys of siblings different. -/
theorem HasDistinctKeys.insert (origin : String) (columns : List Column) :
    ∀ (steps : List Step) {t : Trie}, t.HasDistinctKeys →
      (t.insert origin columns steps).HasDistinctKeys
  | [], .node entry children, .node hsub hkeys => .node hsub hkeys
  | step :: rest, .node entry children, .node hsub hkeys => by
    have hleaf : (leaf step origin).key = step.key := rfl
    refine .node (fun c hc => ?_)
      (nodup_updateAt hleaf (key_insert origin columns rest) hkeys)
    rcases mem_updateAt hc with hc | ⟨t, ⟨ht, -⟩ | rfl, rfl⟩
    · exact hsub c hc
    · exact HasDistinctKeys.insert origin columns rest (hsub t ht)
    · exact HasDistinctKeys.insert origin columns rest (hasDistinctKeys_leaf step origin)

theorem HasDistinctKeys.addPath {t next : Trie} {path : MappedPath} (ht : t.HasDistinctKeys)
    (h : t.addPath path = .ok next) : next.HasDistinctKeys := by
  obtain ⟨aligned, steps, haligned, -, rfl⟩ := addPath_eq_ok h
  obtain ⟨-, hchildren, -⟩ := alignRoot_eq_ok haligned
  exact (ht.of_children hchildren).insert path.source.raw path.columns steps

/-! ## Tables and places -/

/-- The trees of the tries below a table are among those built. -/
theorem exists_build_of_mem {path : String} {relations : List Relation} {parent : TableSegment}
    {c : Trie} : ∀ {l : List Trie} {trees : List TableTree},
      buildList path relations parent l = .ok trees → c ∈ l →
        ∃ below tree, c.build (path ++ "/" ++ c.key) below = .ok tree ∧
          ∀ table ∈ tree.tables, table ∈ TableTree.tablesOfList trees
  | [], _, _, hc => by simp at hc
  | t :: rest, trees, h, hc => by
    obtain ⟨r, tree, others, rfl, -, htree, hothers⟩ := buildList_cons h
    rw [TableTree.tablesOfList]
    rcases List.mem_cons.1 hc with rfl | hc
    · exact ⟨_, tree, htree, fun table htable => List.mem_append_left _ htable⟩
    · obtain ⟨below, sub, hsub, hall⟩ := exists_build_of_mem hothers hc
      exact ⟨below, sub, hsub, fun table htable => List.mem_append_right _ (hall table htable)⟩

/-- Every place of a trie is a table of its tree. -/
theorem exists_table_of_columnsAt? : ∀ {keys : List String} {t : Trie} {path : String}
    {relations : List Relation} {tree : TableTree} {columns : List Column},
    t.build path relations = .ok tree → t.columnsAt? keys = some columns →
      ∃ table ∈ tree.tables, table.path = pathBelow path keys ∧ table.columns = columns ∧
        (keys = [] → table = tree.root)
  | [], t, path, relations, tree, columns, h, hcolumns => by
    have hroot := root_of_build h
    rcases tree with ⟨table, children⟩
    refine ⟨table, List.mem_cons_self, ?_, ?_, fun _ => rfl⟩
    · rw [show table = _ from hroot]
      rfl
    · rw [show table = _ from hroot]
      exact Option.some.inj hcolumns
  | key :: keys, .node entry children, path, relations, tree, columns, h, hcolumns => by
    rw [build] at h
    obtain ⟨trees, htrees, rfl⟩ := map_eq_ok.1 h
    cases hfound : children.find? fun c => c.key = key with
    | none =>
      have hnone : (node entry children).columnsAt? (key :: keys) = none :=
        columnsAt?_cons_of_find?_none hfound
      rw [hnone] at hcolumns
      simp at hcolumns
    | some c =>
      have hbelow : (node entry children).columnsAt? (key :: keys) = c.columnsAt? keys :=
        columnsAt?_cons_of_find? hfound
      rw [hbelow] at hcolumns
      obtain rfl : c.key = key := by simpa using List.find?_some hfound
      obtain ⟨below, sub, hsub, hall⟩ :=
        exists_build_of_mem htrees (List.mem_of_find?_eq_some hfound)
      obtain ⟨table, htable, hpath, hcols, -⟩ := exists_table_of_columnsAt? hsub hcolumns
      refine ⟨table, List.mem_cons_of_mem _ (hall table htable), hpath, hcols, ?_⟩
      intro hnil
      simp at hnil

mutual
/-- Every table of a tree is a place of its trie. -/
theorem exists_keys_of_table : ∀ {t : Trie} {path : String} {relations : List Relation}
    {tree : TableTree} {table : Table}, t.HasDistinctKeys → t.build path relations = .ok tree →
    table ∈ tree.tables → ∃ keys, table.path = pathBelow path keys ∧
      t.columnsAt? keys = some table.columns ∧ (keys = [] → table = tree.root)
  | .node entry children, path, relations, tree, table, .node hsub hkeys, h, htable => by
    rw [build] at h
    obtain ⟨trees, htrees, rfl⟩ := map_eq_ok.1 h
    rcases List.mem_cons.1 htable with rfl | htable
    · exact ⟨[], rfl, rfl, fun _ => rfl⟩
    · obtain ⟨c, hc, keys, hpath, hcolumns⟩ := exists_keys_of_tableBelow hsub htrees htable
      refine ⟨c.key :: keys, hpath, ?_, fun hnil => absurd hnil (List.cons_ne_nil _ _)⟩
      -- the keys of siblings differ, so the key leads to this one
      have hfound : (node entry children).children.find? (fun d => d.key = c.key) = some c :=
        find?_of_nodup_map hkeys hc
      rw [columnsAt?_cons_of_find? hfound, hcolumns]

theorem exists_keys_of_tableBelow : ∀ {l : List Trie} {path : String} {relations : List Relation}
    {parent : TableSegment} {trees : List TableTree} {table : Table},
    (∀ c ∈ l, c.HasDistinctKeys) → buildList path relations parent l = .ok trees →
    table ∈ TableTree.tablesOfList trees → ∃ c ∈ l, ∃ keys,
      table.path = pathBelow path (c.key :: keys) ∧ c.columnsAt? keys = some table.columns
  | [], _, _, _, trees, _, _, h, htable => by
    rw [buildList] at h
    obtain rfl := Except.ok.inj h
    simp [TableTree.tablesOfList] at htable
  | t :: rest, path, relations, parent, trees, table, hsub, h, htable => by
    obtain ⟨r, tree, others, rfl, -, htree, hothers⟩ := buildList_cons h
    obtain ⟨ht, hsub⟩ := List.forall_mem_cons.1 hsub
    rw [TableTree.tablesOfList] at htable
    rcases List.mem_append.1 htable with htable | htable
    · obtain ⟨keys, hpath, hcolumns, -⟩ := exists_keys_of_table ht htree htable
      exact ⟨t, List.mem_cons_self, keys, hpath, hcolumns⟩
    · obtain ⟨c, hc, keys, hpath, hcolumns⟩ := exists_keys_of_tableBelow hsub hothers htable
      exact ⟨c, List.mem_cons_of_mem _ hc, keys, hpath, hcolumns⟩
end

end Trie

/-! ## Derived trees -/

namespace TableTree

/-- The path of the table that some tables of a source path lead to from the root. -/
def pathAlong (tree : TableTree) (segs : List TableSegment) : String :=
  pathBelow tree.root.path (segs.map TableSegment.raw)

/-- A place on the way of a path is where some of its tables, from the first on, lead to. -/
theorem exists_segments_of_goes {path : MappedPath} {way keys : List String} (tree : TableTree)
    (h : path.Goes way) (hkeys : keys <+: way) :
    ∃ front back, path.source.nested = front ++ back ∧ (front = [] → keys = []) ∧
      pathBelow tree.root.path keys = tree.pathAlong front := by
  obtain ⟨steps, hsteps, rfl⟩ := h
  have halong := stepsAlong_of_stepsOf hsteps
  -- the first steps lead to the place
  have htake : keys = (steps.take keys.length).map Step.key := by
    rw [List.map_take]
    exact List.prefix_iff_eq_take.1 hkeys
  refine ⟨(steps.take keys.length).flatMap Step.segments,
    (steps.drop keys.length).flatMap Step.segments, ?_, ?_, ?_⟩
  · rw [← List.flatMap_append, List.take_append_drop, halong.flatMap_segments]
  · intro hnil
    rw [htake, List.map_eq_nil_iff]
    cases hsome : steps.take keys.length with
    | nil => rfl
    | cons s rest =>
      rw [hsome, List.flatMap_cons] at hnil
      simp [Step.segments] at hnil
  · calc pathBelow tree.root.path keys
        = pathBelow tree.root.path ((steps.take keys.length).map Step.key) := by rw [← htake]
      _ = tree.pathAlong ((steps.take keys.length).flatMap Step.segments) :=
          pathBelow_keys (fun s hs => halong.isSpelled s (List.mem_of_mem_take hs)) _

/-- The way of a path leads to where all of its tables lead to. -/
theorem pathBelow_of_goes {path : MappedPath} {way : List String} (tree : TableTree)
    (h : path.Goes way) : pathBelow tree.root.path way = tree.pathAlong path.source.nested := by
  obtain ⟨steps, hsteps, rfl⟩ := h
  have halong := stepsAlong_of_stepsOf hsteps
  rw [pathBelow_keys halong.isSpelled, halong.flatMap_segments]
  rfl

/-- A tree is built from a trie that its paths were merged into, each along its way. -/
theorem exists_collects_of_derive {paths : List MappedPath} {tree : TableTree}
    (h : derive paths = .ok tree) : ∃ t : Trie, t.Collects paths ∧ t.HasDistinctKeys ∧
      t.build tree.root.path [] = .ok tree ∧ ∀ path ∈ paths, ∃ way, path.Goes way := by
  obtain ⟨first, rest, t, rfl, ht, hbuild⟩ := derive_eq_ok h
  have hroot : tree.root.path = t.entry.step.key := by
    rw [Trie.root_of_build hbuild]
    rfl
  refine ⟨t, (Trie.collects_leaf _ _).addPaths ht, ?_, by rw [hroot, hbuild], ?_⟩
  · refine foldlM_induction Trie.HasDistinctKeys ?_ ?_ ht
    · exact Trie.hasDistinctKeys_leaf _ _
    · intro u p next _ hu hnext
      exact hu.addPath hnext
  · intro path hpath
    obtain ⟨u, next, hnext⟩ := exists_step_of_foldlM_eq_ok ht path hpath
    obtain ⟨way, hway, -⟩ := Trie.columnsAt?_addPath hnext
    exact ⟨way, hway⟩

/-- A derived tree has the tables and columns of its paths and no others: every path leads to a table
with all of its columns; every table but the root lies on the way of some path; every column of a
table comes from a path that ends there; and no table has a column twice. -/
theorem merges_of_derive {paths : List MappedPath} {tree : TableTree}
    (h : derive paths = .ok tree) :
    (∀ path ∈ paths, ∃ t ∈ tree.tables, t.path = tree.pathAlong path.source.nested ∧
        (path.source.nested = [] → t = tree.root) ∧
        ∀ name ∈ path.source.columns, ⟨name, path.property, path.kind⟩ ∈ t.columns) ∧
      (∀ t ∈ tree.tables, t = tree.root ∨
        ∃ path ∈ paths, ∃ front back, path.source.nested = front ++ back ∧ front ≠ [] ∧
          t.path = tree.pathAlong front) ∧
      (∀ t ∈ tree.tables, ∀ c ∈ t.columns,
        ∃ path ∈ paths, t.path = tree.pathAlong path.source.nested ∧
          ∃ name ∈ path.source.columns, c = ⟨name, path.property, path.kind⟩) ∧
      ∀ t ∈ tree.tables, t.columns.Nodup := by
  obtain ⟨trie, hcollects, hdistinct, hbuild, hways⟩ := exists_collects_of_derive h
  refine ⟨fun path hpath => ?_, fun t ht => ?_, fun t ht c hc => ?_, fun t ht => ?_⟩
  · -- the way of a path leads to a table, which has its columns
    obtain ⟨way, hway⟩ := hways path hpath
    have hplace : (trie.columnsAt? way).isSome = true :=
      (hcollects.isSome_iff way).2 (Or.inr ⟨path, hpath, way, hway, List.prefix_rfl⟩)
    obtain ⟨columns, hcolumns⟩ := Option.isSome_iff_exists.1 hplace
    obtain ⟨t, ht, hat, rfl, hroot⟩ := Trie.exists_table_of_columnsAt? hbuild hcolumns
    refine ⟨t, ht, hat.trans (pathBelow_of_goes tree hway), fun hnil => hroot ?_, ?_⟩
    · obtain ⟨steps, hsteps, rfl⟩ := hway
      rw [hnil] at hsteps
      rw [← Except.ok.inj hsteps]
      rfl
    · intro name hname
      have hmem := (hcollects.mem_iff way ⟨name, path.property, path.kind⟩).2
        ⟨path, hpath, hway, List.mem_map_of_mem hname⟩
      rwa [hcolumns] at hmem
  · -- a table other than the root stands on the way of some path
    obtain ⟨keys, hkeys, hcolumns, hroot⟩ := Trie.exists_keys_of_table hdistinct hbuild ht
    have hplace : (trie.columnsAt? keys).isSome = true := by
      rw [hcolumns]
      rfl
    rcases (hcollects.isSome_iff keys).1 hplace with hnil | ⟨path, hpath, way, hway, hprefix⟩
    · exact Or.inl (hroot hnil)
    · obtain ⟨front, back, hnested, hfront, halong⟩ := exists_segments_of_goes tree hway hprefix
      by_cases hnil : front = []
      · exact Or.inl (hroot (hfront hnil))
      · exact Or.inr ⟨path, hpath, front, back, hnested, hnil, hkeys.trans halong⟩
  · -- a column comes from a path that ends at its table
    obtain ⟨keys, hkeys, hcolumns, -⟩ := Trie.exists_keys_of_table hdistinct hbuild ht
    have hmem : c ∈ (trie.columnsAt? keys).getD [] := by
      rw [hcolumns]
      exact hc
    obtain ⟨path, hpath, hgoes, hc⟩ := (hcollects.mem_iff keys c).1 hmem
    obtain ⟨name, hname, rfl⟩ := List.mem_map.1 hc
    exact ⟨path, hpath, hkeys.trans (pathBelow_of_goes tree hgoes), name, hname, rfl⟩
  · obtain ⟨keys, -, hcolumns, -⟩ := Trie.exists_keys_of_table hdistinct hbuild ht
    have hnodup := hcollects.nodup keys
    rwa [hcolumns] at hnodup

/-- Paths that share a table, one of which ends there and gives the root its flags; a column that two
paths name for one property; and a junction between two tables. -/
theorem merges_of_derive_address :
    let texts := ["parcel/[id=parcel_id]address/street", "parcel{sortKey=code}/[id=parcel_id]address",
      "parcel/[id=parcel_id]address/[id=address_id]address_2_line/[line_id=id]line/text:text"]
    ∃ paths tree, texts.mapM MappedPath.read = .ok paths ∧ derive paths = .ok tree ∧
      tree.tables.map (fun t => (t.path, t.columns.map Column.name)) =
        [("parcel{sortKey=code}", []), ("parcel{sortKey=code}/[id=parcel_id]address", ["street"]),
          ("parcel{sortKey=code}/[id=parcel_id]address/[id=address_id]address_2_line/[line_id=id]line",
            ["text"])] ∧
      (∀ path ∈ paths, ∃ t ∈ tree.tables, t.path = tree.pathAlong path.source.nested ∧
        ∀ name ∈ path.source.columns, ⟨name, path.property, path.kind⟩ ∈ t.columns) ∧
      ∀ t ∈ tree.tables, t.columns.Nodup := by
  intro texts
  have htables : (do
      let paths ← texts.mapM MappedPath.read
      let tree ← derive paths
      return tree.tables.map fun t => (t.path, t.columns.map Column.name) :
        Except Error (List (String × List String))).toOption =
      some [("parcel{sortKey=code}", []), ("parcel{sortKey=code}/[id=parcel_id]address", ["street"]),
        ("parcel{sortKey=code}/[id=parcel_id]address/[id=address_id]address_2_line/[line_id=id]line",
          ["text"])] := by
    decide +kernel
  obtain ⟨paths, hpaths, hok⟩ := bind_eq_ok.1 (toOption_eq_some.1 htables)
  obtain ⟨tree, htree, hok⟩ := bind_eq_ok.1 hok
  obtain ⟨hcomplete, -, -, hnodup⟩ := merges_of_derive htree
  refine ⟨paths, tree, hpaths, htree, pure_eq_ok.1 hok, fun path hpath => ?_, hnodup⟩
  obtain ⟨t, ht, halong, -, hcolumns⟩ := hcomplete path hpath
  exact ⟨t, ht, halong, hcolumns⟩

end TableTree

end FeatureStore
