import FeatureStore.Proofs.Table.Prefixes
import FeatureStore.Proofs.Write.Blocks
import FeatureStore.Proofs.Write.Kept

/-!
# The table that a value goes to

A value is set on the deepest table whose path begins its path, of equally deep ones on the last
(`Staging.resolve?_eq_some`). The table with the longest such path lies no higher than the others,
but another one may lie as deep: a junction that is a table by itself, beside the same junction
together with the table behind it. If that one has the greater number, it is chosen
(`not_choosesLongest_tag`); otherwise values go to the table with the longest path, in whatever
order the tables come (`addValue_choosesLongest_iff`).
-/

set_option autoImplicit false

namespace FeatureStore

/-- The number of segments of a path. -/
def segmentCount (path : String) : Nat :=
  match segments (dropSlashes path.toList) with
  | .ok parts => parts.length
  | .error _ => 0

/-! ## Paths that begin a path -/

namespace Arena

/-- The path of the table begins the path, and it has more segments than any other that does. -/
def IsLongestPrefix (a : Arena) (path : String) (k : Nat) : Prop :=
  k < a.size ∧ isPathPrefix (a.path k) path = true ∧
    ∀ j < a.size, j ≠ k → isPathPrefix (a.path j) path = true →
      segmentCount (a.path j) < segmentCount (a.path k)

instance (a : Arena) (path : String) (k : Nat) : Decidable (a.IsLongestPrefix path k) := by
  unfold IsLongestPrefix
  infer_instance

/-- The path of a table begins that of an earlier one that lies as deep. -/
def HasLateTie (a : Arena) : Prop :=
  ∃ j < a.size, ∃ i < j, a.depthOf i = a.depthOf j ∧ isPathPrefix (a.path j) (a.path i) = true

instance (a : Arena) : Decidable a.HasLateTie := by
  unfold HasLateTie
  infer_instance

namespace IsTrailed

variable {a : Arena} {trail : Nat → List (List Char)} {j k : Nat} {path : String}

/-- The path of a table is cut into its trail. -/
theorem segments_path (h : a.IsTrailed trail) (hk : k < a.size) :
    segments (dropSlashes (a.path k).toList) = .ok (trail k) := by
  obtain ⟨part, rest, htrail, hne⟩ := h.exists_first hk
  have hparts := h.isSegment hk
  rw [h.path_eq hk, htrail, dropSlashes_joinAll rest (hparts part (by simp [htrail])) hne]
  exact segments_joinAll (by simp) (by rwa [htrail] at hparts)

theorem segmentCount_path (h : a.IsTrailed trail) (hk : k < a.size) :
    segmentCount (a.path k) = (trail k).length := by
  rw [segmentCount, h.segments_path hk]

theorem isPathPrefix_iff (h : a.IsTrailed trail) (hk : k < a.size) :
    isPathPrefix (a.path k) path = true ↔
      ∃ parts, segments (dropSlashes path.toList) = .ok parts ∧ trail k <+: parts := by
  rw [FeatureStore.isPathPrefix_iff]
  constructor
  · rintro ⟨own, parts, hown, hparts, hbegins⟩
    obtain rfl := hown.unique (h.segments_path hk)
    exact ⟨parts, hparts, hbegins⟩
  · rintro ⟨parts, hparts, hbegins⟩
    exact ⟨trail k, parts, h.segments_path hk, hparts, hbegins⟩

theorem isPathPrefix_path_iff (h : a.IsTrailed trail) (hj : j < a.size) (hk : k < a.size) :
    isPathPrefix (a.path j) (a.path k) = true ↔ trail j <+: trail k :=
  isPathPrefix_iff_of_segments (h.segments_path hj) (h.segments_path hk)

/-- Of two paths that begin one path, one begins the other. -/
theorem prefix_or_prefix (h : a.IsTrailed trail) (hj : j < a.size) (hk : k < a.size)
    (hjp : isPathPrefix (a.path j) path = true) (hkp : isPathPrefix (a.path k) path = true) :
    trail j <+: trail k ∨ trail k <+: trail j := by
  obtain ⟨parts, hparts, hj'⟩ := (h.isPathPrefix_iff hj).1 hjp
  obtain ⟨parts', hparts', hk'⟩ := (h.isPathPrefix_iff hk).1 hkp
  obtain rfl := Except.ok.inj (hparts.symm.trans hparts')
  exact List.prefix_or_prefix_of_prefix hj' hk'

/-- A trail that begins that of another table has fewer segments. -/
theorem length_lt_of_prefix (h : a.IsTrailed trail) (hj : j < a.size) (hk : k < a.size)
    (hne : j ≠ k) (hjk : trail j <+: trail k) : (trail j).length < (trail k).length :=
  Nat.lt_of_le_of_ne hjk.length_le fun hlength =>
    hne (h.injective hj hk (hjk.eq_of_length hlength))

end IsTrailed

end Arena

/-! ## The chosen table -/

namespace Staging

variable {tree : TableTree} {s next : Staging}

/-- What is chosen of tables in order: the deepest, and of equally deep ones the last. -/
theorem foldl_deeper_some {a : Arena} {tables : List Nat} {best k : Nat}
    (hsorted : (best :: tables).Pairwise (· < ·))
    (h : tables.foldl (deeper a) (some best) = some k) :
    k ∈ best :: tables ∧ ∀ j ∈ best :: tables,
      a.depthOf j < a.depthOf k ∨ a.depthOf j = a.depthOf k ∧ j ≤ k := by
  -- the best so far stands for all tables before it
  induction tables generalizing best with
  | nil =>
    obtain rfl := Option.some.inj h
    simp
  | cons table tables ih =>
    obtain ⟨hbest, htables⟩ := List.pairwise_cons.1 hsorted
    have hlater := hbest table List.mem_cons_self
    have hkeep : (best :: tables).Pairwise (· < ·) :=
      hsorted.sublist ((List.sublist_cons_self table tables).cons_cons best)
    rw [List.foldl_cons] at h
    by_cases hdepth : a.depthOf table < a.depthOf best
    · rw [show deeper a (some best) table = some best from if_pos hdepth] at h
      obtain ⟨hmem, hall⟩ := ih hkeep h
      obtain ⟨hfirst, hrest⟩ := List.forall_mem_cons.1 hall
      refine ⟨?_, List.forall_mem_cons.2 ⟨hfirst, List.forall_mem_cons.2 ⟨by omega, hrest⟩⟩⟩
      rcases List.mem_cons.1 hmem with rfl | hmem
      · exact List.mem_cons_self
      · exact List.mem_cons_of_mem _ (List.mem_cons_of_mem _ hmem)
    · rw [show deeper a (some best) table = some table from if_neg hdepth] at h
      obtain ⟨hmem, hall⟩ := ih htables h
      have hfirst := hall table List.mem_cons_self
      exact ⟨List.mem_cons_of_mem _ hmem, List.forall_mem_cons.2 ⟨by omega, hall⟩⟩

theorem foldl_deeper_isSome (a : Arena) (tables : List Nat) (best : Nat) :
    ∃ k, tables.foldl (deeper a) (some best) = some k := by
  induction tables generalizing best with
  | nil => exact ⟨best, rfl⟩
  | cons table tables ih =>
    rw [List.foldl_cons]
    by_cases hdepth : a.depthOf table < a.depthOf best
    · rw [show deeper a (some best) table = some best from if_pos hdepth]
      exact ih best
    · rw [show deeper a (some best) table = some table from if_neg hdepth]
      exact ih table

/-- No table is chosen exactly if no path of a table begins the path. -/
theorem resolve?_eq_none {path : String} : s.resolve? path = none ↔
    ∀ k < s.arena.size, isPathPrefix (s.arena.path k) path = false := by
  have hnone : ∀ tables : List Nat, tables.foldl (deeper s.arena) none = none ↔ tables = [] := by
    intro tables
    cases tables with
    | nil => simp
    | cons table tables =>
      obtain ⟨k, hk⟩ := foldl_deeper_isSome s.arena tables table
      rw [List.foldl_cons, show deeper s.arena none table = some table from rfl, hk]
      simp
  rw [resolve?, hnone, List.filter_eq_nil_iff]
  simp

/-- The chosen table is the deepest whose path begins the path, of equally deep ones the last. -/
theorem resolve?_eq_some {path : String} {k : Nat} (h : s.resolve? path = some k) :
    k < s.arena.size ∧ isPathPrefix (s.arena.path k) path = true ∧
      ∀ j < s.arena.size, isPathPrefix (s.arena.path j) path = true →
        s.arena.depthOf j < s.arena.depthOf k ∨ s.arena.depthOf j = s.arena.depthOf k ∧ j ≤ k := by
  have hsorted : ((List.range s.arena.size).filter fun id =>
      isPathPrefix (s.arena.path id) path).Pairwise (· < ·) := List.pairwise_lt_range.filter _
  have hmem : ∀ {j : Nat}, j ∈ (List.range s.arena.size).filter (fun id =>
      isPathPrefix (s.arena.path id) path) ↔
        j < s.arena.size ∧ isPathPrefix (s.arena.path j) path = true := by
    intro j
    rw [List.mem_filter, List.mem_range]
  rw [resolve?] at h
  cases htables : (List.range s.arena.size).filter fun id => isPathPrefix (s.arena.path id) path with
  | nil =>
    rw [htables] at h
    simp at h
  | cons table tables =>
    rw [htables] at h hsorted hmem
    obtain ⟨hk, hall⟩ := foldl_deeper_some hsorted h
    obtain ⟨hlt, hprefix⟩ := hmem.1 hk
    exact ⟨hlt, hprefix, fun j hj hjp => hall j (hmem.2 ⟨hj, hjp⟩)⟩

/-- The table that a value goes to has the longest path that begins its path, if any path does. -/
def ChoosesLongest (s : Staging) (path : String) : Prop :=
  match s.resolve? path with
  | none => ∀ k < s.arena.size, isPathPrefix (s.arena.path k) path = false
  | some table => s.arena.IsLongestPrefix path table

/-- Without late ties the longest path is chosen: the other paths that begin the path begin it. -/
theorem choosesLongest_of_not_hasLateTie {trail : Nat → List (List Char)}
    (h : s.arena.IsTrailed trail) (htie : ¬ s.arena.HasLateTie) (path : String) :
    s.ChoosesLongest path := by
  rw [ChoosesLongest]
  cases hchosen : s.resolve? path with
  | none => exact resolve?_eq_none.1 hchosen
  | some k =>
    obtain ⟨hk, hprefix, hall⟩ := resolve?_eq_some hchosen
    refine ⟨hk, hprefix, fun j hj hne hjp => ?_⟩
    rw [h.segmentCount_path hj, h.segmentCount_path hk]
    rcases h.prefix_or_prefix hj hk hjp hprefix with hjk | hkj
    · exact h.length_lt_of_prefix hj hk hne hjk
    · -- a longer path would lie as deep, before the chosen one
      have hdepth := h.depth_le hk hj hkj
      have hchosen := hall j hj hjp
      exact absurd ⟨k, hk, j, by omega, by omega, (h.isPathPrefix_path_iff hk hj).2 hkj⟩ htie

/-- With a late tie, what is set at the path of its longer table goes elsewhere. -/
theorem not_hasLateTie_of_choosesLongest {trail : Nat → List (List Char)}
    (h : s.arena.IsTrailed trail) (hlongest : ∀ path, s.ChoosesLongest path) :
    ¬ s.arena.HasLateTie := by
  rintro ⟨j, hj, i, hij, hdepth, hprefix⟩
  have hi : i < s.arena.size := hij.trans hj
  have hself : isPathPrefix (s.arena.path i) (s.arena.path i) = true :=
    (h.isPathPrefix_path_iff hi hi).2 (List.prefix_refl _)
  have hchoice := hlongest (s.arena.path i)
  rw [ChoosesLongest] at hchoice
  split at hchoice
  · rw [hchoice i hi] at hself
    simp at hself
  · rename_i k hchosen
    obtain ⟨hk, hkp, hall⟩ := resolve?_eq_some hchosen
    have hki := (h.isPathPrefix_path_iff hk hi).1 hkp
    have hle := h.depth_le hk hi hki
    have hlast := hall j hj hprefix
    -- the chosen table comes after the longer one and has the shorter path
    have hlonger := hchoice.2.2 i hi (by omega) hself
    rw [h.segmentCount_path hi, h.segmentCount_path hk] at hlonger
    have := hki.length_le
    omega

/-! ## Where the value goes -/

/-- The value stands on the current row of the table, or on a new one behind the others if there was
none, and all rows of the other tables are as they were. -/
def StagedOn (s next : Staging) (table : Nat) (column : String) (value : Option String) : Prop :=
  next.valueAt? ⟨table, (s.currentRow? table).getD (s.rowsOf table).length⟩ column = some value ∧
    ∀ k ≠ table, next.rowsOf k = s.rowsOf k

/-- A value at a path is staged on the chosen table. This fails only if there is none, or neither
that table nor its parent has a current row. -/
def StagesChosen (s : Staging) (path column : String) (value : Option String) : Prop :=
  match s.addValue path column value, s.resolve? path with
  | .ok next, some table => s.StagedOn next table column value
  | .ok _, none => False
  | .error _, none => True
  | .error _, some table => s.currentRow? table = none ∧
    ∃ parent, s.arena.parent? table = some parent ∧ s.currentRow? parent = none

theorem stagedOn_of_addValue (htree : tree.IsDerived) (h : s.IsOwned tree) {path column : String}
    {value : Option String} (hadd : s.addValue path column value = .ok next) :
    ∃ table, s.resolve? path = some table ∧ s.StagedOn next table column value := by
  obtain ⟨ref, opened, htarget, -, -, hrow, hnext⟩ := addValue_eq_setValue htree h hadd
  obtain ⟨table, htable, rfl⟩ := Option.map_eq_some_iff.1 htarget
  refine ⟨table, htable, ?_, fun k hk => ?_⟩
  · rw [hnext]
    exact valueAt?_setValue_self hrow column value
  · obtain ⟨found, row, opened', hfound, hopened, rfl⟩ := addValue_eq_ok hadd
    obtain rfl := Option.some.inj (htable.symm.trans hfound)
    rw [setValue, rowsOf_updateTable, if_neg (fun hand => hk hand.1)]
    rcases hopened with ⟨-, rfl⟩ | ⟨-, hopened⟩
    · rfl
    · obtain ⟨-, owner, rfl⟩ := addRow_path htree h.arena_eq (lt_size_of_resolve? htable) hopened
      rw [rowsOf_updateTable, if_neg (fun hand => hk hand.1)]

/-- A row is refused to a table only if that has a parent without a current row. -/
theorem exists_parent_of_addRow_eq_error {table : Nat} {path : String} {e : Error}
    (htable : s.tableOf path = .ok table) (h : s.addRow path = .error e) :
    ∃ parent, s.arena.parent? table = some parent ∧ s.currentRow? parent = none := by
  cases hparent : s.arena.parent? table with
  | none => simp [addRow, htable, hparent, bind, Except.bind, pure, Except.pure] at h
  | some parent =>
    cases hcurrent : s.currentRow? parent with
    | none => exact ⟨parent, rfl, hcurrent⟩
    | some row => simp [addRow, htable, hparent, hcurrent, bind, Except.bind, pure, Except.pure] at h

/-- A value is refused only if a row for it is. -/
theorem addValue_eq_error {path column : String} {value : Option String} {e : Error} {table : Nat}
    (htable : s.resolve? path = some table) (h : s.addValue path column value = .error e) :
    s.currentRow? table = none ∧ ∃ e, s.addRow (s.arena.path table) = .error e := by
  rw [addValue, htable] at h
  dsimp only at h
  cases hcurrent : s.currentRow? table with
  | some row => simp [hcurrent, bind, Except.bind, pure, Except.pure] at h
  | none =>
    rw [hcurrent] at h
    rcases bind_eq_error.1 h with hadd | ⟨added, -, hset⟩
    · exact ⟨rfl, e, hadd⟩
    · simp [pure, Except.pure] at hset

theorem stagesChosen (htree : tree.IsDerived) (h : s.IsOwned tree) (path column : String)
    (value : Option String) : s.StagesChosen path column value := by
  rw [StagesChosen]
  cases hadd : s.addValue path column value with
  | ok next =>
    obtain ⟨table, htable, hstaged⟩ := stagedOn_of_addValue htree h hadd
    rw [htable]
    exact hstaged
  | error e =>
    cases htable : s.resolve? path with
    | none => trivial
    | some table =>
      obtain ⟨hnone, e, hrow⟩ := addValue_eq_error htable hadd
      refine ⟨hnone, exists_parent_of_addRow_eq_error ?_ hrow⟩
      have hlt := lt_size_of_resolve? htable
      rw [h.arena_eq] at hlt ⊢
      rw [tableOf, h.arena_eq, Arena.idOf?_path_of_lt htree hlt]

end Staging

/-! ## The order of the tables -/

namespace Arena

/-- The tables of two arenas have the same paths, in whatever order. -/
def SamePaths (a b : Arena) : Prop :=
  ∀ path, (∃ k < a.size, a.path k = path) ↔ ∃ k < b.size, b.path k = path

variable {a b : Arena} {path : String} {j k : Nat}

theorem SamePaths.symm (h : a.SamePaths b) : b.SamePaths a := fun path => (h path).symm

/-- The longest path that begins a path is told by the paths alone. -/
theorem IsLongestPrefix.path_eq (hsame : a.SamePaths b) (ha : a.IsLongestPrefix path k)
    (hb : b.IsLongestPrefix path j) : a.path k = b.path j := by
  obtain ⟨hk, hkp, hkmax⟩ := ha
  obtain ⟨hj, hjp, hjmax⟩ := hb
  obtain ⟨i, hi, hpath⟩ := (hsame _).1 ⟨k, hk, rfl⟩
  obtain ⟨l, hl, hpath'⟩ := (hsame _).2 ⟨j, hj, rfl⟩
  by_cases hij : i = j
  · rw [← hpath, hij]
  · by_cases hlk : l = k
    · rw [← hpath', hlk]
    · -- otherwise each of the two paths would be longer than the other
      have hlonger := hjmax i hi hij (by rwa [hpath])
      have hlonger' := hkmax l hl hlk (by rwa [hpath'])
      rw [hpath] at hlonger
      rw [hpath'] at hlonger'
      omega

theorem not_isLongestPrefix (hsame : a.SamePaths b)
    (hnone : ∀ k < a.size, isPathPrefix (a.path k) path = false) : ¬ b.IsLongestPrefix path j := by
  rintro ⟨hj, hprefix, -⟩
  obtain ⟨k, hk, hpath⟩ := (hsame _).2 ⟨j, hj, rfl⟩
  rw [← hpath, hnone k hk] at hprefix
  simp at hprefix

end Arena

namespace Staging

/-- Where the longest path is chosen, the choice is told by the paths of the tables alone. -/
theorem path_of_chosen {s other : Staging} (hsame : s.arena.SamePaths other.arena) {path : String}
    (h : s.ChoosesLongest path) (h' : other.ChoosesLongest path) :
    (s.resolve? path).map s.arena.path = (other.resolve? path).map other.arena.path := by
  rw [ChoosesLongest] at h h'
  cases hs : s.resolve? path with
  | none =>
    cases ho : other.resolve? path with
    | none => rfl
    | some j =>
      rw [hs] at h
      rw [ho] at h'
      exact absurd h' (Arena.not_isLongestPrefix hsame h)
  | some k =>
    cases ho : other.resolve? path with
    | none =>
      rw [hs] at h
      rw [ho] at h'
      exact absurd h (Arena.not_isLongestPrefix hsame.symm h')
    | some j =>
      rw [hs] at h
      rw [ho] at h'
      exact congrArg some (h.path_eq hsame h')

theorem arena_afterCalls (tree : TableTree) (ops : List ValueOp) :
    ((start tree).afterCalls ops).arena = Arena.ofTree tree :=
  (isOwned_inOrder_afterCalls tree ops).1.arena_eq

end Staging

open Staging in
/-- In every container of a derived tree values go to the table with the longest path exactly if no
path of a table begins that of an earlier one that lies as deep, and then the order of the tables
does not matter. In any case a value is staged on the chosen table, unless neither that table nor
its parent has a current row. -/
theorem addValue_choosesLongest_iff {tree : TableTree} (htree : tree.IsDerived) :
    ((∀ ops path, ((start tree).afterCalls ops).ChoosesLongest path) ↔
        ¬ (Arena.ofTree tree).HasLateTie) ∧
      (∀ ops path column value, ((start tree).afterCalls ops).StagesChosen path column value) ∧
      ∀ other : TableTree, other.IsDerived → (Arena.ofTree tree).SamePaths (Arena.ofTree other) →
        ¬ (Arena.ofTree tree).HasLateTie → ¬ (Arena.ofTree other).HasLateTie → ∀ ops ops' path,
          (((start tree).afterCalls ops).resolve? path).map (Arena.ofTree tree).path =
            (((start other).afterCalls ops').resolve? path).map (Arena.ofTree other).path := by
  -- without late ties every container chooses the longest path
  have hchooses : ∀ {t : TableTree}, t.IsDerived → ¬ (Arena.ofTree t).HasLateTie → ∀ ops path,
      ((start t).afterCalls ops).ChoosesLongest path := by
    intro t ht htie ops path
    obtain ⟨trail, htrail⟩ := Arena.exists_trailed ht
    rw [← arena_afterCalls t ops] at htrail htie
    exact choosesLongest_of_not_hasLateTie htrail htie path
  refine ⟨⟨fun hlongest => ?_, hchooses htree⟩, fun ops => ?_, ?_⟩
  · obtain ⟨trail, htrail⟩ := Arena.exists_trailed htree
    exact not_hasLateTie_of_choosesLongest (s := start tree) htrail (hlongest [])
  · exact stagesChosen htree (isOwned_inOrder_afterCalls tree ops).1
  · intro other hother hsame htie htie' ops ops' path
    have hpaths := @path_of_chosen ((start tree).afterCalls ops) ((start other).afterCalls ops')
    rw [arena_afterCalls, arena_afterCalls] at hpaths
    exact hpaths hsame (hchooses htree htie ops path) (hchooses hother htie' ops' path)

/-- A junction that comes before the table behind it leaves values to that table. -/
theorem addValue_choosesLongest_iff_tag : ∃ tree, tree.IsDerived ∧
    ¬ (Arena.ofTree tree).HasLateTie ∧
      (Staging.start tree).ChoosesLongest
        "parcel/[id=parcel_id]parcel_2_tag/[tag_id=id]tag/label" := by
  have hrun : (do
      let tree ← TableTree.ofPaths ["parcel/[id=parcel_id]parcel_2_tag/note",
        "parcel/[id=parcel_id]parcel_2_tag/[tag_id=id]tag/label"]
      return decide (Arena.ofTree tree).HasLateTie : Except Error Bool).toOption = some false := by
    decide +kernel
  obtain ⟨tree, htree, hrun⟩ := bind_eq_ok.1 (toOption_eq_some.1 hrun)
  have htie := of_decide_eq_false (pure_eq_ok.1 hrun)
  have hderived := TableTree.isDerived_of_ofPaths htree
  exact ⟨tree, hderived, htie, (addValue_choosesLongest_iff hderived).1.2 htie [] _⟩

/-- A junction that comes behind the table that it leads to takes the values of that table. -/
theorem not_choosesLongest_tag : ∃ tree next, tree.IsDerived ∧
    (Staging.start tree).addValue "parcel/[id=parcel_id]parcel_2_tag/[tag_id=id]tag/label" "label"
      (some "x") = .ok next ∧
    next.rowsOf 1 = [] ∧ next.valueAt? ⟨2, 0⟩ "label" = some (some "x") ∧
    (Arena.ofTree tree).path 2 = "parcel/[id=parcel_id]parcel_2_tag" ∧
    (Arena.ofTree tree).IsLongestPrefix "parcel/[id=parcel_id]parcel_2_tag/[tag_id=id]tag/label" 1 ∧
    ¬ (Staging.start tree).ChoosesLongest
      "parcel/[id=parcel_id]parcel_2_tag/[tag_id=id]tag/label" := by
  have hrun : (do
      let tree ← TableTree.ofPaths ["parcel/[id=parcel_id]parcel_2_tag/[tag_id=id]tag/label",
        "parcel/[id=parcel_id]parcel_2_tag/note"]
      let next ← (Staging.start tree).addValue
        "parcel/[id=parcel_id]parcel_2_tag/[tag_id=id]tag/label" "label" (some "x")
      return decide (next.rowsOf 1 = [] ∧ next.valueAt? ⟨2, 0⟩ "label" = some (some "x") ∧
        (Arena.ofTree tree).path 2 = "parcel/[id=parcel_id]parcel_2_tag" ∧
        (Arena.ofTree tree).IsLongestPrefix
          "parcel/[id=parcel_id]parcel_2_tag/[tag_id=id]tag/label" 1 ∧
        (Staging.start tree).resolve? "parcel/[id=parcel_id]parcel_2_tag/[tag_id=id]tag/label" =
          some 2) : Except Error Bool).toOption = some true := by
    decide +kernel
  obtain ⟨tree, htree, hrun⟩ := bind_eq_ok.1 (toOption_eq_some.1 hrun)
  obtain ⟨next, hnext, hrun⟩ := bind_eq_ok.1 hrun
  obtain ⟨hrows, hvalue, hpath, hlongest, hchosen⟩ := of_decide_eq_true (pure_eq_ok.1 hrun)
  refine ⟨tree, next, TableTree.isDerived_of_ofPaths htree, hnext, hrows, hvalue, hpath, hlongest,
    fun hchooses => ?_⟩
  rw [Staging.ChoosesLongest, hchosen] at hchooses
  -- each of the two tables would have the longer path
  have hlonger := hlongest.2.2 2 hchooses.1 (by decide) hchooses.2.1
  have hlonger' := hchooses.2.2 1 hlongest.1 (by decide) hlongest.2.1
  exact Nat.lt_asymm hlonger hlonger'

end FeatureStore
