import FeatureStore.Proofs.Write.Create
import FeatureStore.Sql.Join

/-!
# Links written and links read

The statements of a row link it to its parent row through primary keys, because these are the
identifiers that a database gives back (`WrittenRow.leaves_iff`); the joins that read rows compare
the columns that the source paths name (`Relation.joinsHold_iff`). What is written along an edge
is read back (`ReadsBack`) exactly if these columns are the primary keys (`LinksAgree`,
`readsBack_iff_linksAgree`). A direct join is asked for that when it is classified, but a junction
is not: neither one that stands between two tables nor one at the end of a path. So the links of a
tree agree exactly if the junctions of all its paths name the primary keys (`linksAgree_iff`). The
steps of the paths are what the tree is made of (`mem_linksOfList_addPaths`), and the relation of
every edge tells which columns its step names (`EdgeOf.linksAgree_iff_namesKeys`).
-/

set_option autoImplicit false

namespace FeatureStore

/-! ## The links of a trie -/

namespace Trie

/-- The steps of a path, each with the table that it leads away from. -/
def stepLinks : TableSegment → List Step → List (TableSegment × Step)
  | _, [] => []
  | parent, step :: rest => (parent, step) :: stepLinks step.segment rest

theorem links_eq (t : Trie) : t.links = linksOfList t.entry.step.segment t.children := by
  rcases t with ⟨entry, children⟩
  rfl

theorem linksOfList_append (parent : TableSegment) : ∀ l more : List Trie,
    linksOfList parent (l ++ more) = linksOfList parent l ++ linksOfList parent more
  | [], more => rfl
  | t :: rest, more => by
    rw [List.cons_append, linksOfList, linksOfList, linksOfList_append, List.cons_append,
      List.append_assoc]

/-- Adding a path adds its links and no others. -/
theorem mem_linksOfList_insert (origin : String) (columns : List Column)
    {link : TableSegment × Step} : ∀ (steps : List Step) (t : Trie) (parent : TableSegment),
    ProperSteps steps → t.IsSound →
      (link ∈ linksOfList parent (t.insert origin columns steps).children ↔
        link ∈ linksOfList parent t.children ∨ link ∈ stepLinks parent steps)
  | [], t, parent, _, _ => by
    rw [children_insert_nil, stepLinks]
    simp
  | step :: rest, .node entry children, parent, ⟨hstep, _, hrest⟩, .node hsub _ hsteps => by
    have hbelow : ∀ c : Trie, c.IsSound → c.entry.step = step →
        (link ∈ (c.insert origin columns rest).links ↔
          link ∈ c.links ∨ link ∈ stepLinks step.segment rest) := by
      intro c hc hsame
      rw [links_eq, links_eq, step_insert, hsame]
      exact mem_linksOfList_insert origin columns rest c step.segment hrest hc
    show link ∈ linksOfList parent
      (updateAt step.key (leaf step origin) (insert origin columns rest) children) ↔
        link ∈ linksOfList parent children ∨ link ∈ stepLinks parent (step :: rest)
    rcases updateAt_cases step.key (leaf step origin) (insert origin columns rest) children with
      ⟨pre, t, post, rfl, hkey, -, hupdate⟩ | ⟨-, hupdate⟩
    · -- a step with the same key is the same step, so its link is there already
      have ht : t ∈ pre ++ t :: post := by simp
      have hsame : t.entry.step = step := (hsteps t ht).1.eq_of_key hstep hkey
      rw [hupdate, stepLinks]
      simp only [linksOfList_append, linksOfList, step_insert, hsame, List.mem_append,
        List.mem_cons, hbelow t (hsub t ht) hsame]
      tauto
    · have hleaf : (leaf step origin).entry.step = step := rfl
      have hnone : link ∉ (leaf step origin).links := by simp [leaf, links, linksOfList]
      rw [hupdate, stepLinks]
      simp only [linksOfList_append, linksOfList, step_insert, hleaf, List.mem_append,
        List.mem_cons, hbelow _ (isSound_leaf step origin) hleaf, hnone, false_or,
        List.not_mem_nil, or_false]

/-- The links below the root are those of the steps of all paths added. -/
theorem mem_linksOfList_addPaths {parent : TableSegment} {link : TableSegment × Step} :
    ∀ {paths : List MappedPath} {start t : Trie}, (∀ p ∈ paths, p.source.IsWritten) →
    start.IsRooted → paths.foldlM addPath start = .ok t →
      (link ∈ linksOfList parent t.children ↔ link ∈ linksOfList parent start.children ∨
        ∃ path ∈ paths, ∃ steps, stepsOf path.source.nested = .ok steps ∧
          link ∈ stepLinks parent steps)
  | [], start, t, _, _, h => by
    rw [List.foldlM_nil] at h
    rw [← pure_eq_ok.1 h]
    simp
  | path :: paths, start, t, hwritten, hstart, h => by
    rw [List.foldlM_cons] at h
    obtain ⟨next, hnext, h⟩ := bind_eq_ok.1 h
    obtain ⟨hpath, hwritten⟩ := List.forall_mem_cons.1 hwritten
    have hrooted := hstart.addPath hpath hnext
    obtain ⟨aligned, steps, haligned, hsteps, rfl⟩ := addPath_eq_ok hnext
    obtain ⟨-, hchildren, -⟩ := alignRoot_eq_ok haligned
    obtain ⟨-, hnested⟩ := List.forall_mem_cons.1 hpath
    have hinsert := @mem_linksOfList_insert path.source.raw path.columns link steps aligned parent
      ((stepsAlong_of_stepsOf hsteps).properSteps hnested) (hstart.sound.of_children hchildren)
    rw [mem_linksOfList_addPaths hwritten hrooted h, hinsert, hchildren, List.exists_mem_cons_iff,
      or_assoc]
    refine or_congr_right (or_congr_left ⟨fun hlink => ⟨steps, hsteps, hlink⟩, ?_⟩)
    rintro ⟨others, hothers, hlink⟩
    rwa [Except.ok.inj (hsteps.symm.trans hothers)]

end Trie

/-! ## Columns written and columns read -/

/-- The columns that a relation is read by are those that it is written by. -/
def Relation.AgreesOn (r : Relation) (parent child : Table) : Prop :=
  match r.kind with
  | .none => True
  | .oneToOneMerge => r.sourceField = parent.primaryKey
  | .oneToMany => r.sourceField = parent.primaryKey
  | .oneToOneReference => r.targetField = child.primaryKey
  | .manyToMany => r.sourceField = parent.primaryKey ∧ r.targetField = child.primaryKey

/-- A table and one below it are read through the columns that link their rows when these are
written. -/
def LinksAgree (edge : Table × Table) : Prop :=
  ∃ r, edge.2.relation? = some r ∧ r.AgreesOn edge.1 edge.2

/-! ## Rows written -/

/-- The rows of a database that come from staged rows: the values of the row inserted for each of
them and of the row of a junction that links it to its parent row, and the identifier that it was
given. -/
structure StoredRows where
  row : RowRef → String → String
  link : RowRef → String → String
  id : RowRef → String

/-- What a statement leaves in the rows of a database. -/
def Statement.Leaves (db : StoredRows) : Statement → Prop
  | .delete _ _ _ => True
  | .insert _ ref _ columns key => db.row ref key = db.id ref ∧
      ∀ field other, (field, StoredValue.idOf other) ∈ columns → db.row ref field = db.id other
  | .link _ parentField childField parent child =>
    db.link child parentField = db.id parent ∧ db.link child childField = db.id child
  | .pointAt _ field _ parent child => db.row parent field = db.id child

/-- The rows of a table and its parent are linked by the identifiers of both. -/
def Relation.IsWritten (r : Relation) (db : StoredRows) (parent child : RowRef) : Prop :=
  match r.kind, r.junction with
  | .manyToMany, some junction => db.link child junction.sourceField = db.id parent ∧
      db.link child junction.targetField = db.id child
  | .oneToOneReference, _ => db.row parent r.sourceField = db.id child
  | _, _ => db.row child r.targetField = db.id parent

/-- Among the columns of a row, only that of the relation takes the identifier of another row. -/
theorem idOf_mem_insertColumns (srid : Nat) (t : Table) (staged : StagedRow)
    (parent : Option RowRef) (field : String) (other : RowRef) :
    (field, StoredValue.idOf other) ∈ insertColumns srid t staged parent none ↔
      (field, StoredValue.idOf other) ∈ parentColumns t parent := by
  obtain ⟨more, hcolumns, hall⟩ := insertColumns_eq srid t staged parent
  rw [hcolumns, List.mem_append, or_iff_left]
  intro hmore
  obtain ⟨-, kind, value, hstaged⟩ := hall _ hmore
  cases value with
  | none => exact absurd hstaged (by simp [StoredValue.ofStaged])
  | some text =>
    rw [StoredValue.ofStaged] at hstaged
    split at hstaged <;> simp at hstaged

/-- The statements of a row leave its identifier in its primary key and link it to its parent
row. -/
theorem WrittenRow.leaves_iff {x : WrittenRow} {r : Relation} {parent : Table} {ref : RowRef}
    (srid : Nat) (db : StoredRows) (hrelation : x.table.relation? = some r)
    (hlinks : r.Links parent x.table) (hparent : x.parent = some ref) :
    (∀ statement ∈ x.statements srid, statement.Leaves db) ↔
      db.row x.ref x.table.primaryKey = db.id x.ref ∧ r.IsWritten db ref x.ref := by
  have hinsertion : (x.insertion srid).Leaves db ↔ db.row x.ref x.table.primaryKey = db.id x.ref ∧
      ∀ field other, (field, StoredValue.idOf other) ∈ parentColumns x.table x.parent →
        db.row x.ref field = db.id other := by
    simp only [insertion, insertStatement, Statement.Leaves, idOf_mem_insertColumns]
  rw [statements, List.forall_mem_cons, hinsertion, and_assoc]
  refine and_congr_right' ?_
  cases hkind : r.kind with
  | none => exact absurd hkind hlinks.kind_ne
  | oneToOneMerge =>
    simp [parentColumns, linkStatements, Relation.IsWritten, hrelation, hparent, hkind]
  | oneToMany =>
    simp [parentColumns, linkStatements, Relation.IsWritten, hrelation, hparent, hkind]
  | oneToOneReference =>
    simp [parentColumns, linkStatements, Relation.IsWritten, Statement.Leaves, hrelation, hparent,
      hkind]
  | manyToMany =>
    obtain ⟨junction, hj⟩ := Option.isSome_iff_exists.1 (hlinks.junction_isSome.2 hkind)
    simp [parentColumns, linkStatements, Relation.IsWritten, Statement.Leaves, hrelation, hparent,
      hkind, hj]

/-! ## Rows joined -/

/-- The joins of one relation on keys alone. -/
def Relation.joins (r : Relation) (source middle target : Alias) : List Join :=
  match r.junction with
  | none => [Storage.directJoin .keysOnly r source target none]
  | some junction => Storage.junctionJoins .keysOnly r junction source middle target none

/-- These are the joins that are generated for a single relation. -/
theorem Storage.joins_singleton (s : Storage) (r : Relation) (source middle target : Alias) :
    s.joins .keysOnly [r] (source :: ((r.junction.map fun _ => middle).toList ++ [target])) =
      .ok (r.joins source middle target) := by
  have hfilter : s.joinFilter .keysOnly r target = .ok none := by
    rw [joinFilter]
    split
    · contradiction
    · rfl
  rcases hj : r.junction with _ | junction <;>
  · simp only [Option.map, Option.toList, List.nil_append, List.cons_append, Storage.joins, hj,
      hfilter, Relation.joins]
    rfl

/-- The rows with these aliases meet the condition of a join. -/
def Join.Holds (rows : Alias → String → String) (j : Join) : Prop :=
  rows j.source.name j.source.field = rows j.target.name j.target.field

/-- A row, one of a junction and one below it meet the conditions of all joins that are generated
for a relation. -/
def Relation.JoinsHold (r : Relation) (parent middle child : String → String) : Prop :=
  ∀ (s : Storage) (rows : Alias → String → String) (a b c : Alias), rows a = parent →
    rows b = middle → rows c = child → ∃ joins,
      s.joins .keysOnly [r] (a :: ((r.junction.map fun _ => b).toList ++ [c])) = .ok joins ∧
        ∀ j ∈ joins, j.Holds rows

/-- Some rows stand under different aliases. -/
theorem exists_rows (parent middle child : String → String) :
    ∃ (rows : Alias → String → String) (a b c : Alias),
      rows a = parent ∧ rows b = middle ∧ rows c = child :=
  ⟨fun name => if name = .slot 0 0 then parent else if name = .slot 0 1 then middle else child,
    .slot 0 0, .slot 0 1, .slot 0 2, by simp, by simp, by simp⟩

section Joins

variable {r : Relation} {parent middle child : String → String}

/-- The joins of a relation compare what they compare of any three rows. -/
theorem Relation.joinsHold_iff_of
    {P : (String → String) → (String → String) → (String → String) → Prop}
    (hjoins : ∀ (rows : Alias → String → String) (a b c : Alias),
      (∀ j ∈ r.joins a b c, j.Holds rows) ↔ P (rows a) (rows b) (rows c)) :
    r.JoinsHold parent middle child ↔ P parent middle child := by
  constructor
  · intro h
    obtain ⟨rows, a, b, c, rfl, rfl, rfl⟩ := exists_rows parent middle child
    obtain ⟨joins, hgenerated, hholds⟩ := h default rows a b c rfl rfl rfl
    obtain rfl := Except.ok.inj ((Storage.joins_singleton default r a b c).symm.trans hgenerated)
    exact (hjoins rows a b c).1 hholds
  · rintro h s rows a b c rfl rfl rfl
    exact ⟨_, s.joins_singleton r a b c, (hjoins rows a b c).2 h⟩

/-- Without a junction one join is made. -/
theorem Relation.joinsHold_iff (hj : r.junction = none) :
    r.JoinsHold parent middle child ↔ parent r.sourceField = child r.targetField := by
  refine joinsHold_iff_of (P := fun x _ z => x r.sourceField = z r.targetField) ?_
  intro rows a b c
  rw [Relation.joins, hj]
  exact List.forall_mem_singleton

/-- With a junction two joins are made, one on each side of it. -/
theorem Relation.joinsHold_iff_of_junction {junction : Junction} (hj : r.junction = some junction) :
    r.JoinsHold parent middle child ↔ parent r.sourceField = middle junction.sourceField ∧
      middle junction.targetField = child r.targetField := by
  refine joinsHold_iff_of (P := fun x y z =>
    x r.sourceField = y junction.sourceField ∧ y junction.targetField = z r.targetField) ?_
  intro rows a b c
  rw [Relation.joins, hj]
  exact List.forall_mem_cons.trans (and_congr_right' List.forall_mem_singleton)

end Joins

/-! ## What is written is read -/

/-- Rows of a table and its parent are joined whenever they were linked by their identifiers. -/
def Relation.ReadsLinked (r : Relation) (parent child : Table) : Prop :=
  ∀ (db : StoredRows) (y x : RowRef), db.row y parent.primaryKey = db.id y →
    db.row x child.primaryKey = db.id x → r.IsWritten db y x →
      r.JoinsHold (db.row y) (db.link x) (db.row x)

/-- Once the statements of a row have run, its parent row is joined to it. -/
def ReadsBack (edge : Table × Table) : Prop :=
  ∃ r, edge.2.relation? = some r ∧ ∀ (srid : Nat) (y x : WrittenRow) (db : StoredRows),
    y.table = edge.1 → x.table = edge.2 → x.parent = some y.ref →
      db.row y.ref y.table.primaryKey = db.id y.ref →
      (∀ statement ∈ x.statements srid, statement.Leaves db) →
        r.JoinsHold (db.row y.ref) (db.link x.ref) (db.row x.ref)

/-- A database in which one value differs from all others. -/
def StoredRows.marked (ref : RowRef) (field : String) : StoredRows where
  row other column := if other = ref ∧ column = field then "1" else "0"
  link _ _ := "0"
  id _ := "0"

section Marked

variable {ref other : RowRef} {field column : String}

theorem StoredRows.row_marked : (marked ref field).row ref field = "1" := if_pos ⟨rfl, rfl⟩

theorem StoredRows.row_marked_of_ne (h : other ≠ ref ∨ column ≠ field) :
    (marked ref field).row other column = "0" := by
  refine if_neg ?_
  rintro ⟨rfl, rfl⟩
  rcases h with h | h <;> exact h rfl

end Marked

section Agreement

variable {r : Relation} {parent child : Table}

/-- If the parent row is joined on another column than its primary key, that column can differ from
the identifier of the row. -/
theorem Relation.ReadsLinked.sourceField_eq (h : r.ReadsLinked parent child)
    (hkind : r.kind ≠ .oneToOneReference) :
    r.sourceField = parent.primaryKey := by
  by_contra hne
  -- all values are equal but that of the column joined on
  let db := StoredRows.marked ⟨0, 0⟩ r.sourceField
  have hchild : ∀ column, db.row ⟨1, 0⟩ column = "0" := fun column =>
    StoredRows.row_marked_of_ne (Or.inl (by decide))
  have hparent : db.row ⟨0, 0⟩ parent.primaryKey = "0" :=
    StoredRows.row_marked_of_ne (Or.inr (Ne.symm hne))
  have hwritten : r.IsWritten db ⟨0, 0⟩ ⟨1, 0⟩ := by
    rw [IsWritten]
    split
    · exact ⟨rfl, rfl⟩
    · exact absurd ‹_› hkind
    · exact hchild _
  have hjoined := h db ⟨0, 0⟩ ⟨1, 0⟩ hparent (hchild _) hwritten
  have hsource : db.row ⟨0, 0⟩ r.sourceField = "0" := by
    rcases hj : r.junction with _ | junction
    · rw [(Relation.joinsHold_iff hj).1 hjoined]
      exact hchild _
    · exact ((Relation.joinsHold_iff_of_junction hj).1 hjoined).1
  exact absurd (StoredRows.row_marked.symm.trans hsource) (by decide)

/-- If a row that its parent or a junction points at is joined on another column than its primary
key, that column can differ from the identifier of the row. -/
theorem Relation.ReadsLinked.targetField_eq (h : r.ReadsLinked parent child)
    (hkind : r.kind = .oneToOneReference ∨ r.kind = .manyToMany) (hlinks : r.Links parent child) :
    r.targetField = child.primaryKey := by
  -- otherwise mark the cell of the target field: the rows are then linked and not joined
  by_contra hne
  let db := StoredRows.marked ⟨1, 0⟩ r.targetField
  have hparent : ∀ column, db.row ⟨0, 0⟩ column = "0" := fun column =>
    StoredRows.row_marked_of_ne (Or.inl (by decide))
  have hchild : db.row ⟨1, 0⟩ child.primaryKey = "0" :=
    StoredRows.row_marked_of_ne (Or.inr (Ne.symm hne))
  have hwritten : r.IsWritten db ⟨0, 0⟩ ⟨1, 0⟩ := by
    rcases hkind with hkind | hkind
    · simp only [IsWritten, hkind]
      exact hparent _
    · obtain ⟨junction, hj⟩ := Option.isSome_iff_exists.1 (hlinks.junction_isSome.2 hkind)
      simp only [IsWritten, hkind, hj]
      exact ⟨rfl, rfl⟩
  have hjoined := h db ⟨0, 0⟩ ⟨1, 0⟩ (hparent _) hchild hwritten
  have htarget : db.row ⟨1, 0⟩ r.targetField = "0" := by
    rcases hj : r.junction with _ | junction
    · rw [← (Relation.joinsHold_iff hj).1 hjoined]
      exact hparent _
    · exact ((Relation.joinsHold_iff_of_junction hj).1 hjoined).2.symm
  exact absurd (StoredRows.row_marked.symm.trans htarget) (by decide)

/-- Linked rows are joined exactly if the columns agree. -/
theorem Relation.readsLinked_iff (hlinks : r.Links parent child) :
    r.ReadsLinked parent child ↔ r.AgreesOn parent child := by
  have hdirect : r.kind ≠ .manyToMany → r.junction = none := fun hkind => by
    rw [← Option.not_isSome_iff_eq_none, hlinks.junction_isSome]
    exact hkind
  cases hkind : r.kind with
  | none => exact absurd hkind hlinks.kind_ne
  | oneToOneMerge =>
    simp only [AgreesOn, hkind]
    refine ⟨fun h => h.sourceField_eq (by simp [hkind]), fun hkey db y x hy _ hwritten => ?_⟩
    simp only [IsWritten, hkind] at hwritten
    rw [Relation.joinsHold_iff (hdirect (by simp [hkind])), hkey, hy, hwritten]
  | oneToMany =>
    simp only [AgreesOn, hkind]
    refine ⟨fun h => h.sourceField_eq (by simp [hkind]), fun hkey db y x hy _ hwritten => ?_⟩
    simp only [IsWritten, hkind] at hwritten
    rw [Relation.joinsHold_iff (hdirect (by simp [hkind])), hkey, hy, hwritten]
  | oneToOneReference =>
    -- here the row of the parent stores the key of the other one
    simp only [AgreesOn, hkind]
    refine ⟨fun h => h.targetField_eq (Or.inl hkind) hlinks, fun hkey db y x _ hx hwritten => ?_⟩
    simp only [IsWritten, hkind] at hwritten
    rw [Relation.joinsHold_iff (hdirect (by simp [hkind])), hkey, hx, hwritten]
  | manyToMany =>
    obtain ⟨junction, hj⟩ := Option.isSome_iff_exists.1 (hlinks.junction_isSome.2 hkind)
    simp only [AgreesOn, hkind]
    refine ⟨fun h => ⟨h.sourceField_eq (by simp [hkind]), h.targetField_eq (Or.inr hkind) hlinks⟩,
      fun ⟨hsource, htarget⟩ db y x hy hx hwritten => ?_⟩
    simp only [IsWritten, hkind, hj] at hwritten
    obtain ⟨hfirst, hsecond⟩ := hwritten
    rw [Relation.joinsHold_iff_of_junction hj, hsource, htarget, hy, hx]
    exact ⟨hfirst.symm, hsecond⟩

end Agreement

/-- Along an edge of a derived tree, what is written is read back exactly if the columns agree. -/
theorem readsBack_iff_linksAgree {tree : TableTree} (htree : tree.IsDerived) {edge : Table × Table}
    (hedge : edge ∈ tree.edges) : ReadsBack edge ↔ LinksAgree edge := by
  obtain ⟨r, hrelations, hlinks⟩ := htree.links hedge
  have hrelation : edge.2.relation? = some r := by
    rw [Table.relation?, hrelations, List.getLast?_concat]
  constructor
  · rintro ⟨r', hr', hreads⟩
    obtain rfl := Option.some.inj (hrelation.symm.trans hr')
    refine ⟨r, hrelation, (Relation.readsLinked_iff hlinks).1 fun db y x hy hx hwritten => ?_⟩
    -- rows without values suffice, since only their identifiers are compared
    let child : WrittenRow := ⟨edge.2, x, StagedRow.empty none, some y⟩
    refine hreads 0 ⟨edge.1, y, StagedRow.empty none, none⟩ child db rfl rfl rfl hy ?_
    exact (child.leaves_iff 0 db hrelation hlinks rfl).2 ⟨hx, hwritten⟩
  · rintro ⟨r', hr', hagrees⟩
    obtain rfl := Option.some.inj (hrelation.symm.trans hr')
    refine ⟨r, hrelation, fun srid y x db hy hx hparent hkey hleaves => ?_⟩
    rw [hy] at hkey
    rw [← hx] at hrelation hlinks
    obtain ⟨hown, hwritten⟩ := (x.leaves_iff srid db hrelation hlinks hparent).1 hleaves
    rw [hx] at hown
    exact (Relation.readsLinked_iff (hx ▸ hlinks)).2 hagrees db y.ref x.ref hkey hown hwritten

/-! ## Keys named by a path -/

/-- The junction of a step names the primary keys of the tables that it links; one that is a table
by itself names the key of its parent. -/
def Step.NamesKeys (key : String) (s : Step) : Prop :=
  match s.junction with
  | some junction => (∀ into ∈ junction.join, into.sourceField = key) ∧
      ∀ join ∈ s.segment.join, join.targetField = s.segment.primaryKey
  | none => s.segment.isJunction = true → ∀ join ∈ s.segment.join, join.sourceField = key

/-- All junctions along some steps below a table with a primary key name the primary keys. -/
def StepsNameKeys : String → List Step → Prop
  | _, [] => True
  | key, s :: rest => s.NamesKeys key ∧ StepsNameKeys s.segment.primaryKey rest

/-- All junctions along a path name the primary keys of the tables that they link. -/
def MappedPath.NamesKeys (key : String) (path : MappedPath) : Prop :=
  ∃ steps, stepsOf path.source.nested = .ok steps ∧ StepsNameKeys key steps

instance (key : String) (s : Step) : Decidable (s.NamesKeys key) := by
  unfold Step.NamesKeys
  split <;> infer_instance

instance decidableStepsNameKeys : (key : String) → (steps : List Step) →
    Decidable (StepsNameKeys key steps)
  | _, [] => isTrue trivial
  | key, s :: rest =>
    have := decidableStepsNameKeys s.segment.primaryKey rest
    inferInstanceAs (Decidable (s.NamesKeys key ∧ StepsNameKeys s.segment.primaryKey rest))

instance (key : String) (path : MappedPath) : Decidable (path.NamesKeys key) :=
  decidable_of_iff (∃ steps ∈ (stepsOf path.source.nested).toOption, StepsNameKeys key steps) (by
    simp only [Option.mem_def, toOption_eq_some]
    rfl)

theorem stepsNameKeys_iff : ∀ {steps : List Step} {parent : TableSegment},
    StepsNameKeys parent.primaryKey steps ↔
      ∀ link ∈ Trie.stepLinks parent steps, link.2.NamesKeys link.1.primaryKey
  | [], _ => by simp [StepsNameKeys, Trie.stepLinks]
  | s :: rest, parent => by
    rw [StepsNameKeys, Trie.stepLinks, List.forall_mem_cons, stepsNameKeys_iff]

/-- The relation of an edge agrees exactly if the step that it is made of names the keys. -/
theorem EdgeOf.agreesOn_iff {link : TableSegment × Step} {edge : Table × Table}
    (h : EdgeOf link edge) : ∃ r, edge.2.relation? = some r ∧
      (r.AgreesOn edge.1 edge.2 ↔ link.2.NamesKeys link.1.primaryKey) := by
  obtain ⟨r, hr, hrelations⟩ := h.relation
  refine ⟨r, by rw [Table.relation?, hrelations, List.getLast?_concat], ?_⟩
  have hparent := h.parent.primaryKey_eq
  have hchild := h.child.primaryKey_eq
  obtain ⟨-, join, hjoin, htarget, hcases⟩ := classify_cases hr
  rcases hcases with
    ⟨hnone, -, hsource, hkind⟩ | ⟨junction, into, hjunction, hinto, hkind, hsource, -⟩
  · rw [Step.NamesKeys, hnone]
    simp only [hjoin, Option.mem_def, Option.some.injEq, forall_eq']
    rcases classifyJoin_cases hkind with ⟨his, hk⟩ | ⟨hplain, hkey, hk⟩ | ⟨hplain, hkey, hk⟩
    · -- a junction at the end of a path is classified without a look at its columns
      simp only [Relation.AgreesOn, hk, his, hsource, hparent, forall_const]
    · have hagrees : r.AgreesOn edge.1 edge.2 := by
        rcases hk with hk | hk <;> simp only [Relation.AgreesOn, hk, hsource, hparent, hkey]
      simp [hplain, hagrees]
    · have hagrees : r.AgreesOn edge.1 edge.2 := by
        simp only [Relation.AgreesOn, hk, htarget, hchild, hkey]
      simp [hplain, hagrees]
  · rw [Step.NamesKeys, hjunction, Relation.AgreesOn, hkind]
    simp only [hjoin, hinto, Option.mem_def, Option.some.injEq, forall_eq']
    rw [hsource, htarget, hparent, hchild]

/-- The links of an edge agree exactly if its step names the keys. -/
theorem EdgeOf.linksAgree_iff_namesKeys {link : TableSegment × Step} {edge : Table × Table}
    (h : EdgeOf link edge) : LinksAgree edge ↔ link.2.NamesKeys link.1.primaryKey := by
  obtain ⟨r, hrelation, hiff⟩ := h.agreesOn_iff
  rw [← hiff]
  constructor
  · rintro ⟨r', hrelation', hagrees⟩
    rwa [Option.some.inj (hrelation.symm.trans hrelation')]
  · exact fun hagrees => ⟨r, hrelation, hagrees⟩

namespace TableTree

/-- The edges of a derived tree come from the steps of its paths. -/
theorem exists_links_of_derive {paths : List MappedPath} {tree : TableTree}
    (hread : ∀ p ∈ paths, ∃ text, SourcePath.read text = .ok p.source)
    (h : derive paths = .ok tree) :
    ∃ links, List.Forall₂ EdgeOf links tree.edges ∧
      ((∀ link ∈ links, link.2.NamesKeys link.1.primaryKey) ↔
        ∀ path ∈ paths, path.NamesKeys tree.root.primaryKey) := by
  obtain ⟨first, rest, t, rfl, ht, hbuild⟩ := derive_eq_ok h
  have hwritten := isWritten_of_reads hread
  have hstart : (Trie.leaf ⟨first.source.root.raw, first.source.root, none⟩
      first.source.raw).IsRooted :=
    Trie.isRooted_leaf (hwritten first List.mem_cons_self _ List.mem_cons_self) _
  have hkey : tree.root.primaryKey = t.entry.step.segment.primaryKey := by
    rw [Trie.root_of_build hbuild]
    rfl
  refine ⟨t.links, Trie.edges_of_build hbuild, ?_⟩
  -- the trie has the links of the steps of all paths, and no other ones
  have hlinks : ∀ link, link ∈ t.links ↔ ∃ path ∈ first :: rest, ∃ steps,
      stepsOf path.source.nested = .ok steps ∧
        link ∈ Trie.stepLinks t.entry.step.segment steps := by
    intro link
    rw [Trie.links_eq, Trie.mem_linksOfList_addPaths hwritten hstart ht]
    simp [Trie.leaf, Trie.children, Trie.linksOfList]
  rw [hkey]
  constructor
  · -- the steps of a path that was added could be made
    intro hall path hpath
    obtain ⟨s, next, hnext⟩ := exists_step_of_foldlM_eq_ok ht path hpath
    obtain ⟨-, steps, -, hsteps, -⟩ := Trie.addPath_eq_ok hnext
    refine ⟨steps, hsteps, stepsNameKeys_iff.2 fun link hlink => hall link ?_⟩
    exact (hlinks link).2 ⟨path, hpath, steps, hsteps, hlink⟩
  · intro hall link hlink
    obtain ⟨path, hpath, steps, hsteps, hlink⟩ := (hlinks link).1 hlink
    obtain ⟨others, hothers, hkeys⟩ := hall path hpath
    obtain rfl := Except.ok.inj (hsteps.symm.trans hothers)
    exact stepsNameKeys_iff.1 hkeys link hlink

/-- The links of a derived tree agree exactly if the junctions of all its paths name the primary
keys of the tables that they link; and then, and only then, what is written along an edge is read
back. -/
theorem linksAgree_iff {paths : List MappedPath} {tree : TableTree}
    (hread : ∀ p ∈ paths, ∃ text, SourcePath.read text = .ok p.source)
    (h : derive paths = .ok tree) :
    ((∀ edge ∈ tree.edges, LinksAgree edge) ↔
        ∀ path ∈ paths, path.NamesKeys tree.root.primaryKey) ∧
      ((∀ edge ∈ tree.edges, ReadsBack edge) ↔
        ∀ path ∈ paths, path.NamesKeys tree.root.primaryKey) := by
  obtain ⟨links, hedges, hkeys⟩ := exists_links_of_derive hread h
  have hagree : (∀ edge ∈ tree.edges, LinksAgree edge) ↔
      ∀ path ∈ paths, path.NamesKeys tree.root.primaryKey := by
    rw [← hkeys]
    exact forall_mem_iff_of_forall₂ (fun _ _ hof => hof.linksAgree_iff_namesKeys) hedges
  have hreads : ∀ edge ∈ tree.edges, (ReadsBack edge ↔ LinksAgree edge) := fun edge hedge =>
    readsBack_iff_linksAgree ⟨paths, hread, h⟩ hedge
  exact ⟨hagree, (forall₂_congr hreads).trans hagree⟩

/-- A junction that names the keys of both tables, besides a direct join. -/
theorem linksAgree_iff_tags :
    let texts := ["parcel/[id=parcel_id]parcel_2_tag/[tag_id=id]tag/label",
      "parcel/[owner_id=id]person/name"]
    ∃ paths tree, texts.mapM MappedPath.read = .ok paths ∧ derive paths = .ok tree ∧
      (∀ path ∈ paths, path.NamesKeys tree.root.primaryKey) ∧
      (∀ edge ∈ tree.edges, LinksAgree edge) ∧ ∀ edge ∈ tree.edges, ReadsBack edge := by
  intro texts
  have hkeys : (do
      let paths ← texts.mapM MappedPath.read
      let tree ← derive paths
      return decide (∀ path ∈ paths, path.NamesKeys tree.root.primaryKey) :
        Except Error Bool).toOption = some true := by
    decide +kernel
  obtain ⟨paths, hpaths, hok⟩ := bind_eq_ok.1 (toOption_eq_some.1 hkeys)
  obtain ⟨tree, htree, hok⟩ := bind_eq_ok.1 hok
  have hnames := of_decide_eq_true (pure_eq_ok.1 hok)
  have hread : ∀ p ∈ paths, ∃ text, SourcePath.read text = .ok p.source := fun p hp => by
    obtain ⟨text, -, hmapped⟩ := exists_of_mapM_eq_ok hpaths hp
    obtain ⟨source, hsource, rfl⟩ := map_eq_ok.1 hmapped
    exact ⟨text, hsource⟩
  obtain ⟨hagree, hreads⟩ := linksAgree_iff hread htree
  exact ⟨paths, tree, hpaths, htree, hnames, hagree.2 hnames, hreads.2 hnames⟩

/-- A junction at the end of a path that names another column of its parent: its rows store the key
of the parent row and are joined on that column. -/
theorem not_linksAgree_codes : ∃ tree edge,
    ofPaths ["parcel/[code=parcel_code]parcel_2_code/code"] = .ok tree ∧ edge ∈ tree.edges ∧
      ¬ LinksAgree edge ∧ ¬ ReadsBack edge := by
  have hedges : (do
      let tree ← ofPaths ["parcel/[code=parcel_code]parcel_2_code/code"]
      return tree.edges.map fun edge => (edge.1.primaryKey, edge.2.relation?.map fun r =>
        (r.kind, r.sourceField)) :
        Except Error (List (String × Option (RelationKind × String)))).toOption =
      some [("id", some (.oneToMany, "code"))] := by
    decide +kernel
  obtain ⟨tree, htree, hok⟩ := bind_eq_ok.1 (toOption_eq_some.1 hedges)
  obtain ⟨edge, hedge, hfields⟩ := List.map_eq_singleton_iff.1 (pure_eq_ok.1 hok)
  have hmem : edge ∈ tree.edges := by
    rw [hedge]
    exact List.mem_singleton_self edge
  obtain ⟨hprimary, hrelation⟩ := Prod.mk.inj hfields
  have hnot : ¬ LinksAgree edge := by
    rintro ⟨r, hr, hagrees⟩
    rw [hr] at hrelation
    obtain ⟨hkind, hsource⟩ := Prod.mk.inj (Option.some.inj hrelation)
    rw [Relation.AgreesOn, hkind, hsource, hprimary] at hagrees
    have hsame : "code" = "id" := hagrees
    exact absurd hsame (by decide)
  exact ⟨tree, edge, htree, hmem, hnot,
    fun hreads => hnot ((readsBack_iff_linksAgree (isDerived_of_ofPaths htree) hmem).1 hreads)⟩

end TableTree

end FeatureStore
