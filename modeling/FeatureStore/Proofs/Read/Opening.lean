import FeatureStore.Proofs.Read.Groups

/-!
# The identifier that a feature is read under

A feature begins with the row of its root table (`push_root`). It is read under the value of the
first identifier column of that table, or else under the sort key of the row (`Table.readId`). So a
column of the root row tells the identifier of every feature exactly if it is the identifier
column, or without one the sort key, and then only if the sort key tells rows apart: otherwise the
rows are numbered, and a number is what is read (`startsBy_iff`).
-/

set_option autoImplicit false

namespace FeatureStore

open Reconstruction

/-! ## What the statement of the root table gives -/

/-- A statement gives the cell for a column of a row with some values. A constant stands for itself,
and geometries and times are rewritten by the database. -/
def Column.Gives (values : String → Option Cell) (c : Column) (cell : Option Cell) : Prop :=
  match c.kind with
  | .value => cell = values c.name
  | .identifier => cell = values c.name
  | .constant text => cell = some ⟨.text, text⟩
  | .spatial => cell.isSome = (values c.name).isSome
  | .temporal => cell.isSome = (values c.name).isSome
  | .date => cell.isSome = (values c.name).isSome

/-- The statement of the root table gives the sort key and the columns for a row with some values. A
sort key that does not tell rows apart is replaced by the number of the row. -/
structure Table.Selects (t : Table) (values : String → Option Cell) (key : Cell) (cells : Row) :
    Prop where
  key_eq : t.sortKeyUnique = true → values t.sortKey = some key
  key_number : t.sortKeyUnique = false → ∃ n : Nat, key = ⟨.integer, toString n⟩
  columns : List.Forall₂ (Column.Gives values) t.columns cells

/-- The identifier that a feature is read under. -/
def Table.readId (t : Table) (values : String → Option Cell) (key : Cell) : Cell :=
  (t.identifier?.bind fun c => values c.name).getD key

/-- The value of the identifier column is read off its place. -/
theorem text?_identifier {values : String → Option Cell} {columns : List Column} {cells : Row}
    (h : List.Forall₂ (Column.Gives values) columns cells) :
    ((columns.findIdx? (·.kind == .identifier)).bind fun i => cells.text? i) =
      ((columns.find? (·.kind == .identifier)).bind fun c => values c.name).map Cell.text := by
  induction h with
  | nil => rfl
  | @cons c cell columns cells hgives _ ih =>
    rw [List.findIdx?_cons, List.find?_cons]
    cases hkind : c.kind == ColumnKind.identifier with
    | true =>
      rw [Column.Gives, beq_iff_eq.1 hkind] at hgives
      rw [hgives]
      rfl
    | false =>
      rw [if_neg (by simp), ← ih, Option.bind_map]
      rfl

/-! ## The first row of a feature -/

/-- The layout is that of the group of the root table, in some directions of the reader's keys. -/
def Storage.IsRootLayout (s : Storage) (flags : List Bool) (layout : GroupLayout) : Prop :=
  ∃ restriction group, JoinGroup.ofChain s restriction [s.root] s.root = .ok group ∧
    layoutOf (Arena.ofTree s.tree) flags group = .ok layout

/-- The reconstruction knows the root table of a storage as its first group. -/
structure Reconstruction.ReadsRoot (r : Reconstruction) (s : Storage) (flags : List Bool) :
    Prop where
  group : ∃ layout, s.IsRootLayout flags layout ∧ r.groups[0]? = some layout
  readerKeys_eq : r.readerKeys = flags.length

section Root

variable {s : Storage} {flags : List Bool}

/-- The root table always has a group, and its layout is that of the chain of the root alone. -/
theorem isRootLayout_iff (htree : s.tree.IsDerived) {layout : GroupLayout} :
    s.IsRootLayout flags layout ↔ layout = chainLayout flags [(0, s.root)] := by
  have hroot : s.root.relations = [] := htree.root_relations
  have hlayout : ∀ {restriction group}, JoinGroup.ofChain s restriction [s.root] s.root =
      .ok group → layoutOf (Arena.ofTree s.tree) flags group =
        .ok (chainLayout flags [(0, s.root)]) := by
    intro restriction group hgroup
    have hof : group.IsOf ([] ++ [(0, s.root)]) :=
      isOf_of_ofChain (by rw [hroot]; rfl) hgroup
    obtain ⟨rest, hchains⟩ := s.tree.numberedChains_eq_cons
    exact layoutOf_eq htree (hchains ▸ List.mem_cons_self) hof flags
  constructor
  · rintro ⟨restriction, group, hgroup, heq⟩
    exact (Except.ok.inj ((hlayout hgroup).symm.trans heq)).symm
  · rintro rfl
    obtain ⟨group, hgroup⟩ : ∃ group, JoinGroup.ofChain s none [s.root] s.root = .ok group := by
      rw [JoinGroup.ofChain, hroot]
      exact ⟨_, rfl⟩
    exact ⟨none, group, hgroup, hlayout hgroup⟩

/-- Whatever is read of a derived tree begins with the root table. -/
theorem readsRoot_of_start {name : String} {counted : Bool} {plan : ReadPlan} {r : Reconstruction}
    (htree : s.tree.IsDerived) (hplan : ReadPlan.ofStorage name s counted = .ok plan)
    (hstart : Reconstruction.start plan flags = .ok r) : r.ReadsRoot s flags := by
  obtain ⟨rfl, -, heq⟩ := start_ofStorage htree hplan flags
  obtain rfl := Except.ok.inj (hstart.symm.trans heq)
  obtain ⟨rest, hrest⟩ := htree.readChains_eq_cons
  refine ⟨⟨chainLayout flags [(0, plan.storage.root)], (isRootLayout_iff htree).2 rfl, ?_⟩, rfl⟩
  rw [initial, hrest]
  rfl

/-- A row of the first group opens another feature under the value of its identifier column, or else
under its key. -/
theorem pushKeyed_of_new {r : Reconstruction} (group : GroupLayout) (row : Row) {key : String}
    (hcurrent : r.current ≠ some key) : ∃ events, (r.pushKeyed 0 group row [key]).1 =
      r.closing ++ .featureStart r.featureType ((group.identifier?.bind fun i =>
        row.text? (r.readerKeys + group.chain.length + i)).getD key) :: events := by
  have hopening : ∀ id, (r.openFeature key id).1 = r.closing ++ [.featureStart r.featureType id] := by
    intro id
    rw [openFeature, if_neg hcurrent]
  simp only [pushKeyed, if_true, List.headD_cons, hopening, List.append_assoc]
  exact ⟨_, rfl⟩

/-- The root row of another feature ends the open one and begins its own. -/
theorem push_root (htree : s.tree.IsDerived) {r : Reconstruction} (hr : r.ReadsRoot s flags)
    {front : Row} (hfront : front.length = flags.length) {values : String → Option Cell}
    {key : Cell} {cells : Row} (hrow : s.root.Selects values key cells)
    (hcurrent : r.current ≠ some key.text) :
    ∃ events next, r.push ⟨0, front ++ some key :: cells⟩ =
      (.ok (r.closing ++
        .featureStart r.featureType (s.root.readId values key).text :: events), next) := by
  obtain ⟨layout, hlayout, hgroup⟩ := hr.group
  obtain rfl := (isRootLayout_iff htree).1 hlayout
  have hreader : r.readerKeys = front.length := hr.readerKeys_eq.trans hfront.symm
  -- behind the keys of the reader there is one key, that of the root, and then the columns
  have hkey : Row.text? (front ++ some key :: cells) (r.readerKeys + 0) = some key.text := by
    rw [Row.text?, hreader, Nat.add_zero, List.getElem?_append_right (Nat.le_refl _), Nat.sub_self]
    rfl
  have hcell : ∀ i, Row.text? (front ++ some key :: cells) (r.readerKeys + 1 + i) =
      cells.text? i := by
    intro i
    rw [Row.text?, hreader, List.getElem?_append_right (by omega)]
    rw [show front.length + 1 + i - front.length = i + 1 by omega, List.getElem?_cons_succ]
    rfl
  have hlong : r.readerKeys + 1 + s.root.columns.length ≤ (front ++ some key :: cells).length := by
    rw [List.length_append, List.length_cons, hreader, hrow.columns.length_eq]
    omega
  have hkeys : ((List.range 1).map (r.readerKeys + ·)).mapM
      (Row.text? (front ++ some key :: cells)) = some [key.text] := by
    show List.mapM _ [r.readerKeys + 0] = _
    rw [List.mapM_cons, hkey]
    rfl
  have hid : ((s.root.columns.findIdx? (·.kind == .identifier)).bind fun i =>
      Row.text? (front ++ some key :: cells) (r.readerKeys + 1 + i)).getD key.text =
        (s.root.readId values key).text := by
    simp only [hcell]
    rw [text?_identifier hrow.columns, Table.readId, Table.identifier?, Option.getD_map]
  obtain ⟨events, hevents⟩ := @pushKeyed_of_new { r with rows := r.rows + 1 }
    (chainLayout flags [(0, s.root)]) (front ++ some key :: cells) key.text hcurrent
  have hpush := push_of_keys (x := ⟨0, front ++ some key :: cells⟩) hgroup hlong hkeys
  rw [hevents] at hpush
  rw [← hid]
  exact ⟨events, _, hpush⟩

/-! ## The column that tells the identifier -/

/-- Features are read under the values of a column of their root rows. -/
def Storage.StartsBy (s : Storage) (column : String) : Prop :=
  ∀ (r : Reconstruction) (flags : List Bool), r.ReadsRoot s flags →
    ∀ (front : Row) (values : String → Option Cell) (key id : Cell) (cells : Row),
      front.length = flags.length → s.root.Selects values key cells → values column = some id →
        r.current ≠ some key.text → ∃ events next, r.push ⟨0, front ++ some key :: cells⟩ =
          (.ok (r.closing ++ .featureStart r.featureType id.text :: events), next)

/-- What is read of every column of a row is determined up to what the database rewrites. -/
theorem exists_cells (columns : List Column) (values : String → Option Cell) :
    ∃ cells, List.Forall₂ (Column.Gives values) columns cells := by
  induction columns with
  | nil => exact ⟨[], .nil⟩
  | cons c columns ih =>
    obtain ⟨cells, hcells⟩ := ih
    have hcell : ∃ cell, c.Gives values cell := by
      unfold Column.Gives
      cases c.kind <;> exact ⟨_, rfl⟩
    obtain ⟨cell, hcell⟩ := hcell
    exact ⟨cell :: cells, .cons hcell hcells⟩

/-- The identifier of a feature can be told by a column if all root rows are read that way. -/
theorem Storage.StartsBy.text_readId (htree : s.tree.IsDerived) {column : String}
    (h : s.StartsBy column) {values : String → Option Cell} {key id : Cell} {cells : Row}
    (hrow : s.root.Selects values key cells) (hid : values column = some id) :
    (s.root.readId values key).text = id.text := by
  let r : Reconstruction := ⟨"", 0, [chainLayout [] [(0, s.root)]],
    Multiplicities.start (Arena.ofTree s.tree), none, 0, 0⟩
  have hr : r.ReadsRoot s [] :=
    ⟨⟨chainLayout [] [(0, s.root)], (isRootLayout_iff htree).2 rfl, rfl⟩, rfl⟩
  have hcurrent : r.current ≠ some key.text := (Option.some_ne_none _).symm
  have hfront : ([] : Row).length = ([] : List Bool).length := rfl
  obtain ⟨events, next, hpush⟩ := push_root htree hr hfront hrow hcurrent
  obtain ⟨others, last, hstarts⟩ := h r [] hr [] values key id cells hfront hrow hid hcurrent
  have hevents := List.append_cancel_left
    (Except.ok.inj (Prod.mk.inj (hpush.symm.trans hstarts)).1)
  exact (Event.featureStart.inj (List.cons.inj hevents).1).2

/-- A row is read under the value of the identifier column, or without one under that of a sort key
that tells rows apart. -/
theorem Table.Selects.readId_eq {t : Table} {values : String → Option Cell} {key id : Cell}
    {cells : Row} {column : String} (h : t.Selects values key cells)
    (hidentifier : ∀ c, t.identifier? = some c → c.name = column)
    (hkey : t.identifier? = none → t.sortKeyUnique = true ∧ t.sortKey = column)
    (hid : values column = some id) : t.readId values key = id := by
  cases hfind : t.identifier? with
  | some c =>
    rw [Table.readId, hfind, Option.bind_some, hidentifier c hfind, hid]
    rfl
  | none =>
    obtain ⟨hunique, hsort⟩ := hkey hfind
    have hvalue := h.key_eq hunique
    rw [hsort, hid] at hvalue
    rw [Table.readId, hfind]
    exact (Option.some.inj hvalue).symm

/-- The values of a row in which one column differs from all others. -/
def markedValues (column name : String) : Option Cell :=
  some ⟨.text, if name = column then "1" else "0"⟩

/-- A column tells the identifiers of features exactly if it is the identifier column, or without
one a sort key that tells rows apart. -/
theorem startsBy_iff (htree : s.tree.IsDerived) {column : String} :
    s.StartsBy column ↔ (∀ c, s.root.identifier? = some c → c.name = column) ∧
      (s.root.identifier? = none → s.root.sortKeyUnique = true ∧ s.root.sortKey = column) := by
  have hmark : ∀ name, (if name = column then "1" else "0") = "1" → name = column := by
    intro name hname
    by_contra hne
    rw [if_neg hne] at hname
    exact absurd hname (by decide)
  constructor
  · intro h
    -- a row whose only value of one text is in the column, and numbered otherwise
    obtain ⟨key, hunique, hnumber⟩ : ∃ key : Cell,
        (s.root.sortKeyUnique = true → markedValues column s.root.sortKey = some key) ∧
        (s.root.sortKeyUnique = false → key = ⟨.integer, toString 0⟩) := by
      cases s.root.sortKeyUnique with
      | true => exact ⟨_, fun _ => rfl, fun hfalse => by simp at hfalse⟩
      | false => exact ⟨_, fun htrue => by simp at htrue, fun _ => rfl⟩
    obtain ⟨cells, hcells⟩ := exists_cells s.root.columns (markedValues column)
    have hrow : s.root.Selects (markedValues column) key cells :=
      ⟨hunique, fun hfalse => ⟨0, hnumber hfalse⟩, hcells⟩
    have hone : (s.root.readId (markedValues column) key).text = "1" :=
      (h.text_readId htree hrow rfl).trans (if_pos rfl)
    constructor
    · intro c hc
      rw [Table.readId, hc] at hone
      exact hmark c.name hone
    · intro hnone
      rw [Table.readId, hnone] at hone
      have hone : key.text = "1" := hone
      cases hkind : s.root.sortKeyUnique with
      | true =>
        rw [← Option.some.inj (hunique hkind)] at hone
        exact ⟨rfl, hmark s.root.sortKey hone⟩
      | false =>
        rw [hnumber hkind] at hone
        exact absurd hone (by decide)
  · rintro ⟨hidentifier, hkey⟩ r flags hr front values key id cells hfront hrow hid hcurrent
    rw [← hrow.readId_eq hidentifier hkey hid]
    exact push_root htree hr hfront hrow hcurrent

end Root

end FeatureStore
