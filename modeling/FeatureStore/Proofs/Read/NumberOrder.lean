import FeatureStore.Proofs.Decimal.Rounding
import FeatureStore.Read.Merge
import Mathlib.Tactic

/-!
# Whole numbers and others in one order

Two whole numbers are compared exactly, any other two numbers by what they are rounded to. Either
comparison is an order by itself (`IsPreorderOn`), but they do not fit together where a number
stands between two whole numbers that are rounded to it (`Clashes`): it equals both, which differ.
On cells without such a clash, and only there, cells are ordered, and so are rows of one layout
(`compareCells_isPreorderOn_iff`). Whole numbers up to `2 ^ 53` do not clash, unless a zero has a
minus.
-/

set_option autoImplicit false

namespace FeatureStore

/-! ## Orders with ties -/

/-- On the values that are asked for, the comparison is an order in which values may be equal. -/
structure IsPreorderOn {α : Type} (P : α → Prop) (cmp : α → α → Ordering) : Prop where
  refl : ∀ {a : α}, P a → cmp a a = .eq
  swap : ∀ {a b : α}, P a → P b → cmp b a = (cmp a b).swap
  trans : ∀ {a b c : α}, P a → P b → P c → (cmp a b).isLE = true → (cmp b c).isLE = true →
    (cmp a c).isLE = true
  eq_trans : ∀ {a b c : α}, P a → P b → P c → cmp a b = .eq → cmp b c = .eq → cmp a c = .eq

namespace IsPreorderOn

variable {α β : Type} {P : α → Prop} {Q : β → Prop} {cmp f g : α → α → Ordering}

/-- Equality is transitive where the order is. -/
theorem of_trans (refl : ∀ {a : α}, P a → cmp a a = .eq)
    (swap : ∀ {a b : α}, P a → P b → cmp b a = (cmp a b).swap)
    (trans : ∀ {a b c : α}, P a → P b → P c → (cmp a b).isLE = true → (cmp b c).isLE = true →
      (cmp a c).isLE = true) : IsPreorderOn P cmp := by
  refine ⟨refl, swap, trans, fun {a b c} ha hb hc hab hbc => ?_⟩
  refine Ordering.eq_eq_of_isLE_of_isLE_swap (trans ha hb hc ?_ ?_) ?_
  · rw [hab]
    rfl
  · rw [hbc]
    rfl
  · rw [← swap ha hc]
    refine trans hc hb ha ?_ ?_
    · rw [swap hb hc, hbc]
      rfl
    · rw [swap ha hb, hab]
      rfl

/-- What does not come behind another value or beside it comes before it. -/
theorem eq_lt_iff (h : IsPreorderOn P cmp) {a b : α} (ha : P a) (hb : P b) :
    cmp a b = .lt ↔ ¬ (cmp b a).isLE = true := by
  rw [h.swap ha hb]
  cases cmp a b <;> decide

theorem lt_of_lt_of_isLE (h : IsPreorderOn P cmp) {a b c : α} (ha : P a) (hb : P b) (hc : P c)
    (hab : cmp a b = .lt) (hbc : (cmp b c).isLE = true) : cmp a c = .lt := by
  rw [h.eq_lt_iff ha hb] at hab
  rw [h.eq_lt_iff ha hc]
  intro hca
  exact hab (h.trans hb hc ha hbc hca)

theorem lt_of_isLE_of_lt (h : IsPreorderOn P cmp) {a b c : α} (ha : P a) (hb : P b) (hc : P c)
    (hab : (cmp a b).isLE = true) (hbc : cmp b c = .lt) : cmp a c = .lt := by
  rw [h.eq_lt_iff hb hc] at hbc
  rw [h.eq_lt_iff ha hc]
  intro hca
  exact hbc (h.trans hc ha hb hca hab)

/-- Two comparisons one after the other, where the second needs to be an order only among values
that the first finds equal. -/
theorem lex (hf : IsPreorderOn P f) (hrefl : ∀ {a : α}, P a → g a a = .eq)
    (hswap : ∀ {a b : α}, P a → P b → f a b = .eq → g b a = (g a b).swap)
    (htrans : ∀ {a b c : α}, P a → P b → P c → f a b = .eq → f b c = .eq → (g a b).isLE = true →
      (g b c).isLE = true → (g a c).isLE = true) :
    IsPreorderOn P fun a b => (f a b).then (g a b) := by
  refine of_trans (fun {a} ha => ?_) (fun {a b} ha hb => ?_) fun {a b c} ha hb hc hab hbc => ?_
  · rw [hf.refl ha, hrefl ha]
    rfl
  · rw [hf.swap ha hb]
    cases hab : f a b with
    | lt => rfl
    | gt => rfl
    | eq => exact hswap ha hb hab
  · -- less in the first order, or equal in it and then not greater in the second
    rw [Ordering.isLE_then_iff_or] at hab hbc ⊢
    rcases hab with hab | ⟨hab, hgab⟩
    · refine Or.inl (hf.lt_of_lt_of_isLE ha hb hc hab ?_)
      rcases hbc with hbc | ⟨hbc, -⟩
      · rw [hbc]
        rfl
      · rw [hbc]
        rfl
    · rcases hbc with hbc | ⟨hbc, hgbc⟩
      · refine Or.inl (hf.lt_of_isLE_of_lt ha hb hc ?_ hbc)
        rw [hab]
        rfl
      · exact Or.inr ⟨hf.eq_trans ha hb hc hab hbc, htrans ha hb hc hab hbc hgab hgbc⟩

theorem comap (h : IsPreorderOn P cmp) (view : β → α) (hview : ∀ b, Q b → P (view b)) :
    IsPreorderOn Q fun a b => cmp (view a) (view b) where
  refl ha := h.refl (hview _ ha)
  swap ha hb := h.swap (hview _ ha) (hview _ hb)
  trans ha hb hc := h.trans (hview _ ha) (hview _ hb) (hview _ hc)
  eq_trans ha hb hc := h.eq_trans (hview _ ha) (hview _ hb) (hview _ hc)

/-- An order may be taken in either direction. -/
theorem directed (h : IsPreorderOn P cmp) (descending : Bool) :
    IsPreorderOn P fun a b => directed descending (cmp a b) := by
  cases descending with
  | false => exact h
  | true =>
    refine of_trans (fun {a} ha => ?_) (fun {a b} ha hb => ?_) fun {a b c} ha hb hc hab hbc => ?_
    · show (cmp a a).swap = .eq
      rw [h.refl ha]
      rfl
    · show (cmp b a).swap = (cmp a b).swap.swap
      rw [h.swap ha hb]
    · -- the reversed order goes through the values the other way round
      change (cmp a b).swap.isLE = true at hab
      change (cmp b c).swap.isLE = true at hbc
      show (cmp a c).swap.isLE = true
      rw [← h.swap ha hb] at hab
      rw [← h.swap hb hc] at hbc
      rw [← h.swap ha hc]
      exact h.trans hc hb ha hbc hab

end IsPreorderOn

/-- Values compared by what is read off them are ordered. -/
theorem isPreorderOn_compare {α β : Type} [Ord β] [Std.TransOrd β] (P : α → Prop) (view : α → β) :
    IsPreorderOn P fun a b => compare (view a) (view b) :=
  IsPreorderOn.of_trans (fun _ => Std.ReflCmp.compare_self)
    (fun _ _ => Std.OrientedCmp.eq_swap) fun _ _ _ hab hbc => Std.TransCmp.isLE_trans hab hbc

/-! ## Numbers -/

namespace Cell

/-- The number of a cell that holds a whole one. -/
def whole (c : Cell) : Int := (readInt64? c.text).getD 0

/-- Where the number that a cell is rounded to stands among all numbers. -/
def near (c : Cell) : Int := ((Binary64.read? c.text).map Binary64.totalKey).getD 0

/-- The cell can be compared: a whole number and another number can be read, and the other is
finite. -/
def isComparable (c : Cell) : Bool :=
  match c.kind with
  | .integer => (readInt64? c.text).isSome
  | .real => (Binary64.read? c.text).any Binary64.isFinite
  | .text => true
  | .blob => true

variable {a b c : Cell}

/-- A whole number is rounded to the number nearest to it. -/
theorem exists_whole (hc : c.isComparable = true) (hkind : c.kind = .integer) :
    ∃ negative digits, readInt64? c.text = some (signed negative digits) ∧
      Binary64.read? c.text = some (Binary64.ofRatio negative digits 1) ∧
      c.whole = signed negative digits ∧ c.near = Binary64.wholeKey negative digits := by
  rw [isComparable, hkind] at hc
  obtain ⟨n, hn⟩ := Option.isSome_iff_exists.1 hc
  obtain ⟨negative, digits, rfl, hread⟩ := Binary64.read?_of_readInt64? hn
  refine ⟨negative, digits, hn, hread, ?_, ?_⟩
  · rw [whole, hn]
    rfl
  · rw [near, hread]
    rfl

/-- Any number is rounded. -/
theorem exists_near (hc : c.isComparable = true) (hkind : c.kind.isNumeric = true) :
    ∃ x, Binary64.read? c.text = some x ∧ c.near = x.totalKey := by
  cases hk : c.kind with
  | integer =>
    obtain ⟨negative, digits, -, hread, -, hnear⟩ := exists_whole hc hk
    exact ⟨_, hread, hnear⟩
  | real =>
    rw [isComparable, hk] at hc
    obtain ⟨x, hx, -⟩ := (Option.any_eq_true _ _).1 hc
    exact ⟨x, hx, by rw [near, hx]; rfl⟩
  | text => simp [hk, CellKind.isNumeric] at hkind
  | blob => simp [hk, CellKind.isNumeric] at hkind

theorem compareValues_whole (ha : a.isComparable = true) (hb : b.isComparable = true)
    (hak : a.kind = .integer) (hbk : b.kind = .integer) :
    compareValues a b = compare a.whole b.whole := by
  obtain ⟨s, m, hm, -, ham, -⟩ := exists_whole ha hak
  obtain ⟨t, n, hn, -, hbn, -⟩ := exists_whole hb hbk
  have hnumbers : compareNumbers? a b = some (compare (signed s m) (signed t n)) := by
    rw [compareNumbers?, if_pos ⟨hak, hbk⟩, hm, hn]
    rfl
  rw [compareValues, hak, hbk, hnumbers, ham, hbn]
  rfl

theorem compareValues_near (ha : a.isComparable = true) (hb : b.isComparable = true)
    (hak : a.kind.isNumeric = true) (hbk : b.kind.isNumeric = true)
    (hne : ¬ (a.kind = .integer ∧ b.kind = .integer)) :
    compareValues a b = compare a.near b.near := by
  obtain ⟨x, hx, hax⟩ := exists_near ha hak
  obtain ⟨y, hy, hby⟩ := exists_near hb hbk
  have hnumbers : compareNumbers? a b = some (compare x.totalKey y.totalKey) := by
    rw [compareNumbers?, if_neg hne, hx, hy]
    rfl
  rw [compareValues, hak, hbk, hnumbers, hax, hby]
  rfl

/-- Of two whole numbers the smaller is not rounded to a greater number. -/
theorem near_le_of_whole_lt (ha : a.isComparable = true) (hb : b.isComparable = true)
    (hak : a.kind = .integer) (hbk : b.kind = .integer) (h : a.whole < b.whole) :
    a.near ≤ b.near := by
  obtain ⟨s, m, -, -, ham, hanear⟩ := exists_whole ha hak
  obtain ⟨t, n, -, -, hbn, hbnear⟩ := exists_whole hb hbk
  rw [ham, hbn] at h
  rw [hanear, hbnear]
  exact Binary64.wholeKey_le h

/-- Equal whole numbers are rounded to equal ones, or they are zeros with different signs. -/
theorem near_le_of_whole_eq (ha : a.isComparable = true) (hb : b.isComparable = true)
    (hak : a.kind = .integer) (hbk : b.kind = .integer) (h : a.whole = b.whole) :
    b.near ≤ a.near + 1 := by
  obtain ⟨s, m, -, -, ham, hanear⟩ := exists_whole ha hak
  obtain ⟨t, n, -, -, hbn, hbnear⟩ := exists_whole hb hbk
  rw [ham, hbn] at h
  rw [hanear, hbnear]
  rcases eq_of_signed_eq h with ⟨rfl, rfl⟩ | ⟨rfl, rfl⟩
  · omega
  · rw [Binary64.wholeKey_zero, Binary64.wholeKey_zero]
    split <;> split <;> omega

end Cell

/-! ## Cells -/

/-- Cells that rows may be sorted by. -/
def isComparable : Option Cell → Bool
  | none => true
  | some c => c.isComparable

/-- The place of the class of a cell; a missing value comes first. -/
def classRank : Option Cell → Nat
  | none => 0
  | some c => c.kind.rank + 1

/-- The class comes first in the order of cells. -/
theorem compareCells_eq_then (a b : Option Cell) :
    compareCells a b = (compare (classRank a) (classRank b)).then (compareCells a b) := by
  rcases a with _ | ⟨ka, s⟩ <;> rcases b with _ | ⟨kb, t⟩
  · rfl
  · cases kb <;> rfl
  · cases ka <;> rfl
  · cases ka <;> cases kb <;> rfl

theorem compareNumbers?_swap (a b : Cell) :
    compareNumbers? b a = (compareNumbers? a b).map Ordering.swap := by
  rw [compareNumbers?, compareNumbers?]
  by_cases hkind : a.kind = .integer ∧ b.kind = .integer
  · rw [if_pos hkind, if_pos hkind.symm]
    cases readInt64? a.text with
    | none => cases readInt64? b.text <;> rfl
    | some m =>
      cases readInt64? b.text with
      | none => rfl
      | some n => exact congrArg some Std.OrientedCmp.eq_swap
  · rw [if_neg hkind, if_neg (fun h => hkind h.symm)]
    cases Binary64.read? a.text with
    | none => cases Binary64.read? b.text <;> rfl
    | some x =>
      cases Binary64.read? b.text with
      | none => rfl
      | some y =>
        show some (compare y.totalKey x.totalKey) = some (compare x.totalKey y.totalKey).swap
        exact congrArg some Std.OrientedCmp.eq_swap

/-- The other way round, any two cells compare the other way. -/
theorem compareCells_swap (a b : Option Cell) : compareCells b a = (compareCells a b).swap := by
  rcases a with _ | a <;> rcases b with _ | b
  · rfl
  · rfl
  · rfl
  · show compareValues b a = (compareValues a b).swap
    rw [compareValues, compareValues, Bool.and_comm, compareNumbers?_swap a b]
    split
    · cases compareNumbers? a b with
      | none =>
        show compare b.text a.text = (compare a.text b.text).swap
        exact Std.OrientedCmp.eq_swap
      | some order => rfl
    · rw [Ordering.swap_then]
      congr 1
      · exact Std.OrientedCmp.eq_swap
      · exact Std.OrientedCmp.eq_swap

/-- Any cell equals itself. -/
theorem compareCells_self (a : Option Cell) : compareCells a a = .eq := by
  have h := compareCells_swap a a
  cases hself : compareCells a a with
  | eq => rfl
  | lt => simp [hself] at h
  | gt => simp [hself] at h

/-- A number is what one whole number is rounded to. Another whole number is rounded to it as well,
or the same one, a zero with the other sign, is not. -/
def Clashes (a b r : Cell) : Prop :=
  a.kind = .integer ∧ b.kind = .integer ∧ r.kind = .real ∧ a.near = r.near ∧
    (b.near = r.near ∧ b.whole ≠ a.whole ∨ b.near ≠ r.near ∧ b.whole = a.whole)

instance (a b r : Cell) : Decidable (Clashes a b r) := by
  unfold Clashes
  infer_instance

/-- Some of the cells clash. -/
def HasClash (P : Option Cell → Prop) : Prop :=
  ∃ a b r, P (some a) ∧ P (some b) ∧ P (some r) ∧ Clashes a b r

theorem natAbs_signed (negative : Bool) (n : Nat) : (signed negative n).natAbs = n := by
  cases negative <;> simp [signed]

section Numbers

variable {a b c r : Cell}

theorem isLE_compare_int {m n : Int} : (compare m n).isLE = true ↔ m ≤ n :=
  Std.LawfulOrderOrd.isLE_compare m n

/-- What is compared of two numbers. -/
theorem compareCells_number (ha : a.isComparable = true) (hb : b.isComparable = true)
    (hak : a.kind.isNumeric = true) (hbk : b.kind.isNumeric = true) :
    compareCells (some a) (some b) =
      if a.kind = .integer ∧ b.kind = .integer then compare a.whole b.whole
      else compare a.near b.near := by
  show compareValues a b = _
  split
  · rename_i hkind
    exact Cell.compareValues_whole ha hb hkind.1 hkind.2
  · rename_i hkind
    exact Cell.compareValues_near ha hb hak hbk hkind

theorem isLE_compareCells_number (ha : a.isComparable = true) (hb : b.isComparable = true)
    (hak : a.kind.isNumeric = true) (hbk : b.kind.isNumeric = true) :
    (compareCells (some a) (some b)).isLE = true ↔
      if a.kind = .integer ∧ b.kind = .integer then a.whole ≤ b.whole else a.near ≤ b.near := by
  rw [compareCells_number ha hb hak hbk]
  split <;> exact isLE_compare_int

theorem kind_cases (h : c.kind.isNumeric = true) : c.kind = .integer ∨ c.kind = .real := by
  cases hk : c.kind <;> simp [hk, CellKind.isNumeric] at h ⊢

/-- A whole number that is no greater than another is not rounded above a third. -/
theorem near_le_of_whole_le (ha : a.isComparable = true) (hb : b.isComparable = true)
    (hak : a.kind = .integer) (hbk : b.kind = .integer) (hrk : r.kind = .real)
    (hclash : ¬ Clashes b a r) (hab : a.whole ≤ b.whole) (hbr : b.near ≤ r.near) :
    a.near ≤ r.near := by
  by_contra hgt
  have hlt : a.whole < b.whole → a.near ≤ b.near := Cell.near_le_of_whole_lt ha hb hak hbk
  have heq : b.whole = a.whole → a.near ≤ b.near + 1 := Cell.near_le_of_whole_eq hb ha hbk hak
  -- the two are zeros, and the third is the one with the minus
  exact hclash ⟨hbk, hak, hrk, by omega, Or.inr ⟨by omega, by omega⟩⟩

/-- A whole number that is no smaller than another is not rounded below a third. -/
theorem le_near_of_whole_le (hb : b.isComparable = true) (hc : c.isComparable = true)
    (hbk : b.kind = .integer) (hck : c.kind = .integer) (hrk : r.kind = .real)
    (hclash : ¬ Clashes b c r) (hrb : r.near ≤ b.near) (hbc : b.whole ≤ c.whole) :
    r.near ≤ c.near := by
  by_contra hgt
  have hlt : b.whole < c.whole → b.near ≤ c.near := Cell.near_le_of_whole_lt hb hc hbk hck
  have heq : c.whole = b.whole → b.near ≤ c.near + 1 := Cell.near_le_of_whole_eq hc hb hck hbk
  -- the two are zeros, and the third is the one without the minus
  exact hclash ⟨hbk, hck, hrk, by omega, Or.inr ⟨by omega, by omega⟩⟩

/-- Of two whole numbers with a third between them the first is not greater. -/
theorem whole_le_of_near_le (ha : a.isComparable = true) (hc : c.isComparable = true)
    (hak : a.kind = .integer) (hck : c.kind = .integer) (hrk : r.kind = .real)
    (hclash : ¬ Clashes a c r) (har : a.near ≤ r.near) (hrc : r.near ≤ c.near) :
    a.whole ≤ c.whole := by
  by_contra hgt
  have hlt : c.whole < a.whole → c.near ≤ a.near := Cell.near_le_of_whole_lt hc ha hck hak
  -- both would be rounded to the third
  exact hclash ⟨hak, hck, hrk, by omega, Or.inl ⟨by omega, by omega⟩⟩

/-- Without clashes numbers are ordered. Only two whole numbers beside another number are compared
in different ways. -/
theorem isLE_trans_number {P : Option Cell → Prop} (hclash : ¬ HasClash P) (ha : P (some a))
    (hb : P (some b)) (hc : P (some c)) (hac : a.isComparable = true) (hbc : b.isComparable = true)
    (hcc : c.isComparable = true) (hak : a.kind.isNumeric = true) (hbk : b.kind.isNumeric = true)
    (hck : c.kind.isNumeric = true) (hle : (compareCells (some a) (some b)).isLE = true)
    (hle' : (compareCells (some b) (some c)).isLE = true) :
    (compareCells (some a) (some c)).isLE = true := by
  rw [isLE_compareCells_number hac hbc hak hbk] at hle
  rw [isLE_compareCells_number hbc hcc hbk hck] at hle'
  rw [isLE_compareCells_number hac hcc hak hck]
  have hnone : ∀ {x y z : Cell}, P (some x) → P (some y) → P (some z) → ¬ Clashes x y z :=
    fun hx hy hz h => hclash ⟨_, _, _, hx, hy, hz, h⟩
  rcases kind_cases hak with ha' | ha' <;> rcases kind_cases hbk with hb' | hb' <;>
    rcases kind_cases hck with hc' | hc' <;>
    simp only [ha', hb', hc', reduceCtorEq, and_true, and_false, and_self, if_true, if_false]
      at hle hle' ⊢
  · omega
  · exact near_le_of_whole_le hac hbc ha' hb' hc' (hnone hb ha hc) hle hle'
  · exact whole_le_of_near_le hac hcc ha' hc' hb' (hnone ha hc hb) hle hle'
  · omega
  · exact le_near_of_whole_le hbc hcc hb' hc' ha' (hnone hb hc ha) hle hle'
  · omega
  · omega
  · omega

end Numbers

theorem isNumeric_iff {kind : CellKind} : kind.isNumeric = true ↔ kind.rank = 0 := by
  cases kind <;> simp [CellKind.isNumeric, CellKind.rank]

/-- Texts are compared as such, and so are bytes. -/
theorem compareCells_text {a b : Cell} (hrank : a.kind.rank = b.kind.rank)
    (hkind : a.kind.isNumeric = false) :
    compareCells (some a) (some b) = compare a.text b.text := by
  have hsame : compare b.kind.rank b.kind.rank = .eq := Std.ReflCmp.compare_self
  show compareValues a b = _
  rw [compareValues, hkind, hrank, hsame]
  rfl

/-- Without clashes the cells of one class are ordered, as numbers or as texts. -/
theorem isLE_trans_of_classRank {P : Option Cell → Prop} (hP : ∀ c, P c → isComparable c = true)
    (hclash : ¬ HasClash P) {a b c : Option Cell} (ha : P a) (hb : P b) (hc : P c)
    (hab : classRank a = classRank b) (hbc : classRank b = classRank c)
    (hle : (compareCells a b).isLE = true) (hle' : (compareCells b c).isLE = true) :
    (compareCells a c).isLE = true := by
  rcases a with _ | a <;> rcases b with _ | b <;> rcases c with _ | c <;>
    simp only [classRank, reduceCtorEq, Nat.add_right_cancel_iff, Nat.add_eq_zero_iff, and_false]
      at hab hbc
  · rfl
  · cases hak : a.kind.isNumeric with
    | true =>
      have hbk : b.kind.isNumeric = true := by rwa [isNumeric_iff, ← hab, ← isNumeric_iff]
      have hck : c.kind.isNumeric = true := by rwa [isNumeric_iff, ← hbc, ← isNumeric_iff]
      exact isLE_trans_number hclash ha hb hc (hP _ ha) (hP _ hb) (hP _ hc) hak hbk hck hle hle'
    | false =>
      have hbk : b.kind.isNumeric = false := by
        rw [Bool.eq_false_iff, ne_eq, isNumeric_iff, ← hab, ← isNumeric_iff, hak]
        exact Bool.false_ne_true
      rw [compareCells_text hab hak] at hle
      rw [compareCells_text hbc hbk] at hle'
      rw [compareCells_text (hab.trans hbc) hak]
      exact Std.TransCmp.isLE_trans hle hle'

/-- Cells without clashes are ordered. -/
theorem isPreorderOn_compareCells {P : Option Cell → Prop}
    (hP : ∀ c, P c → isComparable c = true) (hclash : ¬ HasClash P) :
    IsPreorderOn P compareCells := by
  have hlex : IsPreorderOn P fun a b =>
      (compare (classRank a) (classRank b)).then (compareCells a b) := by
    refine (isPreorderOn_compare P classRank).lex (fun _ => compareCells_self _)
      (fun _ _ _ => compareCells_swap _ _) fun ha hb hc hab hbc => ?_
    exact isLE_trans_of_classRank hP hclash ha hb hc (Std.LawfulEqOrd.compare_eq_iff_eq.1 hab)
      (Std.LawfulEqOrd.compare_eq_iff_eq.1 hbc)
  have hsame : (fun a b => (compare (classRank a) (classRank b)).then (compareCells a b)) =
      compareCells := funext fun a => funext fun b => (compareCells_eq_then a b).symm
  rwa [hsame] at hlex

/-- Where cells clash, equality is not transitive. -/
theorem not_hasClash_of_isPreorderOn {P : Option Cell → Prop}
    (hP : ∀ c, P c → isComparable c = true) (h : IsPreorderOn P compareCells) : ¬ HasClash P := by
  rintro ⟨a, b, r, ha, hb, hr, hak, hbk, hrk, hnear, hcases⟩
  have hai : a.kind.isNumeric = true := by rw [hak]; rfl
  have hbi : b.kind.isNumeric = true := by rw [hbk]; rfl
  have hri : r.kind.isNumeric = true := by rw [hrk]; rfl
  have hsame : ∀ {m n : Int}, compare m n = .eq ↔ m = n := Std.LawfulEqOrd.compare_eq_iff_eq
  have hba : compareCells (some b) (some a) = compare b.whole a.whole := by
    rw [compareCells_number (hP _ hb) (hP _ ha) hbi hai, if_pos ⟨hbk, hak⟩]
  have har : compareCells (some a) (some r) = .eq := by
    rw [compareCells_number (hP _ ha) (hP _ hr) hai hri, if_neg (by simp [hrk]), hsame, hnear]
  have hbr : compareCells (some b) (some r) = compare b.near r.near := by
    rw [compareCells_number (hP _ hb) (hP _ hr) hbi hri, if_neg (by simp [hrk])]
  rcases hcases with ⟨hrounded, hne⟩ | ⟨hne, hequal⟩
  · -- both whole numbers equal the third, but not each other
    have hra : compareCells (some r) (some a) = .eq := by
      rw [compareCells_swap (some a) (some r), har]
      rfl
    have heq := h.eq_trans hb hr ha (hbr.trans (hsame.2 hrounded)) hra
    exact hne (hsame.1 (hba.symm.trans heq))
  · -- the whole numbers equal each other, but only one of them the third
    have heq := h.eq_trans hb ha hr (hba.trans (hsame.2 hequal)) har
    exact hne (hsame.1 (hbr.symm.trans heq))

/-! ## Rows -/

/-- The leading cells of a row are as asked for, each in its column. -/
def RowOver (P : Nat → Option Cell → Prop) (count : Nat) (row : Row) : Prop :=
  ∀ i < count, P i row[i]?.join

theorem RowOver.tail {P : Nat → Option Cell → Prop} {count : Nat} {row : Row}
    (h : RowOver P (count + 1) row) : RowOver (fun i => P (i + 1)) count row.tail := by
  intro i hi
  have := h (i + 1) (by omega)
  rwa [List.getElem?_tail]

/-- Rows of one layout are ordered if the cells of every column are, whatever the directions. -/
theorem isPreorderOn_compareRows (layout : SortLayout) {P : Nat → Option Cell → Prop}
    (h : ∀ i < layout.length, IsPreorderOn (P i) compareCells) :
    IsPreorderOn (RowOver P layout.length) fun x y => compareRows layout x layout y := by
  induction layout generalizing P with
  | nil =>
    have hnone : ∀ x y : Row, compareRows [] x [] y = .eq := fun x y => by simp [compareRows]
    exact IsPreorderOn.of_trans (fun _ => hnone _ _)
      (fun _ _ => by rw [hnone, hnone]; rfl) fun _ _ _ _ _ => by rw [hnone]; rfl
  | cons column layout ih =>
    -- the first column decides, and the others where it finds the cells equal
    have hfirst : IsPreorderOn (RowOver P (layout.length + 1)) fun x y =>
        directed column.descending (compareCells x.head?.join y.head?.join) := by
      refine ((h 0 (by simp)).directed column.descending).comap (fun x : Row => x.head?.join) ?_
      intro x hx
      have := hx 0 (by omega)
      rwa [List.head?_eq_getElem?]
    have hothers : ∀ i < layout.length, IsPreorderOn (P (i + 1)) compareCells :=
      fun i hi => h (i + 1) (by simpa using hi)
    have hrest : IsPreorderOn (RowOver P (layout.length + 1)) fun x y =>
        compareRows layout x.tail layout y.tail := (ih hothers).comap List.tail fun x hx => hx.tail
    have hlex := hfirst.lex (g := fun x y => compareRows layout x.tail layout y.tail)
      hrest.refl (fun ha hb _ => hrest.swap ha hb)
      fun ha hb hc _ _ => hrest.trans ha hb hc
    have hsame : (fun x y => compareRows (column :: layout) x (column :: layout) y) = fun x y =>
        (directed column.descending (compareCells x.head?.join y.head?.join)).then
          (compareRows layout x.tail layout y.tail) := by
      funext x y
      rw [compareRows, if_pos rfl]
    rw [hsame]
    exact hlex

/-- Whole numbers up to `2 ^ 53` do not clash if no zero has a minus. -/
theorem not_hasClash_of_small {P : Option Cell → Prop} (hP : ∀ c, P c → isComparable c = true)
    (hsmall : ∀ c : Cell, P (some c) → c.kind = .integer →
      c.whole.natAbs ≤ Nat.pow 2 53 ∧ (c.whole = 0 → c.near = 0)) : ¬ HasClash P := by
  rintro ⟨a, b, r, ha, hb, hr, hak, hbk, hrk, hnear, hcases⟩
  obtain ⟨hale, hazero⟩ := hsmall a ha hak
  obtain ⟨hble, hbzero⟩ := hsmall b hb hbk
  obtain ⟨s, m, -, -, haw, han⟩ := Cell.exists_whole (hP _ ha) hak
  obtain ⟨t, n, -, -, hbw, hbn⟩ := Cell.exists_whole (hP _ hb) hbk
  rw [haw, natAbs_signed] at hale
  rw [hbw, natAbs_signed] at hble
  rcases hcases with ⟨hrounded, hne⟩ | ⟨hne, hequal⟩
  · -- different numbers of that size are not rounded to one
    rcases Int.lt_or_gt_of_ne hne with hlt | hgt
    · have := Binary64.wholeKey_lt hble hale (by rwa [haw, hbw] at hlt)
      omega
    · have := Binary64.wholeKey_lt hale hble (by rwa [haw, hbw] at hgt)
      omega
  · rcases eq_of_signed_eq (hbw.symm.trans (hequal.trans haw)) with ⟨rfl, rfl⟩ | ⟨rfl, rfl⟩
    · omega
    · have hzero : ∀ sign : Bool, signed sign 0 = 0 := by decide
      rw [hzero] at haw hbw
      have := hazero haw
      have := hbzero hbw
      omega

/-- Cells compare the same both ways, and each equals itself. Sort cells are ordered exactly where
none clash, and then rows of any layout over them are ordered, in any directions. Columns without
whole numbers beyond `2 ^ 53` and zeros with a minus have no clash. -/
theorem compareCells_isPreorderOn_iff {P : Nat → Option Cell → Prop}
    (hP : ∀ i c, P i c → isComparable c = true) :
    (∀ a b, compareCells a a = .eq ∧ compareCells b a = (compareCells a b).swap) ∧
      (∀ i, IsPreorderOn (P i) compareCells ↔ ¬ HasClash (P i)) ∧
      (∀ layout : SortLayout, (∀ i < layout.length, ¬ HasClash (P i)) →
        IsPreorderOn (RowOver P layout.length) fun x y => compareRows layout x layout y) ∧
      ∀ i, (∀ c : Cell, P i (some c) → c.kind = .integer →
        c.whole.natAbs ≤ Nat.pow 2 53 ∧ (c.whole = 0 → c.near = 0)) → ¬ HasClash (P i) := by
  refine ⟨fun a b => ⟨compareCells_self a, compareCells_swap a b⟩, fun i => ⟨?_, ?_⟩, ?_, ?_⟩
  · exact not_hasClash_of_isPreorderOn (hP i)
  · exact isPreorderOn_compareCells (hP i)
  · intro layout hclash
    exact isPreorderOn_compareRows layout fun i hi => isPreorderOn_compareCells (hP i) (hclash i hi)
  · exact fun i => not_hasClash_of_small (hP i)

/-- Two great whole numbers beside another number that neither of them is rounded to. -/
def greatCodes : List Cell :=
  [⟨.integer, "9007199254740992"⟩, ⟨.integer, "9007199254740993"⟩, ⟨.real, "2.5"⟩, ⟨.text, "a"⟩]

theorem compareCells_isPreorderOn_iff_codes :
    IsPreorderOn (fun c => ∀ x ∈ c, x ∈ greatCodes) compareCells := by
  have hcomparable : ∀ x ∈ greatCodes, x.isComparable = true := by decide +kernel
  have hclash : ∀ a ∈ greatCodes, ∀ b ∈ greatCodes, ∀ r ∈ greatCodes, ¬ Clashes a b r := by
    decide +kernel
  have hP : ∀ (_ : Nat) (c : Option Cell), (∀ x ∈ c, x ∈ greatCodes) → isComparable c = true := by
    intro _ c hc
    cases c with
    | none => rfl
    | some x => exact hcomparable x (hc x rfl)
  refine ((compareCells_isPreorderOn_iff hP).2.1 0).2 ?_
  rintro ⟨a, b, r, ha, hb, hr, habr⟩
  exact hclash a (ha a rfl) b (hb b rfl) r (hr r rfl) habr

/-- Two whole numbers are rounded to one number, and each equals that, but they differ. -/
theorem not_isPreorderOn_codes :
    ¬ IsPreorderOn (fun c => isComparable c = true) compareCells := by
  intro h
  have hequal : compareCells (some ⟨.integer, "9007199254740993"⟩)
      (some ⟨.real, "9007199254740992"⟩) = .eq := by decide +kernel
  have hequal' : compareCells (some ⟨.real, "9007199254740992"⟩)
      (some ⟨.integer, "9007199254740992"⟩) = .eq := by decide +kernel
  have heq := h.eq_trans (by decide +kernel) (by decide +kernel) (by decide +kernel) hequal hequal'
  exact absurd heq (by decide +kernel)

end FeatureStore
