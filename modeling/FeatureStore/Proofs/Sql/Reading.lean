import FeatureStore.Proofs.Sql.Lowered
import FeatureStore.Proofs.Sql.Token

/-!
# Boolean readings of a text

A database reads the condition of a statement by the precedence of its operators: a negation binds
more tightly than a conjunction, that more tightly than a disjunction, and the AND behind a BETWEEN
belongs to it. `readText` reads a text in this way, with what stands between these operators as
atoms; a negation in front of IN, LIKE or BETWEEN negates the atom around it, and a comparison of
the numbers one and nought is a truth value. A text is a conjunction if it has no OR outside
parentheses (`ReadsAll`). Conjunctions can be joined by AND without parentheses
(`ReadsAll.append`), and stand in parentheses for a single part (`ReadsAll.group`).
-/

set_option autoImplicit false

namespace FeatureStore

/-- What a text says: a boolean combination of atoms, each of which is a list of items. -/
abbrev Reading := Condition (List Item)

/-! ## Reading by precedence -/

namespace Item

/-- The item is a keyword, in whatever case of letters. -/
def isKeyword (keyword : String) : Item → Bool
  | .word text => text.map Char.toUpper == keyword.toList
  | _ => false

/-- The item is the word of a keyword. -/
def ofKeyword (keyword : String) : Item := .word keyword.toList

/-- The keywords that the structure of a text depends on. -/
def structural : List String := ["AND", "OR", "NOT", "BETWEEN"]

/-- The item has no part in the structure of a text. -/
def isQuiet (item : Item) : Bool := structural.all fun keyword => !item.isKeyword keyword

/-- A keyword that may stand behind a negation inside an atom. -/
def isNegatable (item : Item) : Bool :=
  item.isKeyword "IN" || item.isKeyword "LIKE" || item.isKeyword "BETWEEN"

end Item

/-- An item, and what the text between its parentheses says if it is a group. -/
abbrev AnnotatedItem := Item × Option Reading

/-- An item in front of the first of some parts. -/
def consPart {α : Type} (a : α) : List (List α) → List (List α)
  | [] => [[a]]
  | part :: parts => (a :: part) :: parts

/-- The parts of a text around each OR. -/
def splitOr : List AnnotatedItem → List (List AnnotatedItem)
  | [] => [[]]
  | a :: rest => if a.1.isKeyword "OR" then [] :: splitOr rest else consPart a (splitOr rest)

/-- The parts of a text around each AND. The one behind a BETWEEN is passed over; `isOpen` is that
such a one has not come yet. -/
def splitAnd (isOpen : Bool) : List AnnotatedItem → List (List AnnotatedItem)
  | [] => [[]]
  | a :: rest =>
    if a.1.isKeyword "BETWEEN" then consPart a (splitAnd true rest)
    else if a.1.isKeyword "AND" then
      if isOpen then consPart a (splitAnd false rest) else [] :: splitAnd false rest
    else consPart a (splitAnd isOpen rest)

/-- The items without a negation in front of IN, LIKE or BETWEEN, if there is one. -/
def withoutNegation : List Item → Option (List Item)
  | [] => none
  | item :: rest =>
    if item.isKeyword "NOT" && (rest.head?.map Item.isNegatable).getD false then some rest
    else (withoutNegation rest).map (item :: ·)

/-- The items can be an atom: there are some, none of them is a negation, and every BETWEEN has its
AND. -/
def isAtom (items : List Item) : Bool :=
  !items.isEmpty && !items.any (Item.isKeyword "NOT") &&
    items.countP (Item.isKeyword "BETWEEN") == items.countP (Item.isKeyword "AND")

/-- What a comparison of two numbers says, if it is one of those that stand for truth values. -/
def truthValue? : List Item → Option Bool
  | [.word ['1'], .sign '=', .word ['1']] => some true
  | [.word ['1'], .sign '=', .word ['0']] => some false
  | _ => none

/-- What a text without conjunctions and disjunctions says, apart from negations in front of it. -/
def readAtom (items : List Item) : Option Reading :=
  match truthValue? items, withoutNegation items with
  | some value, _ => some (.constant value)
  | none, some positive => if isAtom positive then some (.negation (.atom positive)) else none
  | none, none => if isAtom items then some (.atom items) else none

/-- What a text without conjunctions and disjunctions says. -/
def readLiteral : List AnnotatedItem → Option Reading
  | [] => none
  | (.group _, reading) :: [] => reading
  | (item, reading) :: rest =>
    if item.isKeyword "NOT" then (readLiteral rest).map .negation
    else readAtom (((item, reading) :: rest).map Prod.fst)

/-- The parts of the conjunctions that a text is the disjunction of. -/
def readParts (items : List AnnotatedItem) : Option (List (List Reading)) :=
  (splitOr items).mapM fun part => (splitAnd false part).mapM readLiteral

/-- The disjunction of some conjunctions. -/
def ofParts (parts : List (List Reading)) : Reading := .any (parts.map .all)

mutual
/-- What the text between the parentheses of a group says. -/
def Item.reading : Item → Option Reading
  | .group items => (readParts (annotate items)).map ofParts
  | _ => none

/-- Items with what the groups among them say. -/
def annotate : List Item → List AnnotatedItem
  | [] => []
  | item :: rest => (item, item.reading) :: annotate rest
end

/-- What a text says, by the precedence of its operators: a disjunction of conjunctions. -/
def readText (text : String) : Option (List (List Reading)) :=
  (itemsOf text.toList).bind fun items => readParts (annotate items)

/-- What a text says holds. -/
def holdsParts (truth : List Item → Bool) (parts : List (List Reading)) : Bool :=
  parts.any fun conjunction => conjunction.all (Condition.holds truth)

/-! ## Items of a conjunction -/

section Items

variable {items before behind : List Item}

theorem annotate_append (a b : List Item) : annotate (a ++ b) = annotate a ++ annotate b := by
  induction a with
  | nil => rfl
  | cons item a ih => rw [List.cons_append, annotate, ih, annotate, List.cons_append]

theorem map_fst_annotate (items : List Item) : (annotate items).map Prod.fst = items := by
  induction items with
  | nil => rfl
  | cons item items ih => rw [annotate, List.map_cons, ih]

/-- No item has a part in the structure of the text. -/
def AllQuiet (items : List Item) : Prop := ∀ item ∈ items, item.isQuiet = true

instance : DecidablePred AllQuiet := fun items =>
  inferInstanceAs (Decidable (∀ item ∈ items, item.isQuiet = true))

theorem AllQuiet.append {a b : List Item} (ha : AllQuiet a) (hb : AllQuiet b) :
    AllQuiet (a ++ b) := List.forall_mem_append.2 ⟨ha, hb⟩

theorem isKeyword_of_isQuiet {item : Item} (h : item.isQuiet = true) {keyword : String}
    (hkeyword : keyword ∈ Item.structural) : item.isKeyword keyword = false := by
  rw [Item.isQuiet, List.all_eq_true] at h
  exact Bool.not_eq_true' _ ▸ h keyword hkeyword

/-- The items hold together: there is no OR among them, and no AND but one behind a BETWEEN. -/
inductive Coheres : List Item → Prop
  | plain {items : List Item} : (∀ item ∈ items, item.isKeyword "OR" = false ∧
    item.isKeyword "AND" = false ∧ item.isKeyword "BETWEEN" = false) → Coheres items
  | between {value lower upper : List Item} : AllQuiet value → AllQuiet lower → AllQuiet upper →
    Coheres (value ++ Item.ofKeyword "BETWEEN" :: (lower ++ Item.ofKeyword "AND" :: upper))

theorem coheres_of_allQuiet (h : AllQuiet items) : Coheres items :=
  .plain fun item hitem => ⟨isKeyword_of_isQuiet (h item hitem) (by decide),
    isKeyword_of_isQuiet (h item hitem) (by decide),
    isKeyword_of_isQuiet (h item hitem) (by decide)⟩

/-- Items without an OR stay together. -/
theorem splitOr_append (h : ∀ item ∈ items, item.isKeyword "OR" = false)
    {rest part : List AnnotatedItem} {parts : List (List AnnotatedItem)}
    (hrest : splitOr rest = part :: parts) :
    splitOr (annotate items ++ rest) = (annotate items ++ part) :: parts := by
  induction items with
  | nil => exact hrest
  | cons item items ih =>
    obtain ⟨hitem, hitems⟩ := List.forall_mem_cons.1 h
    rw [annotate, List.cons_append, splitOr, hitem, ih hitems]
    rfl

/-- Items without AND and BETWEEN stay together. -/
theorem splitAnd_append {isOpen : Bool} (h : ∀ item ∈ items, item.isKeyword "AND" = false ∧
    item.isKeyword "BETWEEN" = false) {rest part : List AnnotatedItem}
    {parts : List (List AnnotatedItem)} (hrest : splitAnd isOpen rest = part :: parts) :
    splitAnd isOpen (annotate items ++ rest) = (annotate items ++ part) :: parts := by
  induction items with
  | nil => exact hrest
  | cons item items ih =>
    obtain ⟨⟨hand, hbetween⟩, hitems⟩ := List.forall_mem_cons.1 h
    rw [annotate, List.cons_append, splitAnd, hand, hbetween, ih hitems]
    rfl

theorem Coheres.no_or (h : Coheres items) : ∀ item ∈ items, item.isKeyword "OR" = false := by
  cases h with
  | plain h => exact fun item hitem => (h item hitem).1
  | between hvalue hlower hupper =>
    have hquiet : ∀ {l : List Item}, AllQuiet l → ∀ item ∈ l, item.isKeyword "OR" = false :=
      fun h item hitem => isKeyword_of_isQuiet (h item hitem) (by decide)
    refine List.forall_mem_append.2 ⟨hquiet hvalue, List.forall_mem_cons.2 ⟨by decide, ?_⟩⟩
    exact List.forall_mem_append.2
      ⟨hquiet hlower, List.forall_mem_cons.2 ⟨by decide, hquiet hupper⟩⟩

/-- Items that hold together are not split at an AND. -/
theorem Coheres.splitAnd_eq (h : Coheres items) {rest part : List AnnotatedItem}
    {parts : List (List AnnotatedItem)} (hrest : splitAnd false rest = part :: parts) :
    splitAnd false (annotate items ++ rest) = (annotate items ++ part) :: parts := by
  cases h with
  | plain h =>
    exact splitAnd_append (fun item hitem => (h item hitem).2) hrest
  | @between value lower upper hvalue hlower hupper =>
    have hquiet : ∀ {l : List Item}, AllQuiet l →
        ∀ item ∈ l, item.isKeyword "AND" = false ∧ item.isKeyword "BETWEEN" = false :=
      fun h item hitem => ⟨isKeyword_of_isQuiet (h item hitem) (by decide),
        isKeyword_of_isQuiet (h item hitem) (by decide)⟩
    -- behind the BETWEEN the first AND is passed over, and then all is as before
    have hupper' := splitAnd_append (hquiet hupper) hrest
    have hand : splitAnd true (annotate (Item.ofKeyword "AND" :: upper) ++ rest) =
        (annotate (Item.ofKeyword "AND" :: upper) ++ part) :: parts := by
      rw [annotate, List.cons_append, splitAnd, hupper']
      rfl
    have hlower' := splitAnd_append (hquiet hlower) hand
    have hbetween : splitAnd false (annotate (Item.ofKeyword "BETWEEN" ::
        (lower ++ Item.ofKeyword "AND" :: upper)) ++ rest) = (annotate (Item.ofKeyword "BETWEEN" ::
        (lower ++ Item.ofKeyword "AND" :: upper)) ++ part) :: parts := by
      rw [annotate, annotate_append, List.cons_append, List.append_assoc, splitAnd, hlower',
        List.cons_append, List.append_assoc]
      rfl
    have hvalue' := splitAnd_append (hquiet hvalue) hbetween
    rw [annotate_append, List.append_assoc, hvalue', List.append_assoc]

end Items

/-! ## Conjunctions -/

/-- The items say that all of some parts hold, and have no OR outside parentheses. -/
inductive ReadsAll : List Item → List Reading → Prop
  | single {items : List Item} {part : Reading} : Coheres items →
    readLiteral (annotate items) = some part → ReadsAll items [part]
  | and {items rest : List Item} {part : Reading} {parts : List Reading} : Coheres items →
    readLiteral (annotate items) = some part → ReadsAll rest parts →
      ReadsAll (items ++ Item.ofKeyword "AND" :: rest) (part :: parts)

namespace ReadsAll

variable {a b : List Item} {as bs : List Reading}

/-- Conjunctions are joined by AND as they are. -/
theorem append (ha : ReadsAll a as) (hb : ReadsAll b bs) :
    ReadsAll (a ++ Item.ofKeyword "AND" :: b) (as ++ bs) := by
  induction ha with
  | single hitems hpart => exact .and hitems hpart hb
  | and hitems hpart _ ih =>
    rw [List.append_assoc, List.cons_append, List.cons_append]
    exact .and hitems hpart ih

theorem no_or (h : ReadsAll a as) : ∀ item ∈ a, item.isKeyword "OR" = false := by
  induction h with
  | single hitems _ => exact hitems.no_or
  | and hitems _ _ ih =>
    exact List.forall_mem_append.2 ⟨hitems.no_or, List.forall_mem_cons.2 ⟨by decide, ih⟩⟩

/-- Between two ANDs stands one part. -/
theorem mapM_splitAnd (h : ReadsAll a as) :
    (splitAnd false (annotate a)).mapM readLiteral = some as := by
  induction h with
  | @single items part hitems hpart =>
    have hnil : splitAnd false [] = [[]] := rfl
    have hsplit := hitems.splitAnd_eq hnil
    rw [List.append_nil] at hsplit
    rw [hsplit, List.mapM_cons, hpart]
    rfl
  | @and items rest part parts hitems hpart _ ih =>
    have hand : splitAnd false (annotate (Item.ofKeyword "AND" :: rest)) =
        [] :: splitAnd false (annotate rest) := by
      rw [annotate, splitAnd]
      rfl
    have hsplit := hitems.splitAnd_eq hand
    rw [List.append_nil] at hsplit
    rw [annotate_append, hsplit, List.mapM_cons, hpart]
    simp [ih]

/-- What a conjunction says, alone or as the first of several alternatives. -/
theorem readParts_append (h : ReadsAll a as) {b : List Item} {parts : List (List Reading)}
    (hb : readParts (annotate b) = some parts) :
    readParts (annotate (a ++ Item.ofKeyword "OR" :: b)) = some (as :: parts) := by
  have hor : splitOr (annotate (Item.ofKeyword "OR" :: b)) = [] :: splitOr (annotate b) := by
    rw [annotate, splitOr]
    rfl
  have hsplit := splitOr_append h.no_or hor
  rw [readParts] at hb
  rw [readParts, annotate_append, hsplit, List.append_nil, List.mapM_cons, h.mapM_splitAnd]
  simp [hb]

theorem readParts_eq (h : ReadsAll a as) : readParts (annotate a) = some [as] := by
  have hnil : splitOr [] = [[]] := rfl
  have hsplit := splitOr_append h.no_or hnil
  rw [List.append_nil] at hsplit
  rw [readParts, hsplit, List.mapM_cons, h.mapM_splitAnd]
  rfl

end ReadsAll

section Groups

variable {items : List Item} {parts : List (List Reading)}

/-- Parentheses make a single part of whatever they enclose. -/
theorem readsAll_group (h : readParts (annotate items) = some parts) :
    ReadsAll [.group items] [ofParts parts] := by
  refine .single (coheres_of_allQuiet ?_) ?_
  · simp [AllQuiet, Item.isQuiet, Item.structural, Item.isKeyword]
  · rw [annotate, annotate, readLiteral, Item.reading, h]
    rfl

/-- A negation in front of parentheses negates what they enclose. -/
theorem readsAll_not_group (h : readParts (annotate items) = some parts) :
    ReadsAll [Item.ofKeyword "NOT", .group items] [.negation (ofParts parts)] := by
  refine .single (.plain ?_) ?_
  · simp [Item.isKeyword, Item.ofKeyword]
  · rw [annotate, annotate, annotate, readLiteral, readLiteral, Item.reading, h]
    · rfl
    · simp

end Groups

/-! ## Atoms -/

section Atoms

variable {items value : List Item}

/-- Without a negation in front, what is no group is read as an atom. -/
theorem readLiteral_eq_readAtom {item : Item} {rest : List Item}
    (hnot : item.isKeyword "NOT" = false) (hgroup : ∀ inner, item :: rest ≠ [.group inner]) :
    readLiteral (annotate (item :: rest)) = readAtom (item :: rest) := by
  rw [annotate, readLiteral, hnot, if_neg Bool.false_ne_true, List.map_cons, map_fst_annotate]
  -- a group is only read by itself if nothing stands behind it
  rintro inner hrest rfl
  cases rest with
  | nil => exact hgroup inner rfl
  | cons other rest => simp [annotate] at hrest

theorem withoutNegation_eq_none (h : ∀ item ∈ items, item.isKeyword "NOT" = false) :
    withoutNegation items = none := by
  induction items with
  | nil => rfl
  | cons item items ih =>
    obtain ⟨hitem, hitems⟩ := List.forall_mem_cons.1 h
    rw [withoutNegation, hitem, ih hitems]
    rfl

/-- A negation behind quiet items is found if its keyword follows. -/
theorem withoutNegation_append (hvalue : ∀ item ∈ value, item.isKeyword "NOT" = false)
    {keyword : Item} (hkeyword : keyword.isNegatable = true) (rest : List Item) :
    withoutNegation (value ++ Item.ofKeyword "NOT" :: keyword :: rest) =
      some (value ++ keyword :: rest) := by
  induction value with
  | nil =>
    rw [List.nil_append, withoutNegation, List.head?_cons, Option.map_some, hkeyword]
    rfl
  | cons item value ih =>
    obtain ⟨hitem, hitems⟩ := List.forall_mem_cons.1 hvalue
    rw [List.cons_append, withoutNegation, hitem, ih hitems]
    rfl

theorem countP_eq_zero_of_allQuiet (h : AllQuiet items) {keyword : String}
    (hkeyword : keyword ∈ Item.structural) : items.countP (Item.isKeyword keyword) = 0 :=
  List.countP_eq_zero.2 fun item hitem => by
    rw [isKeyword_of_isQuiet (h item hitem) hkeyword]
    exact Bool.false_ne_true

theorem any_not_eq_false_of_allQuiet (h : AllQuiet items) :
    items.any (Item.isKeyword "NOT") = false :=
  List.any_eq_false.2 fun item hitem => by
    rw [isKeyword_of_isQuiet (h item hitem) (by decide)]
    exact Bool.false_ne_true

theorem isAtom_of_allQuiet (h : AllQuiet items) (hne : items ≠ []) : isAtom items = true := by
  rw [isAtom, any_not_eq_false_of_allQuiet h, countP_eq_zero_of_allQuiet h (by decide),
    countP_eq_zero_of_allQuiet h (by decide)]
  simp [hne]

/-- Quiet items that are no group say that an atom holds, or are a truth value. -/
theorem exists_readsAll_of_allQuiet (h : AllQuiet items) (hne : items ≠ [])
    (hgroup : ∀ inner, items ≠ [.group inner]) : ∃ part, ReadsAll items [part] := by
  have hread : ∃ part, readAtom items = some part := by
    rw [readAtom, withoutNegation_eq_none fun item hitem =>
      isKeyword_of_isQuiet (h item hitem) (by decide), isAtom_of_allQuiet h hne]
    cases truthValue? items with
    | none => exact ⟨_, rfl⟩
    | some value => exact ⟨_, rfl⟩
  obtain ⟨part, hpart⟩ := hread
  refine ⟨part, .single (coheres_of_allQuiet h) ?_⟩
  cases items with
  | nil => exact absurd rfl hne
  | cons item items =>
    have hnot : item.isKeyword "NOT" = false :=
      isKeyword_of_isQuiet (h item List.mem_cons_self) (by decide)
    rw [readLiteral_eq_readAtom hnot hgroup, hpart]

/-- A range has one BETWEEN and one AND. -/
theorem countP_between {value lower upper : List Item} (hvalue : AllQuiet value)
    (hlower : AllQuiet lower) (hupper : AllQuiet upper) {keyword : String}
    (hkeyword : keyword ∈ Item.structural) :
    (value ++ Item.ofKeyword "BETWEEN" :: (lower ++ Item.ofKeyword "AND" :: upper)).countP
        (Item.isKeyword keyword) =
      [Item.ofKeyword "BETWEEN", Item.ofKeyword "AND"].countP (Item.isKeyword keyword) := by
  simp only [List.countP_append, List.countP_cons, List.countP_nil,
    countP_eq_zero_of_allQuiet hvalue hkeyword, countP_eq_zero_of_allQuiet hlower hkeyword,
    countP_eq_zero_of_allQuiet hupper hkeyword]
  omega

/-- A range says that an atom holds. -/
theorem exists_readsAll_between {value lower upper : List Item} (hvalue : AllQuiet value)
    (hlower : AllQuiet lower) (hupper : AllQuiet upper) (hne : value ≠ []) :
    ∃ part, ReadsAll (value ++ Item.ofKeyword "BETWEEN" :: (lower ++ Item.ofKeyword "AND" :: upper))
      [part] := by
  have hquiet : ∀ {l : List Item}, AllQuiet l → ∀ item ∈ l, item.isKeyword "NOT" = false :=
    fun h item hitem => isKeyword_of_isQuiet (h item hitem) (by decide)
  have hnot : ∀ item ∈ value ++
      Item.ofKeyword "BETWEEN" :: (lower ++ Item.ofKeyword "AND" :: upper),
        item.isKeyword "NOT" = false := by
    refine List.forall_mem_append.2 ⟨hquiet hvalue, List.forall_mem_cons.2 ⟨by decide, ?_⟩⟩
    exact List.forall_mem_append.2
      ⟨hquiet hlower, List.forall_mem_cons.2 ⟨by decide, hquiet hupper⟩⟩
  -- the only connective inside belongs to the word in front of it
  have hatom : isAtom (value ++
      Item.ofKeyword "BETWEEN" :: (lower ++ Item.ofKeyword "AND" :: upper)) = true := by
    rw [isAtom, List.any_eq_false.2 fun item hitem => by simp [hnot item hitem],
      countP_between hvalue hlower hupper (by decide),
      countP_between hvalue hlower hupper (by decide)]
    simp [Item.isKeyword, Item.ofKeyword]
  have hread : ∃ part, readAtom (value ++
      Item.ofKeyword "BETWEEN" :: (lower ++ Item.ofKeyword "AND" :: upper)) = some part := by
    rw [readAtom, withoutNegation_eq_none hnot, hatom]
    cases truthValue? _ with
    | none => exact ⟨_, rfl⟩
    | some value => exact ⟨_, rfl⟩
  obtain ⟨part, hpart⟩ := hread
  refine ⟨part, .single (.between hvalue hlower hupper) ?_⟩
  cases value with
  | nil => exact absurd rfl hne
  | cons item value =>
    rw [List.cons_append, readLiteral_eq_readAtom (hnot item List.mem_cons_self) (by simp)]
    exact hpart

/-- Only numbers stand for truth values. -/
theorem truthValue?_append_group (items inner : List Item) :
    truthValue? (items ++ [.group inner]) = none := by
  unfold truthValue?
  split
  · rename_i h
    have hlast := congrArg List.getLast? h
    simp at hlast
  · rename_i h
    have hlast := congrArg List.getLast? h
    simp at hlast
  · rfl

theorem readAtom_of_none (htruth : truthValue? items = none)
    (hnot : withoutNegation items = none) (hatom : isAtom items = true) :
    readAtom items = some (.atom items) := by
  rw [readAtom, htruth, hnot]
  exact if_pos hatom

theorem readAtom_of_some {positive : List Item} (htruth : truthValue? items = none)
    (hnot : withoutNegation items = some positive) (hatom : isAtom positive = true) :
    readAtom items = some (.negation (.atom positive)) := by
  rw [readAtom, htruth, hnot]
  exact if_pos hatom

/-- What is in a list is an atom, and what is not in it is the negation of that atom. -/
theorem readsAll_in (hvalue : AllQuiet value) (hne : value ≠ []) (inner : List Item) :
    ReadsAll (value ++ [Item.ofKeyword "IN", .group inner])
        [.atom (value ++ [Item.ofKeyword "IN", .group inner])] ∧
      ReadsAll (value ++ [Item.ofKeyword "NOT", Item.ofKeyword "IN", .group inner])
        [.negation (.atom (value ++ [Item.ofKeyword "IN", .group inner]))] := by
  have hgroup : (Item.group inner).isQuiet = true := by
    simp [Item.isQuiet, Item.structural, Item.isKeyword]
  have hin : AllQuiet (value ++ [Item.ofKeyword "IN", .group inner]) :=
    hvalue.append (List.forall_mem_cons.2 ⟨by decide, List.forall_mem_singleton.2 hgroup⟩)
  have hnot : ∀ item ∈ value, item.isKeyword "NOT" = false :=
    fun item hitem => isKeyword_of_isQuiet (hvalue item hitem) (by decide)
  have hatom := isAtom_of_allQuiet hin (by simp)
  have htruth := truthValue?_append_group (value ++ [Item.ofKeyword "IN"]) inner
  have htruth' := truthValue?_append_group
    (value ++ [Item.ofKeyword "NOT", Item.ofKeyword "IN"]) inner
  rw [List.append_assoc] at htruth htruth'
  cases value with
  | nil => exact absurd rfl hne
  | cons item value =>
    have hitem := hnot item List.mem_cons_self
    constructor
    · refine .single (coheres_of_allQuiet hin) ?_
      rw [List.cons_append, readLiteral_eq_readAtom hitem (by simp)]
      exact readAtom_of_none htruth (withoutNegation_eq_none fun other hother =>
        isKeyword_of_isQuiet (hin other hother) (by decide)) hatom
    · refine .single (.plain ?_) ?_
      · refine List.forall_mem_append.2 ⟨fun other hother => ?_, ?_⟩
        · exact ⟨isKeyword_of_isQuiet (hvalue other hother) (by decide),
            isKeyword_of_isQuiet (hvalue other hother) (by decide),
            isKeyword_of_isQuiet (hvalue other hother) (by decide)⟩
        · simp [Item.isKeyword, Item.ofKeyword]
      · rw [List.cons_append, readLiteral_eq_readAtom hitem (by simp)]
        exact readAtom_of_some htruth' (withoutNegation_append hnot (by decide) _) hatom

end Atoms

end FeatureStore
