import FeatureStore.Path.Reading
import FeatureStore.Sql.Text
import Mathlib.Tactic

/-!
# Items of a text

The text of a condition is read as a list of items: words, quoted texts, groups in parentheses and
signs (`itemsOf`). A lexer goes through the characters one by one and keeps the groups that are
open. What a text adds to the items before it does not depend on these (`Spells`), so the items of a
text are put together from those of its parts, where no word or quoted text runs on from one part
into the next (`Spells.append`, `SpellsEnded.append`).
-/

set_option autoImplicit false

namespace FeatureStore

/-- A mark around a quoted text. -/
inductive Mark where
  | single
  | double
  deriving DecidableEq

/-- The character of a mark. -/
def Mark.char : Mark → Char
  | .single => '\''
  | .double => '"'

/-- A part of a text. -/
inductive Item where
  /-- Characters of identifiers. -/
  | word (text : List Char)
  /-- A text between marks; marks inside it are doubled. -/
  | quoted (mark : Mark) (text : List Char)
  /-- Any other character. -/
  | sign (c : Char)
  /-- What stands between parentheses. -/
  | group (items : List Item)
  deriving Inhabited

/-- Where a lexer stands. -/
inductive Phase where
  /-- Outside words and quoted texts. -/
  | blank
  /-- Inside a word, whose characters so far are given backwards. -/
  | word (read : List Char)
  /-- Inside a quoted text. -/
  | quoted (mark : Mark) (read : List Char)
  /-- Behind a mark that closes a quoted text unless another one follows. -/
  | closed (mark : Mark) (read : List Char)
  deriving DecidableEq

/-- The state of a lexer. Items are kept backwards. -/
structure Lexing where
  /-- The items in front of each open group, the innermost first. -/
  outer : List (List Item)
  /-- The items of the innermost group. -/
  items : List Item
  phase : Phase

namespace Lexing

/-- Before the first character. -/
def start : Lexing := ⟨[], [], .blank⟩

/-- The word or quoted text before is complete. -/
def settle (l : Lexing) : Option Lexing :=
  match l.phase with
  | .blank => some l
  | .word read => some { l with items := .word read.reverse :: l.items, phase := .blank }
  | .closed mark read =>
    some { l with items := .quoted mark read.reverse :: l.items, phase := .blank }
  | .quoted _ _ => none

/-- A character behind complete items. -/
def begin (l : Lexing) (c : Char) : Option Lexing :=
  if c = ' ' then some l
  else if isIdentifierChar c then some { l with phase := .word [c] }
  else if c = '\'' then some { l with phase := .quoted .single [] }
  else if c = '"' then some { l with phase := .quoted .double [] }
  else if c = '(' then some ⟨l.items :: l.outer, [], .blank⟩
  else if c = ')' then
    match l.outer with
    | [] => none
    | before :: outer => some ⟨outer, .group l.items.reverse :: before, .blank⟩
  else some { l with items := .sign c :: l.items }

/-- The next character. -/
def step (l : Lexing) (c : Char) : Option Lexing :=
  match l.phase with
  | .blank => l.begin c
  | .word read =>
    if isIdentifierChar c then some { l with phase := .word (c :: read) }
    else l.settle.bind (·.begin c)
  | .quoted mark read =>
    if c = mark.char then some { l with phase := .closed mark read }
    else some { l with phase := .quoted mark (c :: read) }
  | .closed mark read =>
    if c = mark.char then some { l with phase := .quoted mark (c :: read) }
    else l.settle.bind (·.begin c)

/-- Behind the last character no group and no quoted text is open. -/
def finish (l : Lexing) : Option (List Item) :=
  l.settle.bind fun l => if l.outer.isEmpty then some l.items.reverse else none

/-- More items behind those before. -/
def push (l : Lexing) (items : List Item) : Lexing := { l with items := items.reverse ++ l.items }

end Lexing

/-- The items of a text, if its quotes and parentheses are closed. -/
def itemsOf (text : List Char) : Option (List Item) :=
  (text.foldlM Lexing.step Lexing.start).bind Lexing.finish

/-! ## What a text adds -/

/-- Behind complete items, a text adds some items and leaves no quoted text open. -/
def Spells (text : List Char) (items : List Item) : Prop :=
  ∀ l : Lexing, l.phase = .blank →
    ∃ l', text.foldlM Lexing.step l = some l' ∧ l'.settle = some (l.push items)

/-- Behind complete items, a text adds some items, the last of which is complete. -/
def SpellsEnded (text : List Char) (items : List Item) : Prop :=
  ∀ l : Lexing, l.phase = .blank → text.foldlM Lexing.step l = some (l.push items)

/-- A character that ends the word or quoted text before it. -/
def isSeparator (c : Char) : Bool := !isIdentifierChar c && c != '\'' && c != '"'

/-- The text does not continue a word or quoted text before it. -/
def Separates (text : List Char) : Prop := ∀ c ∈ text.head?, isSeparator c = true

namespace Lexing

theorem settle_of_blank {l : Lexing} (h : l.phase = .blank) : l.settle = some l := by
  rw [settle, h]

theorem step_of_blank {l : Lexing} (h : l.phase = .blank) (c : Char) : l.step c = l.begin c := by
  rw [step, h]

theorem phase_of_settle {l l' : Lexing} (h : l.settle = some l') : l'.phase = .blank := by
  rw [settle] at h
  split at h
  · obtain rfl := Option.some.inj h
    assumption
  · obtain rfl := Option.some.inj h
    rfl
  · obtain rfl := Option.some.inj h
    rfl
  · simp at h

theorem step_of_quoted {l : Lexing} {mark : Mark} {read : List Char} {c : Char}
    (hl : l.phase = .quoted mark read) (hc : c ≠ mark.char) :
    l.step c = some { l with phase := .quoted mark (c :: read) } := by
  rw [step, hl]
  exact if_neg hc

/-- A separator stands behind complete items. -/
theorem step_of_settle {l l' : Lexing} (h : l.settle = some l') {c : Char}
    (hc : isSeparator c = true) : l.step c = l'.step c := by
  simp only [isSeparator, Bool.and_eq_true, Bool.not_eq_true', bne_iff_ne] at hc
  obtain ⟨⟨hword, hsingle⟩, hdouble⟩ := hc
  rw [step_of_blank (phase_of_settle h), step]
  split
  · rename_i hphase
    rw [settle_of_blank hphase] at h
    rw [Option.some.inj h]
  · rw [if_neg (by simp [hword]), h]
    rfl
  · rename_i hphase
    rw [settle, hphase] at h
    simp at h
  · rename_i mark read hphase
    have hmark : c ≠ mark.char := by
      cases mark with
      | single => exact hsingle
      | double => exact hdouble
    rw [if_neg hmark, h]
    rfl

theorem foldlM_of_settle {l l' : Lexing} (h : l.settle = some l') {text : List Char}
    (hne : text ≠ []) (hsep : Separates text) :
    text.foldlM step l = text.foldlM step l' := by
  cases text with
  | nil => exact absurd rfl hne
  | cons c rest =>
    rw [List.foldlM_cons, List.foldlM_cons, step_of_settle h (hsep c rfl)]

theorem push_push (l : Lexing) (a b : List Item) : (l.push a).push b = l.push (a ++ b) := by
  rw [push, push, push, List.reverse_append, List.append_assoc]

theorem phase_push (l : Lexing) (items : List Item) : (l.push items).phase = l.phase := rfl

end Lexing

section Spelling

variable {a b : List Char} {as bs : List Item}

theorem SpellsEnded.spells (h : SpellsEnded a as) : Spells a as :=
  fun l hl => ⟨l.push as, h l hl, Lexing.settle_of_blank hl⟩

theorem spellsEnded_nil : SpellsEnded [] [] := fun _ _ => rfl

/-- Items are put together where the second text does not run on. -/
theorem Spells.append (ha : Spells a as) (hb : Spells b bs) (hsep : Separates b) :
    Spells (a ++ b) (as ++ bs) := by
  intro l hl
  obtain ⟨l', hrun, hsettle⟩ := ha l hl
  obtain ⟨l'', hrun', hsettle'⟩ := hb (l.push as) hl
  rw [Lexing.push_push] at hsettle'
  rw [List.foldlM_append, hrun]
  by_cases hne : b = []
  · subst hne
    obtain rfl := Option.some.inj hrun'
    refine ⟨l', rfl, ?_⟩
    rw [hsettle, ← hsettle', Lexing.settle_of_blank (Lexing.phase_push l as ▸ hl)]
  · refine ⟨l'', ?_, hsettle'⟩
    rw [← hrun', ← Lexing.foldlM_of_settle hsettle hne hsep]
    rfl

/-- Items are put together where the first text is complete. -/
theorem SpellsEnded.append (ha : SpellsEnded a as) (hb : Spells b bs) :
    Spells (a ++ b) (as ++ bs) := by
  intro l hl
  obtain ⟨l', hrun, hsettle⟩ := hb (l.push as) hl
  rw [Lexing.push_push] at hsettle
  refine ⟨l', ?_, hsettle⟩
  rw [List.foldlM_append, ha l hl]
  exact hrun

theorem SpellsEnded.append_ended (ha : SpellsEnded a as) (hb : SpellsEnded b bs) :
    SpellsEnded (a ++ b) (as ++ bs) := by
  intro l hl
  rw [List.foldlM_append, ha l hl, ← Lexing.push_push]
  exact hb (l.push as) hl

theorem Spells.append_ended (ha : Spells a as) (hb : SpellsEnded b bs) (hne : b ≠ [])
    (hsep : Separates b) : SpellsEnded (a ++ b) (as ++ bs) := by
  intro l hl
  obtain ⟨l', hrun, hsettle⟩ := ha l hl
  rw [List.foldlM_append, hrun, ← Lexing.push_push, ← hb (l.push as) hl,
    ← Lexing.foldlM_of_settle hsettle hne hsep]
  rfl

/-- The items of a whole text. -/
theorem Spells.itemsOf_eq (h : Spells a as) : itemsOf a = some as := by
  obtain ⟨l', hrun, hsettle⟩ := h Lexing.start rfl
  rw [itemsOf, hrun]
  show l'.finish = some as
  rw [Lexing.finish, hsettle]
  simp [Lexing.push, Lexing.start]

/-! ## Single items -/

theorem foldlM_word : ∀ {text : List Char} {l : Lexing} {read : List Char},
    text.all isIdentifierChar = true → l.phase = .word read →
      text.foldlM Lexing.step l = some { l with phase := .word (text.reverse ++ read) }
  | [], l, read, _, hl => by
    rw [List.foldlM_nil, List.reverse_nil, List.nil_append, ← hl]
    rfl
  | c :: rest, l, read, htext, hl => by
    rw [List.all_cons, Bool.and_eq_true] at htext
    have ih := foldlM_word (l := { l with phase := .word (c :: read) }) htext.2 rfl
    rw [List.foldlM_cons, Lexing.step, hl]
    dsimp only
    rw [if_pos htext.1, List.reverse_cons, List.append_assoc]
    exact ih

/-- A name is one word. -/
theorem spells_word {text : List Char} (h : isIdentifier text = true) :
    Spells text [.word text] := by
  intro l hl
  rw [isIdentifier, Bool.and_eq_true, List.all_eq_true] at h
  cases text with
  | nil => simp at h
  | cons c rest =>
    have hc := h.2 c List.mem_cons_self
    have hblank : c ≠ ' ' := by
      rintro rfl
      simp [isIdentifierChar] at hc
    have hbegin : l.step c = some { l with phase := .word [c] } := by
      rw [Lexing.step_of_blank hl, Lexing.begin, if_neg hblank, if_pos hc]
    have hrest : rest.all isIdentifierChar = true :=
      List.all_eq_true.2 fun c hc => h.2 c (List.mem_cons_of_mem _ hc)
    refine ⟨{ l with phase := .word (rest.reverse ++ [c]) }, ?_, ?_⟩
    · rw [List.foldlM_cons, hbegin]
      exact foldlM_word (l := { l with phase := .word [c] }) hrest rfl
    · simp [Lexing.settle, Lexing.push, hl]

/-- Inside a quoted text doubled quotes stand for themselves. -/
theorem foldlM_quoted : ∀ {text : List Char} {l : Lexing} {read : List Char},
    l.phase = .quoted .single read →
      (text.flatMap doubleQuote).foldlM Lexing.step l =
        some { l with phase := .quoted .single (text.reverse ++ read) }
  | [], l, read, hl => by
    rw [List.flatMap_nil, List.foldlM_nil, List.reverse_nil, List.nil_append, ← hl]
    rfl
  | c :: rest, l, read, hl => by
    have ih : (rest.flatMap doubleQuote).foldlM Lexing.step
        { l with phase := .quoted .single (c :: read) } =
          some { l with phase := .quoted .single (rest.reverse ++ c :: read) } :=
      foldlM_quoted rfl
    have hc : (doubleQuote c).foldlM Lexing.step l =
        some { l with phase := .quoted .single (c :: read) } := by
      rw [doubleQuote]
      -- of a doubled quote the first closes the literal, and the second opens it again
      split
      · rename_i hquote
        subst hquote
        rw [List.foldlM_cons, Lexing.step, hl]
        rfl
      · rename_i hquote
        rw [List.foldlM_cons, Lexing.step_of_quoted hl hquote]
        rfl
    rw [List.flatMap_cons, List.foldlM_append, hc, List.reverse_cons, List.append_assoc]
    exact ih

/-- A text between quotes is one item. -/
theorem spells_quoted (text : List Char) :
    Spells ('\'' :: text.flatMap doubleQuote ++ ['\'']) [.quoted .single text] := by
  intro l hl
  have hbegin : l.step '\'' = some { l with phase := .quoted .single [] } := by
    rw [Lexing.step_of_blank hl]
    rfl
  refine ⟨{ l with phase := .closed .single text.reverse }, ?_, ?_⟩
  · rw [List.cons_append, List.foldlM_cons, hbegin]
    show List.foldlM Lexing.step { l with phase := .quoted .single [] } _ = _
    rw [List.foldlM_append, foldlM_quoted rfl, List.append_nil]
    rfl
  · simp [Lexing.settle, Lexing.push, hl]

/-- A text between double quotes is one item, if there is none inside it. -/
theorem spells_doubleQuoted {text : List Char} (h : '"' ∉ text) :
    Spells ('"' :: text ++ ['"']) [.quoted .double text] := by
  -- a text without the quote is read as it stands
  have hrun : ∀ {text : List Char} {l : Lexing} {read : List Char}, '"' ∉ text →
      l.phase = .quoted .double read → text.foldlM Lexing.step l =
        some { l with phase := .quoted .double (text.reverse ++ read) } := by
    intro text
    induction text with
    | nil =>
      intro l read _ hl
      rw [List.foldlM_nil, List.reverse_nil, List.nil_append, ← hl]
      rfl
    | cons c rest ih =>
      intro l read h hl
      obtain ⟨hc, hrest⟩ : '"' ≠ c ∧ '"' ∉ rest := by simpa using h
      have hnext := ih (l := { l with phase := .quoted .double (c :: read) }) hrest rfl
      rw [List.foldlM_cons, Lexing.step_of_quoted hl hc.symm, List.reverse_cons, List.append_assoc]
      exact hnext
  intro l hl
  have hbegin : l.step '"' = some { l with phase := .quoted .double [] } := by
    rw [Lexing.step_of_blank hl]
    rfl
  refine ⟨{ l with phase := .closed .double text.reverse }, ?_, ?_⟩
  · rw [List.cons_append, List.foldlM_cons, hbegin]
    show List.foldlM Lexing.step { l with phase := .quoted .double [] } _ = _
    rw [List.foldlM_append, hrun h rfl, List.append_nil]
    rfl
  · simp [Lexing.settle, Lexing.push, hl]

/-- A text between parentheses is one item. -/
theorem spellsEnded_group (h : Spells a as) : SpellsEnded ('(' :: a ++ [')']) [.group as] := by
  intro l hl
  have hbegin : l.step '(' = some ⟨l.items :: l.outer, [], .blank⟩ := by
    rw [Lexing.step_of_blank hl]
    rfl
  obtain ⟨l', hrun, hsettle⟩ := h ⟨l.items :: l.outer, [], .blank⟩ rfl
  rw [List.cons_append, List.foldlM_cons, hbegin]
  show List.foldlM Lexing.step ⟨l.items :: l.outer, [], .blank⟩ (a ++ [')']) = _
  rw [List.foldlM_append, hrun]
  show List.foldlM Lexing.step l' [')'] = _
  have hclose : ∀ c ∈ [')'].head?, isSeparator c = true := by
    intro c hc
    obtain rfl := Option.some.inj hc
    rfl
  rw [Lexing.foldlM_of_settle hsettle (by simp) hclose]
  simp [Lexing.step, Lexing.begin, Lexing.push, isIdentifierChar, hl]

/-! ## Between two texts -/

/-- The text does not continue what stands before it, and its last item is complete. -/
structure Divides (text : List Char) (items : List Item) : Prop where
  ended : SpellsEnded text items
  begins : ∃ c ∈ text.head?, isSeparator c = true

/-- What stands before a text that divides is complete. -/
theorem Spells.divided (ha : Spells a as) (hb : Divides b bs) :
    SpellsEnded (a ++ b) (as ++ bs) := by
  obtain ⟨c, hc, hsep⟩ := hb.begins
  refine ha.append_ended hb.ended ?_ ?_
  · rintro rfl
    simp at hc
  · intro other hother
    obtain rfl := Option.mem_unique hc hother
    exact hsep

theorem Divides.append (ha : Divides a as) (hb : SpellsEnded b bs) :
    Divides (a ++ b) (as ++ bs) := by
  obtain ⟨c, hc, hsep⟩ := ha.begins
  exact ⟨ha.ended.append_ended hb, c, List.mem_head?_append_of_mem_head? hc, hsep⟩

/-- A character that stands for itself, or a blank. -/
def isSign (c : Char) : Bool := isSeparator c && c != '(' && c != ')'

/-- Signs are items one by one. -/
theorem spellsEnded_signs : ∀ {text : List Char}, text.all isSign = true →
    SpellsEnded text ((text.filter (· != ' ')).map .sign)
  | [], _ => spellsEnded_nil
  | c :: rest, h => by
    rw [List.all_cons, Bool.and_eq_true] at h
    have hc : SpellsEnded [c] (([c].filter (· != ' ')).map .sign) := by
      obtain ⟨hc, -⟩ := h
      simp only [isSign, isSeparator, Bool.and_eq_true, Bool.not_eq_true', bne_iff_ne] at hc
      obtain ⟨⟨⟨⟨hword, hsingle⟩, hdouble⟩, hopen⟩, hclose⟩ := hc
      intro l hl
      rw [List.foldlM_cons, Lexing.step_of_blank hl, Lexing.begin]
      by_cases hblank : c = ' '
      · rw [if_pos hblank, hblank]
        rfl
      · rw [if_neg hblank, if_neg (by simp [hword]), if_neg hsingle, if_neg hdouble, if_neg hopen,
          if_neg hclose, List.filter_cons_of_pos (by simpa using hblank)]
        rfl
    have hrest := hc.append_ended (spellsEnded_signs h.2)
    rw [← List.map_append, ← List.filter_append] at hrest
    exact hrest

/-- Signs divide what stands around them. -/
theorem divides_signs {text : List Char} (h : text.all isSign = true) (hne : text ≠ []) :
    Divides text ((text.filter (· != ' ')).map .sign) := by
  refine ⟨spellsEnded_signs h, ?_⟩
  cases text with
  | nil => exact absurd rfl hne
  | cons c rest =>
    rw [List.all_cons, isSign, Bool.and_eq_true, Bool.and_eq_true, Bool.and_eq_true] at h
    exact ⟨c, rfl, h.1.1.1⟩

theorem divides_blank : Divides [' '] [] := divides_signs (by decide) (by decide)

/-- A word with a blank behind it is complete. -/
theorem spellsEnded_word (h : isIdentifier a = true) : SpellsEnded (a ++ [' ']) [.word a] :=
  (spells_word h).divided divides_blank

/-- A word between blanks divides what stands around it. -/
theorem divides_word (h : isIdentifier a = true) : Divides (' ' :: (a ++ [' '])) [.word a] :=
  divides_blank.append (spellsEnded_word h)

end Spelling

end FeatureStore
