import FeatureStore.Proofs.Sql.Spelling

/-!
# Texts that differ in their literals

Two statements are alike (`Sql.Alike`) if they are put together in the same way from the same fixed
texts, and only what stands between their quotes differs. A lexer goes through both of them in step
(`Sql.Alike.run`): a fixed text has no single quote outside a name in double quotes and closes every
such name (`IsPlainText`), and there is always one between two quoted texts, so no quote runs into
another one. Both are read as the same items then, except for the contents of quoted texts
(`Sql.Alike.exists_itemsOf`).
-/

set_option autoImplicit false

namespace FeatureStore

/-! ## Fixed texts -/

/-- Whether a name in double quotes is open behind a character. A single quote may only be part of
such a name. -/
def openName (isOpen : Bool) (c : Char) : Option Bool :=
  if c = '"' then some !isOpen else if c = '\'' && !isOpen then none else some isOpen

/-- No quoted text begins in the text, and every name in double quotes ends in it. -/
def IsUnquoted (text : List Char) : Prop := text.foldlM openName false = some false

instance : DecidablePred IsUnquoted := fun _ => inferInstanceAs (Decidable (_ = _))

/-- The text is not empty, and leaves no quotes open. -/
def IsPlainText (text : List Char) : Prop := text ≠ [] ∧ IsUnquoted text

instance : DecidablePred IsPlainText := fun _ => inferInstanceAs (Decidable (_ ∧ _))

/-- The text of a piece leaves no quotes open, at every level. -/
def Piece.IsPlain (piece : Piece) : Prop := ∀ level, IsPlainText (piece.render level).toList

section Plain

variable {a b : List Char} {c : Char} {next : Bool}

/-- Outside names there is no single quote, and only a double quote opens a name. -/
theorem eq_of_openName_false (h : openName false c = some next) :
    c ≠ '\'' ∧ next = decide (c = '"') := by
  by_cases hdouble : c = '"'
  · subst hdouble
    exact ⟨by decide, (Option.some.inj h).symm⟩
  · have hsingle : c ≠ '\'' := by
      rintro rfl
      simp [openName] at h
    have hnext : openName false c = some false := by simp [openName, hdouble, hsingle]
    rw [hnext] at h
    exact ⟨hsingle, by simpa [hdouble] using (Option.some.inj h).symm⟩

/-- Only a double quote closes a name. -/
theorem eq_of_openName_true (h : openName true c = some next) : next = !decide (c = '"') := by
  by_cases hdouble : c = '"'
  · subst hdouble
    exact (Option.some.inj h).symm
  · have hnext : openName true c = some true := by simp [openName, hdouble]
    rw [hnext] at h
    simpa [hdouble] using (Option.some.inj h).symm

theorem ne_quote_of_word (h : isIdentifierChar c = true) : c ≠ '\'' ∧ c ≠ '"' := by
  constructor
  all_goals
    rintro rfl
    exact absurd h (by decide)

theorem isUnquoted_of_forall (h : ∀ c ∈ a, c ≠ '\'' ∧ c ≠ '"') : IsUnquoted a := by
  induction a with
  | nil => rfl
  | cons c rest ih =>
    obtain ⟨⟨hsingle, hdouble⟩, hrest⟩ := List.forall_mem_cons.1 h
    have hc : openName false c = some false := by simp [openName, hsingle, hdouble]
    rw [IsUnquoted, List.foldlM_cons, hc]
    exact ih hrest

theorem IsUnquoted.append (ha : IsUnquoted a) (hb : IsUnquoted b) : IsUnquoted (a ++ b) := by
  rw [IsUnquoted, List.foldlM_append, ha]
  exact hb

theorem IsPlainText.append (ha : IsPlainText a) (hb : IsUnquoted b) : IsPlainText (a ++ b) :=
  ⟨List.append_ne_nil_of_left_ne_nil ha.1 b, ha.2.append hb⟩

/-- Single quotes inside a name open no quoted text. -/
theorem isUnquoted_doubleQuoted (h : '"' ∉ a) : IsUnquoted ('"' :: a ++ ['"']) := by
  have hinside : a.foldlM openName true = some true := by
    induction a with
    | nil => rfl
    | cons c rest ih =>
      obtain ⟨hc, hrest⟩ : '"' ≠ c ∧ '"' ∉ rest := by simpa using h
      have hnext : openName true c = some true := by simp [openName, hc.symm]
      rw [List.foldlM_cons, hnext]
      exact ih hrest
  rw [IsUnquoted, List.cons_append, List.foldlM_cons]
  show List.foldlM openName true _ = _
  rw [List.foldlM_append, hinside]
  rfl

theorem isUnquoted_word (h : a.all isIdentifierChar = true) : IsUnquoted a :=
  isUnquoted_of_forall fun c hc => ne_quote_of_word (List.all_eq_true.1 h c hc)

theorem isPlainText_name {name : String} (h : IsName name) : IsPlainText name.toList := by
  rw [IsName, isIdentifier, Bool.and_eq_true] at h
  exact ⟨by simpa using h.1, isUnquoted_word h.2⟩

theorem isPlainText_digits (h : ∀ c ∈ a, c.isDigit = true ∨ c = '.') (hne : a ≠ []) :
    IsPlainText a := by
  obtain ⟨hword, -⟩ := isIdentifier_of_digits hne h
  rw [isIdentifier, Bool.and_eq_true] at hword
  exact ⟨hne, isUnquoted_word hword.2⟩

theorem isPlainText_signed (negative : Bool) (h : IsPlainText a) :
    IsPlainText ((if negative then ['-'] else []) ++ a) := by
  cases negative with
  | false => exact h
  | true => exact IsPlainText.append (by decide) h.2

theorem isPlainText_natText (n : Nat) : IsPlainText (toString n).toList := by
  rw [Nat.toString_eq_repr, Nat.toList_repr]
  refine isPlainText_digits (fun c hc => .inl ?_) Nat.toDigits_ne_nil
  exact Nat.isDigit_of_mem_toDigits (b := 10) (by omega) (by omega) hc

theorem isPlainText_intText (n : Int) : IsPlainText (toString n).toList := by
  obtain ⟨negative, m, htext⟩ := exists_toList_intText n
  rw [htext, ← Nat.toList_repr, ← Nat.toString_eq_repr]
  exact isPlainText_signed negative (isPlainText_natText m)

theorem isPlainText_plainText (x : Binary64) : IsPlainText x.plainText.toList := by
  rw [Binary64.plainText, Binary64.text]
  split
  · decide
  · dsimp only
    by_cases hinfinite : x.isInfinite = true
    · rw [if_pos hinfinite, String.toList_ofList]
      exact isPlainText_signed x.negative (by decide)
    · have hplain : ∀ leading, DecimalLayout.isPositional .plain leading = true := fun _ => rfl
      rw [if_neg hinfinite, String.toList_ofList, hplain, Bool.or_true, if_pos rfl]
      obtain ⟨hne, hall⟩ := digits_positional Nat.toDigits_ne_nil
        (fun c hc => Nat.isDigit_of_mem_toDigits (b := 10) (by omega) (by omega) hc) _
      exact isPlainText_signed x.negative (isPlainText_digits hall hne)

theorem Piece.isPlain_text {text : String} (h : IsPlainText text.toList) :
    (Piece.text text).IsPlain := fun _ => h

theorem Piece.isPlain_alias {name : Alias} (h : name.IsNamed) : (Piece.alias name).IsPlain :=
  fun level => isPlainText_name (h level)

end Plain

/-! ## Items -/

/-- Two items that differ only in the contents of quoted texts, which are related. -/
inductive Item.Alike (R : String → String → Prop) : Item → Item → Prop
  | word (text : List Char) : Alike R (.word text) (.word text)
  | name (text : List Char) : Alike R (.quoted .double text) (.quoted .double text)
  | literal {x y : String} : R x y → Alike R (.quoted .single x.toList) (.quoted .single y.toList)
  | sign (c : Char) : Alike R (.sign c) (.sign c)
  | group {as bs : List Item} : List.Forall₂ (Alike R) as bs → Alike R (.group as) (.group bs)

/-! ## A lexer on two texts -/

/-- A lexer stands neither in a text between single quotes nor directly behind one. -/
def Phase.isPlain : Phase → Bool
  | .quoted .single _ => false
  | .closed .single _ => false
  | _ => true

/-- A lexer stands inside a name in double quotes. -/
def Phase.inName : Phase → Bool
  | .quoted .double _ => true
  | _ => false

/-- Two lexers stand at the same place, or directly behind related texts. -/
inductive Phase.Alike (R : String → String → Prop) : Phase → Phase → Prop
  | same {phase : Phase} : phase.isPlain = true → Alike R phase phase
  | literal {x y : String} : R x y →
    Alike R (.closed .single x.toList.reverse) (.closed .single y.toList.reverse)

theorem Phase.Alike.eq_of_isPlain {R : String → String → Prop} {phase phase' : Phase}
    (h : phase.Alike R phase') (hplain : phase.isPlain = true) : phase' = phase := by
  cases h with
  | same _ => rfl
  | literal _ => simp [isPlain] at hplain

/-- Two lexers have read alike items and stand at the same place. -/
structure Lexing.Alike (R : String → String → Prop) (l l' : Lexing) : Prop where
  outer : List.Forall₂ (List.Forall₂ (Item.Alike R)) l.outer l'.outer
  items : List.Forall₂ (Item.Alike R) l.items l'.items
  phase : Phase.Alike R l.phase l'.phase

namespace Lexing.Alike

variable {R : String → String → Prop} {l l' m : Lexing}

theorem start : Lexing.start.Alike R Lexing.start := ⟨.nil, .nil, .same rfl⟩

/-- The same next phase on both sides. -/
theorem withPhase (h : l.Alike R l') {phase phase' : Phase} (hphase : phase.Alike R phase') :
    Lexing.Alike R { l with phase } { l' with phase := phase' } := ⟨h.outer, h.items, hphase⟩

/-- One more item on both sides, complete. -/
theorem complete (h : l.Alike R l') {a b : Item} (hab : a.Alike R b) :
    Lexing.Alike R { l with items := a :: l.items, phase := .blank }
      { l' with items := b :: l'.items, phase := .blank } := ⟨h.outer, .cons hab h.items, .same rfl⟩

/-- Outside names the items before are completed on both sides. -/
theorem settle (h : l.Alike R l') (hout : l.phase.inName = false) :
    ∃ k k', l.settle = some k ∧ l'.settle = some k' ∧ k.Alike R k' := by
  obtain ⟨outer, items, phase⟩ := l
  obtain ⟨outer', items', phase'⟩ := l'
  cases h.phase with
  | same hplain =>
    cases phase with
    | blank => exact ⟨_, _, rfl, rfl, h⟩
    | word read => exact ⟨_, _, rfl, rfl, h.complete (.word _)⟩
    | quoted mark read => cases mark <;> simp [Phase.isPlain, Phase.inName] at hplain hout
    | closed mark read =>
      cases mark with
      | single => simp [Phase.isPlain] at hplain
      | double => exact ⟨_, _, rfl, rfl, h.complete (.name _)⟩
  | @literal x y hxy =>
    have hitem : Item.Alike R (.quoted .single x.toList.reverse.reverse)
        (.quoted .single y.toList.reverse.reverse) := by
      rw [List.reverse_reverse, List.reverse_reverse]
      exact .literal hxy
    exact ⟨_, _, rfl, rfl, h.complete hitem⟩

/-- Behind complete items both sides begin with the same character in the same way. -/
theorem begin (h : l.Alike R l') {c : Char} (hc : c ≠ '\'') (hl : l.phase = .blank)
    (hl' : l'.phase = .blank) (hm : l.begin c = some m) :
    ∃ m', l'.begin c = some m' ∧ m.Alike R m' ∧ m.phase.isPlain = true ∧
      m.phase.inName = decide (c = '"') := by
  rw [Lexing.begin] at hm ⊢
  split at hm
  · -- a blank leaves the lexer as it is
    rename_i hblank
    obtain rfl := Option.some.inj hm
    rw [if_pos hblank, hl, hblank]
    exact ⟨l', rfl, h, rfl, by decide⟩
  rename_i hblank
  rw [if_neg hblank]
  split at hm
  · -- an identifier character begins a word
    rename_i hword
    obtain rfl := Option.some.inj hm
    rw [if_pos hword]
    exact ⟨_, rfl, h.withPhase (.same rfl), rfl,
      (decide_eq_false (ne_quote_of_word hword).2).symm⟩
  rename_i hword
  rw [if_neg hword, if_neg hc]
  split at hm
  · -- a double quote begins a name
    rename_i hdouble
    obtain rfl := Option.some.inj hm
    rw [if_pos hdouble]
    exact ⟨_, rfl, h.withPhase (.same rfl), rfl, by simp [Phase.inName, hdouble]⟩
  rename_i hdouble
  have hnone : Phase.blank.inName = decide (c = '"') := by simp [Phase.inName, hdouble]
  rw [if_neg hdouble]
  split at hm
  · -- an opening bracket puts the items so far aside
    rename_i hopen
    obtain rfl := Option.some.inj hm
    rw [if_pos hopen]
    exact ⟨_, rfl, ⟨.cons h.items h.outer, .nil, .same rfl⟩, rfl, hnone⟩
  rename_i hopen
  rw [if_neg hopen]
  split at hm
  · -- a closing one needs an open group, and both lexers have as many
    rename_i hclose
    rw [if_pos hclose]
    obtain ⟨outer, items, phase⟩ := l
    obtain ⟨outer', items', phase'⟩ := l'
    cases h.outer with
    | nil => simp at hm
    | cons hbefore hothers =>
      obtain rfl := Option.some.inj hm
      refine ⟨_, rfl, ⟨hothers, .cons (.group ?_) hbefore, .same rfl⟩, rfl, hnone⟩
      exact List.rel_reverse h.items
  · rename_i hclose
    obtain rfl := Option.some.inj hm
    rw [if_neg hclose]
    refine ⟨_, rfl, ⟨h.outer, .cons (.sign c) h.items, h.phase⟩, ?_, ?_⟩
    · rw [hl]
      rfl
    · rw [hl]
      exact hnone

/-- Both sides go on behind complete items. -/
theorem settle_begin (h : l.Alike R l') {c : Char} (hc : c ≠ '\'') (hout : l.phase.inName = false)
    (hm : l.settle.bind (·.begin c) = some m) :
    ∃ m', l'.settle.bind (·.begin c) = some m' ∧ m.Alike R m' ∧ m.phase.isPlain = true ∧
      m.phase.inName = decide (c = '"') := by
  obtain ⟨k, k', hk, hk', hsettled⟩ := h.settle hout
  rw [hk] at hm
  rw [hk']
  exact hsettled.begin hc (phase_of_settle hk) (phase_of_settle hk') hm

/-- A character of a fixed text leads both sides to the same place. -/
theorem step (h : l.Alike R l') {c : Char} {isOpen next : Bool} (hl : l.phase.inName = isOpen)
    (hc : openName isOpen c = some next) (hm : l.step c = some m) :
    ∃ m', l'.step c = some m' ∧ m.Alike R m' ∧ m.phase.isPlain = true ∧
      m.phase.inName = next := by
  obtain ⟨outer, items, phase⟩ := l
  obtain ⟨outer', items', phase'⟩ := l'
  cases h.phase with
  | literal hxy =>
    -- only behind a literal do the phases differ, and there a mark would go on with it
    obtain rfl : false = isOpen := hl
    obtain ⟨hsingle, rfl⟩ := eq_of_openName_false hc
    have hmark : c ≠ Mark.single.char := hsingle
    simp only [Lexing.step, if_neg hmark] at hm ⊢
    exact h.settle_begin hsingle rfl hm
  | same hplain =>
    cases phase with
    | blank =>
      obtain rfl : false = isOpen := hl
      obtain ⟨hsingle, rfl⟩ := eq_of_openName_false hc
      exact h.begin hsingle rfl rfl hm
    | word read =>
      -- a word goes on or ends, and what ends it begins the next item
      obtain rfl : false = isOpen := hl
      obtain ⟨hsingle, rfl⟩ := eq_of_openName_false hc
      simp only [Lexing.step] at hm ⊢
      by_cases hword : isIdentifierChar c = true
      · rw [if_pos hword] at hm ⊢
        obtain rfl := Option.some.inj hm
        exact ⟨_, rfl, h.withPhase (.same rfl), rfl,
          (decide_eq_false (ne_quote_of_word hword).2).symm⟩
      · rw [if_neg hword] at hm ⊢
        exact h.settle_begin hsingle rfl hm
    | quoted mark read =>
      cases mark with
      | single => simp [Phase.isPlain] at hplain
      | double =>
        obtain rfl : true = isOpen := hl
        obtain rfl := eq_of_openName_true hc
        simp only [Lexing.step] at hm ⊢
        by_cases hdouble : c = Mark.double.char
        · rw [if_pos hdouble] at hm ⊢
          obtain rfl := Option.some.inj hm
          have hlast : (!decide (c = '"')) = false := by simp [show c = '"' from hdouble]
          exact ⟨_, rfl, h.withPhase (.same rfl), rfl, hlast.symm⟩
        · rw [if_neg hdouble] at hm ⊢
          obtain rfl := Option.some.inj hm
          have hlast : (!decide (c = '"')) = true := by simp [show c ≠ '"' from hdouble]
          exact ⟨_, rfl, h.withPhase (.same rfl), rfl, hlast.symm⟩
    | closed mark read =>
      cases mark with
      | single => simp [Phase.isPlain] at hplain
      | double =>
        obtain rfl : false = isOpen := hl
        obtain ⟨hsingle, rfl⟩ := eq_of_openName_false hc
        simp only [Lexing.step] at hm ⊢
        by_cases hdouble : c = Mark.double.char
        · rw [if_pos hdouble] at hm ⊢
          obtain rfl := Option.some.inj hm
          exact ⟨_, rfl, h.withPhase (.same rfl), rfl, (decide_eq_true hdouble).symm⟩
        · rw [if_neg hdouble] at hm ⊢
          exact h.settle_begin hsingle rfl hm

/-- A fixed text leads both sides to the same place. -/
theorem run : ∀ {text : List Char} {l l' m : Lexing} {isOpen next : Bool}, l.Alike R l' →
    l.phase.inName = isOpen → text.foldlM openName isOpen = some next →
      text.foldlM Lexing.step l = some m →
        ∃ m', text.foldlM Lexing.step l' = some m' ∧ m.Alike R m' ∧
          (text ≠ [] → m.phase.isPlain = true) ∧ m.phase.inName = next
  | [], l, l', m, isOpen, next, h, hl, hnext, hm => by
    obtain rfl := Option.some.inj hm
    obtain rfl := Option.some.inj hnext
    exact ⟨l', rfl, h, fun hne => absurd rfl hne, hl⟩
  | c :: rest, l, l', m, isOpen, next, h, hl, hnext, hm => by
    rw [List.foldlM_cons] at hnext hm
    obtain ⟨between, hc, hnext⟩ := Option.bind_eq_some_iff.1 hnext
    obtain ⟨k, hk, hm⟩ := Option.bind_eq_some_iff.1 hm
    obtain ⟨k', hk', halike, hplain, hin⟩ := h.step hl hc hk
    obtain ⟨m', hm', hrest, hends, hlast⟩ := run halike hin hnext hm
    refine ⟨m', ?_, hrest, fun _ => ?_, hlast⟩
    · rw [List.foldlM_cons, hk']
      exact hm'
    · by_cases hne : rest = []
      · subst hne
        obtain rfl := Option.some.inj hm
        exact hplain
      · exact hends hne

end Lexing.Alike

/-- A text between quotes behind a place where none ends. -/
theorem Lexing.foldlM_literal {l k : Lexing} (hplain : l.phase.isPlain = true)
    (hk : l.settle = some k) (text : List Char) :
    ('\'' :: text.flatMap doubleQuote ++ ['\'']).foldlM Lexing.step l =
      some { k with phase := .closed .single text.reverse } := by
  -- in a plain phase the mark ends the current item, so the literal begins on its own
  have hbegin : l.step '\'' = some { k with phase := .quoted .single [] } := by
    have hblank := phase_of_settle hk
    obtain ⟨outer, items, phase⟩ := l
    cases phase with
    | blank =>
      obtain rfl := Option.some.inj hk
      rfl
    | word read =>
      obtain rfl := Option.some.inj hk
      rfl
    | quoted mark read => simp [Lexing.settle] at hk
    | closed mark read =>
      cases mark with
      | single => simp [Phase.isPlain] at hplain
      | double =>
        obtain rfl := Option.some.inj hk
        rfl
  rw [List.cons_append, List.foldlM_cons, hbegin]
  show List.foldlM Lexing.step { k with phase := .quoted .single [] } _ = _
  rw [List.foldlM_append, foldlM_quoted rfl, List.append_nil]
  rfl

/-! ## Statements -/

/-- Two texts put together in the same way, with related texts between their quotes and a fixed text
between any two of these. -/
inductive Sql.Alike (R : String → String → Prop) : Sql → Sql → Prop
  | nil : Alike R [] []
  | quoted {x y : String} : R x y → Alike R [.quoted x] [.quoted y]
  | join {a b c d : Sql} {piece : Piece} : Alike R a b → piece.IsPlain → Alike R c d →
    Alike R (a ++ piece :: c) (b ++ piece :: d)

namespace Sql.Alike

variable {R : String → String → Prop} {a b c d : Sql} {level : Nat}

/-- A lexer goes through both texts in step, and no quote is open behind them. -/
theorem run (h : Sql.Alike R a b) : ∀ {l l' m : Lexing}, l.Alike R l' → l.phase.isPlain = true →
    l.phase.inName = false → (a.chars level).foldlM Lexing.step l = some m →
      ∃ m', (b.chars level).foldlM Lexing.step l' = some m' ∧ m.Alike R m' ∧
        m.phase.inName = false := by
  induction h with
  | nil =>
    intro l l' m hl _ hout hm
    obtain rfl := Option.some.inj hm
    exact ⟨l', rfl, hl, hout⟩
  | @quoted x y hxy =>
    intro l l' m hl hplain hout hm
    -- both lexers settle in front of the literal, the one place where they read different texts
    obtain ⟨k, k', hk, hk', hsettled⟩ := hl.settle hout
    have hplain' : l'.phase.isPlain = true := by rwa [hl.phase.eq_of_isPlain hplain]
    rw [Sql.chars_cons, Sql.chars_nil, List.append_nil, Piece.toList_render_quoted] at hm ⊢
    rw [Lexing.foldlM_literal hplain hk] at hm
    obtain rfl := Option.some.inj hm
    exact ⟨_, Lexing.foldlM_literal hplain' hk' _, hsettled.withPhase (.literal hxy), rfl⟩
  | @join a b c d piece _ hpiece _ iha ihc =>
    intro l l' m hl hplain hout hm
    rw [Sql.chars_append, Sql.chars_cons, List.foldlM_append] at hm ⊢
    obtain ⟨k, hk, hm⟩ := Option.bind_eq_some_iff.1 hm
    rw [List.foldlM_append] at hm
    obtain ⟨n, hn, hm⟩ := Option.bind_eq_some_iff.1 hm
    -- the piece in between is not empty, so behind it no literal can go on
    obtain ⟨k', hk', hfirst, hkout⟩ := iha hl hplain hout hk
    obtain ⟨hne, hfixed⟩ := hpiece level
    obtain ⟨n', hn', hmiddle, hnplain, hnout⟩ := hfirst.run hkout hfixed hn
    obtain ⟨m', hm', hlast, hmout⟩ := ihc hmiddle (hnplain hne) hnout hm
    refine ⟨m', ?_, hlast, hmout⟩
    rw [hk']
    show List.foldlM Lexing.step k' _ = _
    rw [List.foldlM_append, hn']
    exact hm'

/-- Both texts are read as the same items, except for the contents of quoted texts. -/
theorem exists_itemsOf (h : Sql.Alike R a b) {as : List Item}
    (has : itemsOf (a.chars level) = some as) :
    ∃ bs, itemsOf (b.chars level) = some bs ∧ List.Forall₂ (Item.Alike R) as bs := by
  obtain ⟨m, hm, hfinish⟩ := Option.bind_eq_some_iff.1 has
  obtain ⟨m', hm', halike, hout⟩ := h.run .start rfl rfl hm
  obtain ⟨k, k', hk, hk', hsettled⟩ := halike.settle hout
  rw [Lexing.finish, hk] at hfinish
  rw [itemsOf, hm']
  show ∃ bs, m'.finish = some bs ∧ _
  rw [Lexing.finish, hk']
  obtain ⟨outer, items, phase⟩ := k
  obtain ⟨outer', items', phase'⟩ := k'
  cases hsettled.outer with
  | nil =>
    obtain rfl := Option.some.inj hfinish
    exact ⟨_, rfl, List.rel_reverse hsettled.items⟩
  | cons _ _ => simp at hfinish

/-! ## Putting texts together -/

theorem piece {piece : Piece} (h : piece.IsPlain) : Sql.Alike R [piece] [piece] := join nil h nil

theorem cons {piece : Piece} (hpiece : piece.IsPlain) (h : Sql.Alike R a b) :
    Sql.Alike R (piece :: a) (piece :: b) := join nil hpiece h

theorem concat (h : Sql.Alike R a b) {piece : Piece} (hpiece : piece.IsPlain) :
    Sql.Alike R (a ++ [piece]) (b ++ [piece]) := join h hpiece nil

theorem around {before behind : String} (h : Sql.Alike R a b) (hbefore : IsPlainText before.toList)
    (hbehind : IsPlainText behind.toList) :
    Sql.Alike R (Sql.around before a behind) (Sql.around before b behind) :=
  cons (fun _ => hbefore) (h.concat fun _ => hbehind)

theorem parenthesized (h : Sql.Alike R a b) :
    Sql.Alike R (Sql.parenthesized a) (Sql.parenthesized b) := h.around (by decide) (by decide)

theorem separated {sep : String} (hsep : IsPlainText sep.toList) {parts parts' : List Sql}
    (h : List.Forall₂ (Sql.Alike R) parts parts') :
    Sql.Alike R (Sql.separated sep parts) (Sql.separated sep parts') := by
  induction h with
  | nil => exact nil
  | cons hpart hrest ih =>
    cases hrest with
    | nil => exact hpart
    | cons hother hothers => exact join hpart (fun _ => hsep) ih

theorem column {name : Alias} {field : String} (hname : name.IsNamed) (hfield : IsName field) :
    Sql.Alike R (Sql.column name field) (Sql.column name field) := by
  refine cons (Piece.isPlain_alias hname) (piece (Piece.isPlain_text ?_))
  rw [String.toList_append]
  exact IsPlainText.append (by decide) (isPlainText_name hfield).2

end Sql.Alike

end FeatureStore
