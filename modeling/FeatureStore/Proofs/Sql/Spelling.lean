import FeatureStore.Proofs.Read.Layout
import FeatureStore.Proofs.Sql.Aliases
import FeatureStore.Proofs.Sql.Reading
import FeatureStore.Sql.Membership

/-!
# How conditions are spelled

What the texts of expressions and tests are read as, once all names in them are identifiers. An
expression is spelled by items without a part in the structure of the text
(`Scalar.isTerm_sql`), whatever stands between its quotes. A test is a conjunction
(`Test.isConjunction_sql`): most tests are one atom, and a test on moments may be several.
-/

set_option autoImplicit false

namespace FeatureStore

/-! ## Names -/

/-- The text of an alias is a name at every level. -/
def Alias.IsNamed (name : Alias) : Prop := ∀ level, IsName (name.text level)

theorem isIdentifierChar_capitalLetter (n : Nat) : isIdentifierChar (capitalLetter n) = true := by
  have hletters : ∀ i : Fin 26, isIdentifierChar (Char.ofNat (65 + i.val)) = true := by decide
  exact hletters ⟨n % 26, Nat.mod_lt n (by omega)⟩

theorem all_aliasLetters (n : Nat) : (aliasLetters n).all isIdentifierChar = true := by
  induction n using Nat.strong_induction_on with
  | _ n ih =>
    rcases Nat.lt_or_ge n 26 with hn | hn
    · rw [aliasLetters_of_lt hn, List.all_cons, isIdentifierChar_capitalLetter]
      rfl
    · rw [aliasLetters_of_le hn, List.all_append, ih _ (by omega), List.all_cons,
        isIdentifierChar_capitalLetter]
      rfl

/-- The aliases that are counted are names. -/
theorem Alias.isNamed_slot (depth index : Nat) : (Alias.slot depth index).IsNamed := by
  intro level
  have hfirst : isIdentifierChar 'A' = true := by decide
  rw [IsName, text, aliasAt, String.toList_ofList, isIdentifier, List.all_append, all_aliasLetters,
    List.all_replicate, hfirst]
  simp [aliasLetters_ne_nil]

/-- All names in an expression are identifiers, and no collation has a double quote. -/
def Scalar.HasNames : Scalar → Prop
  | .column table name => table.IsNamed ∧ IsName name
  | .position table => table.IsNamed
  | .period start stop => start.HasNames ∧ stop.HasNames
  | .upper arg => arg.HasNames
  | .lower arg => arg.HasNames
  | .collated arg collation => arg.HasNames ∧ '"' ∉ collation.toList
  | _ => True

/-- All names in a test are identifiers. -/
def Test.HasNames (test : Test) : Prop := ∀ e ∈ test.scalars, e.HasNames

/-! ## Words -/

/-- A word with a digit or a point in it is no keyword. -/
theorem isQuiet_word {text : List Char} {c : Char} (hc : c ∈ text)
    (h : c.isDigit = true ∨ c = '.') : (Item.word text).isQuiet = true := by
  -- keywords consist of letters, and the character has no other case
  have hupper : c.toUpper = c := by
    rcases h with h | rfl
    · simp only [Char.isDigit, Bool.and_eq_true, decide_eq_true_eq] at h
      exact dif_neg fun hlower => absurd (UInt32.le_trans hlower.1 h.2) (by decide)
    · rfl
  have hno : ∀ keyword ∈ Item.structural, c ∉ keyword.toList := by
    intro keyword hkeyword hmem
    have hletters : ∀ keyword ∈ Item.structural, ∀ c ∈ keyword.toList,
        c.isDigit = false ∧ c ≠ '.' := by simp [Item.structural]
    obtain ⟨hdigit, hpoint⟩ := hletters keyword hkeyword c hmem
    rcases h with h | h
    · rw [h] at hdigit
      exact absurd hdigit (by decide)
    · exact hpoint h
  rw [Item.isQuiet, List.all_eq_true]
  intro keyword hkeyword
  rw [Bool.not_eq_true', Item.isKeyword, beq_eq_false_iff_ne]
  intro heq
  refine hno keyword hkeyword ?_
  rw [← heq, ← hupper]
  exact List.mem_map_of_mem hc

/-- Digits and points make a word. -/
theorem isIdentifier_of_digits {text : List Char} (hne : text ≠ [])
    (h : ∀ c ∈ text, c.isDigit = true ∨ c = '.') :
    isIdentifier text = true ∧ (Item.word text).isQuiet = true := by
  constructor
  · rw [isIdentifier, Bool.and_eq_true, List.all_eq_true]
    refine ⟨by simp [hne], fun c hc => ?_⟩
    rcases h c hc with hdigit | rfl
    · simp [isIdentifierChar, Char.isAlphanum, hdigit]
    · rfl
  · obtain ⟨c, hc⟩ := List.exists_mem_of_ne_nil text hne
    exact isQuiet_word hc (h c hc)

/-! ## Terms -/

/-- The quotes and parentheses of a text are closed. -/
def IsClosed (text : List Char) : Prop := ∃ items, Spells text items

/-- The quotes and parentheses of a text are closed, and its last item is complete. -/
def IsLead (text : List Char) : Prop := ∃ items, SpellsEnded text items

/-- The items of a text have no part in the structure of what stands around it. -/
def IsTerm (text : List Char) : Prop := ∃ items, Spells text items ∧ AllQuiet items ∧ items ≠ []

section Terms

variable {a b op : List Char} {ops : List Item}

theorem IsTerm.isClosed (h : IsTerm a) : IsClosed a := h.imp fun _ h => h.1

theorem isClosed_nil : IsClosed [] := ⟨[], spellsEnded_nil.spells⟩

theorem IsLead.append (ha : IsLead a) (hb : IsClosed b) : IsClosed (a ++ b) := by
  obtain ⟨as, ha⟩ := ha
  obtain ⟨bs, hb⟩ := hb
  exact ⟨_, ha.append hb⟩

theorem IsLead.append_lead (ha : IsLead a) (hb : IsLead b) : IsLead (a ++ b) := by
  obtain ⟨as, ha⟩ := ha
  obtain ⟨bs, hb⟩ := hb
  exact ⟨_, ha.append_ended hb⟩

theorem isLead_word (h : isIdentifier a = true) : IsLead (a ++ [' ']) := ⟨_, spellsEnded_word h⟩

theorem IsClosed.lead (ha : IsClosed a) (hop : Divides op ops) : IsLead (a ++ op) := by
  obtain ⟨as, ha⟩ := ha
  exact ⟨_, ha.divided hop⟩

theorem IsClosed.divided (ha : IsClosed a) (hop : Divides op ops) (hb : IsClosed b) :
    IsClosed (a ++ op ++ b) := (ha.lead hop).append hb

theorem isClosed_group (h : IsClosed a) : IsClosed ('(' :: a ++ [')']) := by
  obtain ⟨items, h⟩ := h
  exact ⟨_, (spellsEnded_group h).spells⟩

theorem isTerm_word (h : isIdentifier a = true) (hquiet : (Item.word a).isQuiet = true) :
    IsTerm a := ⟨[.word a], spells_word h, by simpa [AllQuiet] using hquiet, by simp⟩

theorem isTerm_quoted (text : List Char) :
    IsTerm ('\'' :: text.flatMap doubleQuote ++ ['\'']) :=
  ⟨_, spells_quoted text, by simp [AllQuiet, Item.isQuiet, Item.structural, Item.isKeyword],
    by simp⟩

theorem IsTerm.divided (ha : IsTerm a) (hop : Divides op ops) (hquiet : AllQuiet ops)
    (hb : IsTerm b) : IsTerm (a ++ op ++ b) := by
  obtain ⟨as, ha, has, hne⟩ := ha
  obtain ⟨bs, hb, hbs, -⟩ := hb
  exact ⟨_, (ha.divided hop).append hb, (has.append hquiet).append hbs, by simp [hne]⟩

theorem allQuiet_signs (text : List Char) : AllQuiet (text.map .sign) := by
  intro item hitem
  obtain ⟨c, -, rfl⟩ := List.mem_map.1 hitem
  rfl

theorem isQuiet_group (items : List Item) : (Item.group items).isQuiet = true := by
  simp [Item.isQuiet, Item.structural, Item.isKeyword]

/-- Whatever stands between parentheses has no part in the structure around them. -/
theorem isTerm_group (h : IsClosed a) : IsTerm ('(' :: a ++ [')']) := by
  obtain ⟨items, h⟩ := h
  exact ⟨_, (spellsEnded_group h).spells, by simpa [AllQuiet] using isQuiet_group items, by simp⟩

/-- A function applied to some arguments. -/
theorem isTerm_call (ha : IsTerm a) (hb : IsClosed b) : IsTerm (a ++ ('(' :: b ++ [')'])) := by
  obtain ⟨as, ha, has, hne⟩ := ha
  obtain ⟨bs, hb⟩ := hb
  have hgroup := (spellsEnded_group hb).spells
  exact ⟨_, ha.append hgroup (by intro c hc; obtain rfl := Option.some.inj hc; rfl),
    has.append (by simpa [AllQuiet] using isQuiet_group bs), by simp [hne]⟩

/-- A number with or without a sign. -/
theorem isTerm_signed (negative : Bool) (h : IsTerm a) :
    IsTerm ((if negative then ['-'] else []) ++ a) := by
  obtain ⟨as, ha, has, hne⟩ := h
  cases negative with
  | false => exact ⟨as, ha, has, hne⟩
  | true =>
    have hsign : SpellsEnded ['-'] [.sign '-'] := spellsEnded_signs (by decide)
    exact ⟨_, hsign.append ha, (allQuiet_signs ['-']).append has, by simp⟩

end Terms

/-! ## Numbers -/

theorem isTerm_toDigits (n : Nat) : IsTerm (Nat.toDigits 10 n) := by
  obtain ⟨hword, hquiet⟩ := isIdentifier_of_digits Nat.toDigits_ne_nil
    fun c hc => .inl (Nat.isDigit_of_mem_toDigits (b := 10) (by omega) (by omega) hc)
  exact isTerm_word hword hquiet

theorem isTerm_natText (n : Nat) : IsTerm (toString n).toList := by
  rw [Nat.toString_eq_repr, Nat.toList_repr]
  exact isTerm_toDigits n

/-- A whole number is written in digits, behind a sign if it is negative. -/
theorem exists_toList_intText (n : Int) : ∃ (negative : Bool) (m : Nat),
    (toString n).toList = (if negative then ['-'] else []) ++ Nat.toDigits 10 m := by
  cases n with
  | ofNat m => exact ⟨false, m, Nat.toList_repr⟩
  | negSucc m =>
    refine ⟨true, m + 1, ?_⟩
    show ("-" ++ (m + 1).repr).toList = _
    rw [String.toList_append, Nat.toList_repr]
    rfl

theorem isTerm_intText (n : Int) : IsTerm (toString n).toList := by
  obtain ⟨negative, m, htext⟩ := exists_toList_intText n
  rw [htext]
  exact isTerm_signed negative (isTerm_toDigits m)

/-- Positional notation has digits and at most points between them. -/
theorem digits_positional {digits : List Char} (hne : digits ≠ [])
    (hdigits : ∀ c ∈ digits, c.isDigit = true) (leading : Int) :
    DecimalLayout.positional digits leading false ≠ [] ∧
      ∀ c ∈ DecimalLayout.positional digits leading false, c.isDigit = true ∨ c = '.' := by
  have hzeros : ∀ n, ∀ c ∈ List.replicate n '0', c.isDigit = true ∨ c = '.' := fun n c hc => by
    rw [List.eq_of_mem_replicate hc]
    exact .inl rfl
  have hall : ∀ c ∈ digits, c.isDigit = true ∨ c = '.' := fun c hc => .inl (hdigits c hc)
  rw [DecimalLayout.positional, DecimalLayout.splitAt]
  split
  · refine ⟨by simp, List.forall_mem_cons.2 ⟨.inl rfl, List.forall_mem_cons.2 ⟨.inr rfl, ?_⟩⟩⟩
    exact List.forall_mem_append.2 ⟨hzeros _, hall⟩
  · split
    · refine ⟨by simp [hne], ?_⟩
      simp only [Bool.false_eq_true, if_false, List.append_nil]
      exact List.forall_mem_append.2 ⟨hall, hzeros _⟩
    · refine ⟨by simp, List.forall_mem_append.2 ⟨?_, ?_⟩⟩
      · exact fun c hc => hall c (List.mem_of_mem_take hc)
      · exact List.forall_mem_cons.2 ⟨.inr rfl, fun c hc => hall c (List.mem_of_mem_drop hc)⟩

theorem isTerm_positional {digits : List Char} (hne : digits ≠ [])
    (hdigits : ∀ c ∈ digits, c.isDigit = true) (leading : Int) :
    IsTerm (DecimalLayout.positional digits leading false) := by
  obtain ⟨hbody, hall⟩ := digits_positional hne hdigits leading
  obtain ⟨hword, hquiet⟩ := isIdentifier_of_digits hbody hall
  exact isTerm_word hword hquiet

theorem isTerm_plainText (x : Binary64) : IsTerm x.plainText.toList := by
  rw [Binary64.plainText, Binary64.text]
  split
  · exact isTerm_word (a := "NaN".toList) (by decide) (by decide)
  · dsimp only
    by_cases hinfinite : x.isInfinite = true
    · rw [if_pos hinfinite, String.toList_ofList]
      exact isTerm_signed x.negative (isTerm_word (a := ['i', 'n', 'f']) (by decide) (by decide))
    · have hplain : ∀ leading, DecimalLayout.isPositional .plain leading = true := fun _ => rfl
      rw [if_neg hinfinite, String.toList_ofList, hplain, Bool.or_true, if_pos rfl]
      refine isTerm_signed x.negative (isTerm_positional Nat.toDigits_ne_nil (fun c hc => ?_) _)
      exact Nat.isDigit_of_mem_toDigits (b := 10) (by omega) (by omega) hc

/-! ## Expressions -/

/-- The characters of a text in pieces, in a statement at a level. -/
def Sql.chars (level : Nat) (sql : Sql) : List Char := (sql.render level).toList

section Chars

variable (level : Nat)

theorem Sql.chars_nil : Sql.chars level [] = [] := rfl

theorem Sql.chars_cons (piece : Piece) (sql : Sql) :
    Sql.chars level (piece :: sql) = (piece.render level).toList ++ Sql.chars level sql := by
  rw [chars, render_cons, String.toList_append]
  rfl

theorem Sql.chars_text (text : String) (sql : Sql) :
    Sql.chars level (.text text :: sql) = text.toList ++ Sql.chars level sql :=
  chars_cons level _ sql

theorem Sql.chars_append (a b : Sql) :
    Sql.chars level (a ++ b) = Sql.chars level a ++ Sql.chars level b := by
  rw [chars, render_append, String.toList_append]
  rfl

theorem Sql.chars_ofText (text : String) : Sql.chars level (ofText text) = text.toList := by
  rw [ofText, chars_text, chars_nil, List.append_nil]

theorem Sql.chars_around (before : String) (sql : Sql) (behind : String) :
    Sql.chars level (around before sql behind) =
      before.toList ++ Sql.chars level sql ++ behind.toList := by
  rw [around, List.cons_append, chars_text, chars_append, ← ofText, chars_ofText, List.append_assoc]

theorem Sql.chars_parenthesized (sql : Sql) :
    Sql.chars level (parenthesized sql) = '(' :: Sql.chars level sql ++ [')'] :=
  chars_around level "(" sql ")"

theorem Sql.chars_column (table : Alias) (name : String) :
    Sql.chars level (column table name) = (table.text level).toList ++ '.' :: name.toList := by
  rw [column, chars_cons, ← ofText, chars_ofText, String.toList_append]
  rfl

theorem Piece.toList_render_quoted (text : String) :
    ((Piece.quoted text).render level).toList =
      '\'' :: text.toList.flatMap doubleQuote ++ ['\''] := by
  simp [render, doubleQuotes]

end Chars

section Scalars

variable {level : Nat}

theorem divides_comma : Divides ", ".toList [.sign ','] := divides_signs (by decide) (by decide)

/-- Parts between separators. -/
theorem isClosed_separated {sep : String} {ops : List Item} (hsep : Divides sep.toList ops) :
    ∀ {parts : List Sql}, (∀ part ∈ parts, IsClosed (part.chars level)) →
      IsClosed ((Sql.separated sep parts).chars level)
  | [], _ => isClosed_nil
  | [part], h => h part (List.mem_singleton_self part)
  | part :: other :: parts, h => by
    obtain ⟨hpart, hrest⟩ := List.forall_mem_cons.1 h
    rw [Sql.separated_cons_cons, Sql.chars_append, Sql.chars_text, ← List.append_assoc]
    exact hpart.divided hsep (isClosed_separated hsep hrest)

/-- Terms in parentheses with commas between them. -/
theorem isTerm_list {parts : List Sql} (h : ∀ part ∈ parts, IsClosed (part.chars level)) :
    IsTerm ((Sql.parenthesized (Sql.separated ", " parts)).chars level) := by
  rw [Sql.chars_parenthesized]
  exact isTerm_group (isClosed_separated divides_comma h)

theorem isTerm_columnText {table name : String} (htable : IsName table) (hname : IsName name) :
    IsTerm (table.toList ++ '.' :: name.toList) := by
  rw [IsName, isIdentifier, Bool.and_eq_true] at htable hname
  refine isTerm_word ?_ (isQuiet_word (c := '.') (by simp) (.inr rfl))
  rw [isIdentifier, List.all_append, List.all_cons, htable.2, hname.2]
  simp [isIdentifierChar]

theorem isClosed_name {name : String} (h : IsName name) : IsClosed name.toList := ⟨_, spells_word h⟩

theorem isTerm_column {table : Alias} {name : String} (htable : table.IsNamed)
    (hname : IsName name) : IsTerm ((Sql.column table name).chars level) := by
  rw [Sql.chars_column]
  exact isTerm_columnText (htable level) hname

theorem isTerm_render_quoted (text : String) :
    IsTerm ((Piece.quoted text).render level).toList := by
  rw [Piece.toList_render_quoted]
  exact isTerm_quoted text.toList

theorem isTerm_value (value : Value) : IsTerm (Sql.chars level [value.sql]) := by
  rw [Sql.chars_cons, Sql.chars_nil, List.append_nil]
  cases value with
  | null => exact isTerm_word (a := "NULL".toList) (by decide) (by decide)
  | bool b =>
    cases b with
    | false => exact isTerm_word (a := "FALSE".toList) (by decide) (by decide)
    | true => exact isTerm_word (a := "TRUE".toList) (by decide) (by decide)
  | int n => exact isTerm_intText n.toInt
  | float x => exact isTerm_plainText x
  | text s => exact isTerm_render_quoted s

theorem isTerm_values (values : List Value) : IsTerm ((Value.listSql values).chars level) := by
  refine isTerm_list fun part hpart => ?_
  obtain ⟨value, -, rfl⟩ := List.mem_map.1 hpart
  exact (isTerm_value value).isClosed

/-- A function of one argument. -/
theorem isTerm_around (function : String) (hfunction : IsTerm function.toList) {arg : Sql}
    (harg : IsClosed (arg.chars level)) :
    IsTerm ((Sql.around (function ++ "(") arg ")").chars level) := by
  rw [Sql.chars_around, String.toList_append, List.append_assoc, List.append_assoc]
  exact isTerm_call hfunction harg

theorem isTerm_geometry (text : String) (srid : Nat) :
    IsTerm ((Dialect.geometryLiteral (.quoted text) srid).chars level) := by
  have htext : (Dialect.geometryLiteral (.quoted text) srid).chars level =
      "ST_GeomFromText".toList ++ ('(' ::
        (((Piece.quoted text).render level).toList ++ [','] ++ (toString srid).toList) ++
          [')']) := by
    rw [Dialect.geometryLiteral, Sql.chars_text, Sql.chars_cons, Sql.chars_text, Sql.chars_nil]
    simp [String.toList_append]
  rw [htext]
  refine isTerm_call (isTerm_word (by decide) (by decide)) ?_
  exact (isTerm_render_quoted text).isClosed.divided (divides_signs (by decide) (by decide))
    (isTerm_natText srid).isClosed

/-- A literal behind a word that says what it is. -/
theorem isTerm_introduced (word : String) (hword : IsTerm word.toList) {piece : Piece}
    (hpiece : IsTerm (piece.render level).toList) :
    IsTerm (Sql.chars level [.text (word ++ " "), piece]) := by
  rw [Sql.chars_text, String.toList_append, Sql.chars_cons, Sql.chars_nil, List.append_nil]
  exact hword.divided divides_blank (fun _ h => nomatch h) hpiece

theorem isTerm_time (dialect : Dialect) (text : String) :
    IsTerm ((dialect.timeLiteral (.quoted text)).chars level) := by
  cases dialect with
  | postgis =>
    exact isTerm_introduced "TIMESTAMP" (isTerm_word (by decide) (by decide))
      (isTerm_render_quoted text)
  | geopackage =>
    refine isTerm_around "datetime" (isTerm_word (by decide) (by decide)) ?_
    rw [Sql.chars_cons, Sql.chars_nil, List.append_nil]
    exact (isTerm_render_quoted text).isClosed

theorem isTerm_date (dialect : Dialect) (text : String) :
    IsTerm ((dialect.dateLiteral (.quoted text)).chars level) := by
  cases dialect with
  | postgis =>
    exact isTerm_introduced "DATE" (isTerm_word (by decide) (by decide))
      (isTerm_render_quoted text)
  | geopackage =>
    refine isTerm_around "date" (isTerm_word (by decide) (by decide)) ?_
    rw [Sql.chars_cons, Sql.chars_nil, List.append_nil]
    exact (isTerm_render_quoted text).isClosed

/-- An expression is a term. -/
theorem Scalar.isTerm_sql (dialect : Dialect) (srid : Nat) {e : Scalar} (h : e.HasNames) :
    IsTerm ((e.sql dialect srid).chars level) := by
  induction e with
  | column table name => exact isTerm_column h.1 h.2
  | position table => exact isTerm_column h (by decide)
  | literal value => exact isTerm_value value
  | geometry value => exact isTerm_geometry _ srid
  | instant value => exact isTerm_time dialect _
  | date value => exact isTerm_date dialect _
  | earliest => exact isTerm_time dialect _
  | latest => exact isTerm_time dialect _
  | period start stop hstart hstop =>
    rw [sql, Sql.chars_parenthesized, Sql.chars_append, Sql.chars_text, ← List.append_assoc]
    exact isTerm_group ((hstart h.1).isClosed.divided (divides_signs (by decide) (by decide))
      (hstop h.2).isClosed)
  | list values => exact isTerm_values values
  | upper arg ih =>
    exact isTerm_around "UPPER" (isTerm_word (by decide) (by decide)) (ih h).isClosed
  | lower arg ih =>
    exact isTerm_around "LOWER" (isTerm_word (by decide) (by decide)) (ih h).isClosed
  | collated arg collation ih =>
    -- the collation is a name in double quotes behind a word
    have htext : (" COLLATE \"" ++ collation ++ "\"").toList =
        ' ' :: ("COLLATE".toList ++ [' ']) ++ ('"' :: collation.toList ++ ['"']) := by
      simp [String.toList_append]
    have hname : IsTerm ('"' :: collation.toList ++ ['"']) :=
      ⟨_, spells_doubleQuoted h.2,
        by simp [AllQuiet, Item.isQuiet, Item.structural, Item.isKeyword], by simp⟩
    rw [sql, Sql.chars_append, Sql.chars_ofText, htext, ← List.append_assoc]
    exact (ih h.1).divided (divides_word (by decide)) (by decide) hname

end Scalars

/-! ## Tests -/

/-- The text is a conjunction of one or more parts. -/
def IsConjunction (text : List Char) : Prop :=
  ∃ items parts, Spells text items ∧ ReadsAll items parts

section Conjunctions

variable {a b c op : List Char} {ops : List Item}

theorem IsConjunction.isClosed (h : IsConjunction a) : IsClosed a := by
  obtain ⟨items, _, h, -⟩ := h
  exact ⟨items, h⟩

/-- Two terms and an operator between them are an atom. -/
theorem IsTerm.isConjunction_divided (ha : IsTerm a) (hop : Divides op ops)
    (hquiet : AllQuiet ops) (hb : IsTerm b) : IsConjunction (a ++ op ++ b) := by
  obtain ⟨as, ha, has, hane⟩ := ha
  obtain ⟨bs, hb, hbs, hbne⟩ := hb
  have hlength : 2 ≤ (as ++ ops ++ bs).length := by
    have := List.length_pos_of_ne_nil hane
    have := List.length_pos_of_ne_nil hbne
    rw [List.length_append, List.length_append]
    omega
  obtain ⟨part, hpart⟩ := exists_readsAll_of_allQuiet ((has.append hquiet).append hbs)
    (by simp [hane]) (by
      intro inner heq
      rw [heq] at hlength
      simp at hlength)
  exact ⟨_, _, (ha.divided hop).append hb, hpart⟩

/-- A function applied to some arguments is an atom. -/
theorem IsTerm.isConjunction_call (ha : IsTerm a) (hb : IsClosed b) :
    IsConjunction (a ++ ('(' :: b ++ [')'])) := by
  obtain ⟨as, ha, has, hne⟩ := ha
  obtain ⟨bs, hb⟩ := hb
  have hgroup := (spellsEnded_group hb).spells
  obtain ⟨part, hpart⟩ := exists_readsAll_of_allQuiet
    (has.append (b := [.group bs]) (by simpa [AllQuiet] using isQuiet_group bs)) (by simp)
    (by
      intro inner heq
      simp [List.append_eq_singleton_iff, hne] at heq)
  exact ⟨_, _, ha.append hgroup (by intro c hc; obtain rfl := Option.some.inj hc; rfl), hpart⟩

/-- A range is an atom. -/
theorem IsTerm.isConjunction_between (ha : IsTerm a) (hb : IsTerm b) (hc : IsTerm c) :
    IsConjunction (a ++ " BETWEEN ".toList ++ (b ++ " AND ".toList ++ c)) := by
  obtain ⟨as, ha, has, hane⟩ := ha
  obtain ⟨bs, hb, hbs, -⟩ := hb
  obtain ⟨cs, hc, hcs, -⟩ := hc
  obtain ⟨part, hpart⟩ := exists_readsAll_between has hbs hcs hane
  have hbounds := (hb.divided (divides_word (a := "AND".toList) (by decide))).append hc
  have hrange := (ha.divided (divides_word (a := "BETWEEN".toList) (by decide))).append hbounds
  refine ⟨_, [part], hrange, ?_⟩
  simpa [Item.ofKeyword] using hpart

theorem divides_in : Divides " IN ".toList [Item.ofKeyword "IN"] :=
  divides_word (a := "IN".toList) (by decide)

theorem divides_notIn : Divides " NOT IN ".toList [Item.ofKeyword "NOT", Item.ofKeyword "IN"] :=
  (divides_word (a := "NOT".toList) (by decide)).append
    (spellsEnded_word (a := "IN".toList) (by decide))

/-- The items of a term in front of a group, with IN or NOT IN between them. -/
theorem IsTerm.exists_readsAll_in (ha : IsTerm a) (hb : IsClosed b) :
    ∃ items negated atom, Spells (a ++ " IN ".toList ++ ('(' :: b ++ [')'])) items ∧
      Spells (a ++ " NOT IN ".toList ++ ('(' :: b ++ [')'])) negated ∧
        ReadsAll items [.atom atom] ∧ ReadsAll negated [.negation (.atom atom)] := by
  obtain ⟨as, ha, has, hne⟩ := ha
  obtain ⟨bs, hb⟩ := hb
  have hgroup := (spellsEnded_group hb).spells
  obtain ⟨hin, hnotIn⟩ := readsAll_in has hne bs
  refine ⟨_, _, as ++ [Item.ofKeyword "IN", .group bs], (ha.divided divides_in).append hgroup,
    (ha.divided divides_notIn).append hgroup, ?_, ?_⟩
  · simpa using hin
  · simpa using hnotIn

/-- What is in a list, or what is not in it. -/
theorem IsTerm.isConjunction_in (ha : IsTerm a) (hb : IsClosed b) (negated : Bool) :
    IsConjunction
      (a ++ (if negated then " NOT IN " else " IN ").toList ++ ('(' :: b ++ [')'])) := by
  obtain ⟨items, others, atom, hitems, hothers, hin, hnotIn⟩ := ha.exists_readsAll_in hb
  cases negated with
  | false => exact ⟨_, _, hitems, hin⟩
  | true => exact ⟨_, _, hothers, hnotIn⟩

theorem IsConjunction.and (ha : IsConjunction a) (hb : IsConjunction b) :
    IsConjunction (a ++ " AND ".toList ++ b) := by
  obtain ⟨as, aparts, ha, haparts⟩ := ha
  obtain ⟨bs, bparts, hb, hbparts⟩ := hb
  have hspells := (ha.divided (divides_word (a := "AND".toList) (by decide))).append hb
  refine ⟨_, aparts ++ bparts, hspells, ?_⟩
  simpa [Item.ofKeyword] using haparts.append hbparts

theorem spells_not (h : Spells a ops) :
    Spells ("NOT ".toList ++ ('(' :: a ++ [')'])) [Item.ofKeyword "NOT", .group ops] :=
  (spellsEnded_word (a := "NOT".toList) (by decide)).append (spellsEnded_group h).spells

theorem IsConjunction.negated (h : IsConjunction a) :
    IsConjunction ("NOT ".toList ++ ('(' :: a ++ [')'])) := by
  obtain ⟨items, parts, h, hparts⟩ := h
  exact ⟨_, _, spells_not h, readsAll_not_group hparts.readParts_eq⟩

end Conjunctions

section Tests

variable {level : Nat}

/-- The symbol of a comparison between blanks. -/
theorem divides_symbol (op : Comparison) :
    ∃ ops, Divides (" " ++ op.symbol ++ " ").toList ops ∧ AllQuiet ops := by
  have hsigns : (" " ++ op.symbol ++ " ").toList.all isSign = true := by cases op <;> decide
  exact ⟨_, divides_signs hsigns (by simp), allQuiet_signs _⟩

theorem isConjunction_compare (op : Comparison) {left right : Sql}
    (hleft : IsTerm (left.chars level)) (hright : IsTerm (right.chars level)) :
    IsConjunction (Sql.chars level (left ++ .text (" " ++ op.symbol ++ " ") :: right)) := by
  obtain ⟨ops, hop, hquiet⟩ := divides_symbol op
  rw [Sql.chars_append, Sql.chars_text, ← List.append_assoc]
  exact hleft.isConjunction_divided hop hquiet hright

/-- A test on moments is a conjunction. -/
theorem TimeTest.isConjunction_sql (dialect : Dialect) (srid : Nat) {test : TimeTest}
    (h : ∀ e ∈ test.scalars, e.HasNames) : IsConjunction ((test.sql dialect srid).chars level) := by
  induction test with
  | compare op left right =>
    exact isConjunction_compare op (left.isTerm_sql dialect srid (h left (by simp [scalars])))
      (right.isTerm_sql dialect srid (h right (by simp [scalars])))
  | both first second hfirst hsecond =>
    obtain ⟨h₁, h₂⟩ := List.forall_mem_append.1 h
    rw [sql, Sql.chars_append, Sql.chars_text, ← List.append_assoc]
    exact (hfirst h₁).and (hsecond h₂)
  | negation test ih =>
    rw [sql, Sql.chars_around]
    exact (ih h).negated
  | overlaps left right =>
    simp only [scalars, List.forall_mem_cons] at h
    obtain ⟨hstart, hstop, hstart', hstop', -⟩ := h
    have hpair : ∀ range : TimeRange, range.start.HasNames → range.stop.HasNames →
        IsTerm ((Sql.parenthesized (range.start.sql dialect srid ++
          .text ", " :: range.stop.sql dialect srid)).chars level) := by
      intro range hstart hstop
      rw [Sql.chars_parenthesized, Sql.chars_append, Sql.chars_text, ← List.append_assoc]
      exact isTerm_group ((range.start.isTerm_sql dialect srid hstart).isClosed.divided
        divides_comma (range.stop.isTerm_sql dialect srid hstop).isClosed)
    rw [sql, Sql.chars_append, Sql.chars_text, ← List.append_assoc]
    exact (hpair left hstart hstop).isConjunction_divided
      (divides_word (a := "OVERLAPS".toList) (by decide)) (by decide) (hpair right hstart' hstop')

/-- A value as text is a term. -/
theorem isTerm_castText (dialect : Dialect) {expression : Sql}
    (h : IsTerm (expression.chars level)) :
    IsTerm ((dialect.castText expression).chars level) := by
  cases dialect with
  | postgis =>
    rw [Dialect.castText, Sql.chars_append, Sql.chars_ofText,
      show "::varchar" = "::" ++ "varchar" from rfl, String.toList_append, ← List.append_assoc]
    exact h.divided (divides_signs (by decide) (by decide)) (by decide)
      (isTerm_word (by decide) (by decide))
  | geopackage =>
    have htext : (Dialect.castText expression .geopackage).chars level =
        "cast".toList ++ ('(' :: (expression.chars level ++ (' ' :: ("as".toList ++ [' '])) ++
          "text".toList) ++ [')']) := by
      rw [Dialect.castText, Sql.chars_around]
      simp
    rw [htext]
    exact isTerm_call (isTerm_word (by decide) (by decide)) (h.isClosed.divided
      (divides_word (by decide)) (isTerm_word (by decide) (by decide)).isClosed)

/-- A test is a conjunction. -/
theorem Test.isConjunction_sql (dialect : Dialect) (srid : Nat) {test : Test} (h : test.HasNames) :
    IsConjunction ((test.sql dialect srid).chars level) := by
  have hterm : ∀ e ∈ test.scalars, IsTerm ((e.sql dialect srid).chars level) :=
    fun e he => e.isTerm_sql dialect srid (h e he)
  cases test with
  | compare op left right =>
    exact isConjunction_compare op (hterm left (by simp [scalars]))
      (hterm right (by simp [scalars]))
  | like value pattern =>
    have hvalue := hterm value (by simp [scalars])
    have hpattern := hterm pattern (by simp [scalars])
    rw [sql, Sql.chars_append, Sql.chars_text, ← List.append_assoc]
    exact (isTerm_castText dialect hvalue).isConjunction_divided
      (divides_word (a := "LIKE".toList) (by decide)) (by decide) hpattern
  | oneOf value list negated =>
    obtain ⟨hvalue, hlist⟩ := List.forall_mem_cons.1 hterm
    have hmembers : IsClosed
        ((Sql.separated ", " (list.map fun e => e.sql dialect srid)).chars level) := by
      refine isClosed_separated divides_comma fun part hpart => ?_
      obtain ⟨e, he, rfl⟩ := List.mem_map.1 hpart
      exact (hlist e he).isClosed
    rw [sql, Sql.chars_append, Sql.chars_text, Sql.chars_parenthesized, ← List.append_assoc]
    exact hvalue.isConjunction_in hmembers negated
  | isNull value =>
    rw [sql, Sql.chars_append, Sql.chars_ofText, show " IS NULL" = " IS " ++ "NULL" from rfl,
      String.toList_append, ← List.append_assoc]
    exact (hterm value List.mem_cons_self).isConjunction_divided
      (divides_word (a := "IS".toList) (by decide)) (by decide)
      (isTerm_word (by decide) (by decide))
  | between value lower upper =>
    -- the connective between the bounds belongs to the word in front of them
    simp only [scalars, List.forall_mem_cons] at hterm
    obtain ⟨hvalue, hlower, hupper, -⟩ := hterm
    have htext : ((Test.between value lower upper).sql dialect srid).chars level =
        (value.sql dialect srid).chars level ++ " BETWEEN ".toList ++
          ((lower.sql dialect srid).chars level ++ " AND ".toList ++
            (upper.sql dialect srid).chars level) := by
      simp only [sql, List.cons_append, List.append_assoc, Sql.chars_append, Sql.chars_text]
    rw [htext]
    exact hvalue.isConjunction_between hlower hupper
  | spatial relation left right =>
    have hleft := hterm left (by simp [scalars])
    have hright := hterm right (by simp [scalars])
    have hfunction : IsTerm (Dialect.spatialFunction relation).toList :=
      isTerm_word (by cases relation <;> decide) (by cases relation <;> decide)
    rw [sql, Sql.chars_around, String.toList_append, List.append_assoc, List.append_assoc,
      Sql.chars_append, Sql.chars_text, ← List.append_assoc (Sql.chars _ _)]
    exact hfunction.isConjunction_call (hleft.isClosed.divided divides_comma hright.isClosed)
  | temporal test => exact test.isConjunction_sql dialect srid h

end Tests

end FeatureStore
