import FeatureStore.Proofs.Path.Joined

/-!
# Scanning paths

What reading a path relies on, part by part. Names hold no mark that a path is cut at
(`ne_of_isIdentifierChar`) and no blank (`trimChars_name`). A text is cut at the separators that
were put into it (`cutAt_append`, `splitAll_joinAll`). Two scans count open brackets: a text is one
segment exactly if the depth of both kinds of brackets comes back to where it began, without a slash
outside them (`isSegment_iff`), and a brace is closed by the first one behind a text in which the
braces pair up (`closeBrace?_eq_some_iff`). Both scans succeed exactly if no beginning of the text
closes more than is open (`nest_eq_some_iff`).
-/

set_option autoImplicit false

namespace FeatureStore

/-! ## Characters of names -/

/-- A character of a name is none that a name cannot have. -/
theorem ne_of_isIdentifierChar {c mark : Char} (h : isIdentifierChar c = true)
    (hmark : isIdentifierChar mark = false) : c ≠ mark := by
  rintro rfl
  rw [h] at hmark
  exact absurd hmark (by decide)

theorem isBlank_of_isIdentifierChar {c : Char} (h : isIdentifierChar c = true) :
    isBlank c = false := by
  -- from the point to the last small letter
  have hrange : 46 ≤ c.toNat ∧ c.toNat ≤ 122 := by
    unfold isIdentifierChar Char.isAlphanum Char.isAlpha Char.isUpper Char.isLower Char.isDigit at h
    simp only [Bool.or_eq_true, Bool.and_eq_true, decide_eq_true_eq, beq_iff_eq, ge_iff_le,
      UInt32.le_iff_toNat_le] at h
    rcases h with (((h | h) | h) | rfl) | rfl
    · exact ⟨le_trans (by decide) h.1, le_trans h.2 (by decide)⟩
    · exact ⟨le_trans (by decide) h.1, le_trans h.2 (by decide)⟩
    · exact ⟨le_trans (by decide) h.1, le_trans h.2 (by decide)⟩
    · decide
    · decide
  simp only [isBlank, Bool.or_eq_false_iff, Bool.and_eq_false_iff, decide_eq_false_iff_not,
    beq_eq_false_iff_ne]
  omega

theorem isIdentifier_iff {cs : List Char} :
    isIdentifier cs = true ↔ cs ≠ [] ∧ ∀ c ∈ cs, isIdentifierChar c = true := by
  rw [isIdentifier, Bool.and_eq_true, List.all_eq_true]
  simp

/-- A mark that no name can have is in none. -/
theorem not_mem_of_isIdentifier {cs : List Char} {mark : Char} (h : isIdentifier cs = true)
    (hmark : isIdentifierChar mark = false) : mark ∉ cs := fun hmem =>
  ne_of_isIdentifierChar ((isIdentifier_iff.1 h).2 mark hmem) hmark rfl

/-! ## Blanks around a text -/

/-- A text without blanks at its ends. -/
def IsTrimmed (cs : List Char) : Prop :=
  (∀ c ∈ cs.head?, isBlank c = false) ∧ ∀ c ∈ cs.getLast?, isBlank c = false

theorem dropWhile_eq_self {p : Char → Bool} : ∀ {cs : List Char}, (∀ c ∈ cs.head?, p c = false) →
    cs.dropWhile p = cs
  | [], _ => rfl
  | c :: cs, h => List.dropWhile_cons_of_neg (by simp [h c (by simp)])

theorem head?_dropWhile (p : Char → Bool) (cs : List Char) :
    ∀ c ∈ (cs.dropWhile p).head?, p c = false := by
  intro c hc
  have hhead := List.head?_dropWhile_not p cs
  rw [Option.mem_def.1 hc] at hhead
  exact hhead

theorem trimChars_of_isTrimmed {cs : List Char} (h : IsTrimmed cs) : trimChars cs = cs := by
  rw [trimChars, trimLeft, dropWhile_eq_self h.1, trimRight, dropWhile_eq_self,
    List.reverse_reverse]
  intro c hc
  rw [List.head?_reverse] at hc
  exact h.2 c hc

theorem getLast?_trimChars (cs : List Char) :
    ∀ c ∈ (trimChars cs).getLast?, isBlank c = false := by
  intro c hc
  rw [trimChars, trimRight, List.getLast?_reverse] at hc
  exact head?_dropWhile _ _ c hc

/-- Only blanks are left out at the ends of a text. -/
theorem mem_trimChars {cs : List Char} {c : Char} (hc : isBlank c = false) (h : c ∈ cs) :
    c ∈ trimChars cs := by
  have hkeep : ∀ {l : List Char}, c ∈ l → c ∈ l.dropWhile isBlank := by
    intro l hl
    rw [← List.takeWhile_append_dropWhile (p := isBlank) (l := l), List.mem_append] at hl
    refine hl.resolve_left fun hfront => ?_
    have hblank := List.all_eq_true.1 List.all_takeWhile c hfront
    rw [hc] at hblank
    exact absurd hblank (by decide)
  rw [trimChars, trimRight, List.mem_reverse]
  exact hkeep (List.mem_reverse.2 (hkeep h))

theorem isTrimmed_name {cs : List Char} (h : isIdentifier cs = true) : IsTrimmed cs := by
  have hall := (isIdentifier_iff.1 h).2
  exact ⟨fun c hc => isBlank_of_isIdentifierChar (hall c (List.mem_of_mem_head? hc)),
    fun c hc => isBlank_of_isIdentifierChar (hall c (List.mem_of_mem_getLast? hc))⟩

theorem trimChars_name {cs : List Char} (h : isIdentifier cs = true) : trimChars cs = cs :=
  trimChars_of_isTrimmed (isTrimmed_name h)

/-! ## Separators -/

theorem cutAt_append {sep : Char} {behind : List Char} : ∀ {before : List Char}, sep ∉ before →
    cutAt sep (before ++ sep :: behind) = some (before, behind)
  | [], _ => by simp [cutAt]
  | c :: before, h => by
    rw [List.cons_append, cutAt, if_neg (List.ne_of_not_mem_cons h).symm,
      cutAt_append (List.not_mem_of_not_mem_cons h)]
    rfl

theorem splitAll_of_not_mem {sep : Char} : ∀ {part : List Char}, sep ∉ part →
    splitAll sep part = [part]
  | [], _ => rfl
  | c :: part, h => by
    rw [splitAll, if_neg (List.ne_of_not_mem_cons h).symm,
      splitAll_of_not_mem (List.not_mem_of_not_mem_cons h)]
    rfl

theorem splitAll_append {sep : Char} {rest : List Char} : ∀ {part : List Char}, sep ∉ part →
    splitAll sep (part ++ sep :: rest) = part :: splitAll sep rest
  | [], _ => by simp [splitAll]
  | c :: part, h => by
    rw [List.cons_append, splitAll, if_neg (List.ne_of_not_mem_cons h).symm,
      splitAll_append (List.not_mem_of_not_mem_cons h)]
    rfl

/-- Parts without the separator are what a text joined by it is cut into. -/
theorem splitAll_joinAll {sep : Char} : ∀ {parts : List (List Char)}, parts ≠ [] →
    (∀ part ∈ parts, sep ∉ part) → splitAll sep (joinAll sep parts) = parts
  | [], hne, _ => absurd rfl hne
  | [part], _, h => splitAll_of_not_mem (h part List.mem_cons_self)
  | part :: next :: parts, _, h => by
    have hrest : splitAll sep (joinAll sep (next :: parts)) = next :: parts :=
      splitAll_joinAll (by simp) fun p hp => h p (List.mem_cons_of_mem _ hp)
    rw [joinAll, splitAll_append (h part List.mem_cons_self), hrest]
    simp

theorem exists_joinAll_cons (sep : Char) (part : List Char) (parts : List (List Char)) :
    ∃ more, joinAll sep (part :: parts) = part ++ more := by
  cases parts with
  | nil => exact ⟨[], by simp [joinAll]⟩
  | cons next parts => exact ⟨_, rfl⟩

/-- Joined parts have only the characters of the parts, and the separator. -/
theorem mem_joinAll {sep c : Char} : ∀ {parts : List (List Char)}, c ∈ joinAll sep parts →
    c = sep ∨ ∃ part ∈ parts, c ∈ part
  | [], h => by simp [joinAll] at h
  | [part], h => .inr ⟨part, List.mem_cons_self, h⟩
  | part :: next :: parts, h => by
    rcases List.mem_append.1 h with h | h
    · exact .inr ⟨part, List.mem_cons_self, h⟩
    · rcases List.mem_cons.1 h with rfl | h
      · exact .inl rfl
      · rcases mem_joinAll h with rfl | ⟨other, hother, h⟩
        · exact .inl rfl
        · exact .inr ⟨other, List.mem_cons_of_mem _ hother, h⟩

/-- A text is cut without losing characters but the separators. -/
theorem mem_splitAll {sep c : Char} : ∀ {cs : List Char}, c ∈ cs →
    c = sep ∨ ∃ part ∈ splitAll sep cs, c ∈ part
  | d :: cs, h => by
    rw [splitAll]
    by_cases hsep : d = sep
    · rw [if_pos hsep]
      rcases List.mem_cons.1 h with rfl | h
      · exact .inl hsep
      · rcases mem_splitAll h with hmark | ⟨part, hpart, hc⟩
        · exact .inl hmark
        · exact .inr ⟨part, List.mem_cons_of_mem _ hpart, hc⟩
    · rw [if_neg hsep]
      cases hrest : splitAll sep cs with
      | nil =>
        rcases List.mem_cons.1 h with rfl | h
        · exact .inr ⟨[c], by simp [consFirst]⟩
        · rcases mem_splitAll h with hmark | ⟨part, hpart, -⟩
          · exact .inl hmark
          · simp [hrest] at hpart
      | cons first parts =>
        rcases List.mem_cons.1 h with rfl | h
        · exact .inr ⟨c :: first, List.mem_cons_self, List.mem_cons_self⟩
        · rcases mem_splitAll h with hmark | ⟨part, hpart, hc⟩
          · exact .inl hmark
          · rw [hrest] at hpart
            rcases List.mem_cons.1 hpart with rfl | hpart
            · exact .inr ⟨d :: part, List.mem_cons_self, List.mem_cons_of_mem _ hc⟩
            · exact .inr ⟨part, List.mem_cons_of_mem _ hpart, hc⟩

theorem isTrimmed_append {a b : List Char} (ha : a ≠ []) (hb : b ≠ [])
    (hfront : ∀ c ∈ a.head?, isBlank c = false) (hend : ∀ c ∈ b.getLast?, isBlank c = false) :
    IsTrimmed (a ++ b) := by
  constructor
  · intro c hc
    rw [List.head?_append_of_ne_nil _ ha] at hc
    exact hfront c hc
  · intro c hc
    rw [List.getLast?_append_of_ne_nil _ hb] at hc
    exact hend c hc

theorem joinAll_ne_nil {sep : Char} {part : List Char} {parts : List (List Char)} (h : part ≠ []) :
    joinAll sep (part :: parts) ≠ [] := by
  obtain ⟨more, hmore⟩ := exists_joinAll_cons sep part parts
  rw [hmore]
  simp [h]

/-- Joined parts without blanks at their ends have none at theirs. -/
theorem isTrimmed_joinAll {sep : Char} : ∀ {parts : List (List Char)},
    (∀ part ∈ parts, part ≠ [] ∧ IsTrimmed part) → IsTrimmed (joinAll sep parts)
  | [], _ => by simp [joinAll, IsTrimmed]
  | [part], h => (h part List.mem_cons_self).2
  | part :: next :: parts, h => by
    obtain ⟨⟨hne, htrimmed⟩, hrest⟩ := List.forall_mem_cons.1 h
    have hbehind : IsTrimmed (joinAll sep (next :: parts)) := isTrimmed_joinAll hrest
    have hsome : joinAll sep (next :: parts) ≠ [] :=
      joinAll_ne_nil (hrest next List.mem_cons_self).1
    refine isTrimmed_append hne (by simp) htrimmed.1 fun c hc => hbehind.2 c ?_
    rwa [← List.singleton_append, List.getLast?_append_of_ne_nil _ hsome] at hc

/-! ## Depths -/

/-- The depth behind a character, where some characters open and others close; none if it closes
what is not open. -/
def nest (opens closes : Char → Bool) (depth : Nat) (c : Char) : Option Nat :=
  if opens c then some (depth + 1)
  else if closes c then
    match depth with
    | 0 => none
    | outer + 1 => some outer
  else some depth

/-- Inside some open brackets, no beginning of the text closes more than is open, and the whole text
closes what it opens. -/
structure Paired (opens closes : Char → Bool) (around : Nat) (cs : List Char) : Prop where
  within : ∀ before, before <+: cs → before.countP closes ≤ before.countP opens + around
  level : cs.countP closes = cs.countP opens

section Depths

variable {opens closes : Char → Bool}

theorem countP_cons_eq (p : Char → Bool) {c : Char} (cs : List Char) :
    (c :: cs).countP p = [c].countP p + cs.countP p := by
  rw [← List.singleton_append, List.countP_append]

theorem nest_eq_some_iff (hmarks : ∀ c, opens c = true → closes c = false) {depth inner : Nat}
    {c : Char} : nest opens closes depth c = some inner ↔
      inner + [c].countP closes = depth + [c].countP opens := by
  rw [nest.eq_def]
  cases ho : opens c with
  | true => simp [ho, hmarks c ho, eq_comm]
  | false =>
    cases hc : closes c with
    | false => simp [ho, hc, eq_comm]
    | true => cases depth <;> simp [ho, hc, eq_comm]

/-- The depth is counted from the beginning to the end of a text as long as no beginning of the text
closes more than is open. -/
theorem foldlM_nest_iff (hmarks : ∀ c, opens c = true → closes c = false) :
    ∀ {cs : List Char} {depth last : Nat}, cs.foldlM (nest opens closes) depth = some last ↔
      (∀ before, before <+: cs → before.countP closes ≤ before.countP opens + depth) ∧
        cs.countP closes + last = cs.countP opens + depth
  | [], depth, last => by simp [eq_comm]
  | c :: cs, depth, last => by
    rw [List.foldlM_cons, Option.bind_eq_bind, Option.bind_eq_some_iff]
    constructor
    · rintro ⟨inner, hstep, hrest⟩
      rw [nest_eq_some_iff hmarks] at hstep
      obtain ⟨hwithin, hlevel⟩ := (foldlM_nest_iff hmarks).1 hrest
      rw [countP_cons_eq closes cs, countP_cons_eq opens cs]
      refine ⟨fun before hbefore => ?_, by omega⟩
      rcases List.prefix_cons_iff.1 hbefore with rfl | ⟨rest, rfl, hprefix⟩
      · simp
      · have := hwithin rest hprefix
        rw [countP_cons_eq closes rest, countP_cons_eq opens rest]
        omega
    · rintro ⟨hwithin, hlevel⟩
      rw [countP_cons_eq closes cs, countP_cons_eq opens cs] at hlevel
      -- the first character by itself is a prefix, so it does not close too much
      have hfirst := hwithin [c] (by simp)
      obtain ⟨inner, hinner⟩ : ∃ inner, inner + [c].countP closes = depth + [c].countP opens :=
        ⟨depth + [c].countP opens - [c].countP closes, by omega⟩
      refine ⟨inner, (nest_eq_some_iff hmarks).2 hinner, (foldlM_nest_iff hmarks).2 ⟨?_, by omega⟩⟩
      intro before hbefore
      have := hwithin (c :: before) (List.prefix_cons_inj c |>.2 hbefore)
      rw [countP_cons_eq closes before, countP_cons_eq opens before] at this
      omega

/-- A text in which brackets pair up leaves the depth as it was. -/
theorem foldlM_nest_iff_paired (hmarks : ∀ c, opens c = true → closes c = false) {cs : List Char}
    {depth : Nat} :
    cs.foldlM (nest opens closes) depth = some depth ↔ Paired opens closes depth cs := by
  rw [foldlM_nest_iff hmarks, Nat.add_right_cancel_iff]
  exact ⟨fun h => ⟨h.1, h.2⟩, fun h => ⟨h.within, h.level⟩⟩

end Depths

/-! ## Segments -/

theorem isClosing_of_isOpening (c : Char) (h : isOpening c = true) : isClosing c = false := by
  rw [isOpening, Bool.or_eq_true, beq_iff_eq, beq_iff_eq] at h
  rcases h with rfl | rfl <;> decide

/-- Inside a segment only a slash outside brackets is left out. -/
theorem depthBehind_eq (depth : Nat) (c : Char) :
    depthBehind depth c =
      if c = '/' ∧ depth = 0 then none else nest isOpening isClosing depth c := by
  unfold depthBehind nest
  by_cases hslash : c = '/'
  · subst hslash
    simp [isOpening, isClosing]
  · cases depth <;> simp [hslash]

/-- A text is one segment exactly if the depth of brackets is zero again at its end. -/
theorem segmentsFrom_eq_singleton_iff : ∀ {cs : List Char} {depth : Nat},
    segmentsFrom depth cs = .ok [cs] ↔ cs.foldlM depthBehind depth = some 0
  | [], depth => by
    rw [segmentsFrom, List.foldlM_nil]
    split <;> simp_all
  | c :: cs, depth => by
    rw [List.foldlM_cons, Option.bind_eq_bind, Option.bind_eq_some_iff]
    constructor
    · intro h
      rcases segmentsFrom_cons_cases h with
        ⟨inner, first, more, hinner, hmore, hcs⟩ | ⟨-, -, more, -, hcs⟩
      · simp only [List.cons.injEq, true_and] at hcs
        obtain ⟨rfl, rfl⟩ := hcs
        exact ⟨inner, hinner, segmentsFrom_eq_singleton_iff.1 hmore⟩
      · simp at hcs
    · rintro ⟨inner, hinner, hrest⟩
      rw [segmentsFrom_cons hinner, segmentsFrom_eq_singleton_iff.2 hrest]
      rfl

theorem isSegment_iff {cs : List Char} : IsSegment cs ↔ cs.foldlM depthBehind 0 = some 0 :=
  segmentsFrom_eq_singleton_iff

/-- No segment begins with another one and a slash. -/
theorem IsSegment.append_inj {a b x y : List Char} (ha : IsSegment a) (hb : IsSegment b)
    (h : a ++ '/' :: x = b ++ '/' :: y) : a = b ∧ x = y := by
  have hlonger : ∀ {a b rest : List Char}, IsSegment a → IsSegment b → b ≠ a ++ '/' :: rest := by
    rintro a _ rest ha hb rfl
    rw [isSegment_iff] at ha hb
    rw [List.foldlM_append, ha] at hb
    exact absurd hb (by simp [depthBehind, isOpening, isClosing])
  rcases List.append_eq_append_iff.1 h with ⟨c, rfl, hx⟩ | ⟨c, rfl, hy⟩
  · cases c with
    | nil => exact ⟨by simp, (List.cons.inj hx).2⟩
    | cons first c =>
      obtain ⟨rfl, -⟩ := List.cons.inj hx
      exact absurd rfl (hlonger ha hb)
  · cases c with
    | nil => exact ⟨by simp, (List.cons.inj hy).2.symm⟩
    | cons first c =>
      obtain ⟨rfl, -⟩ := List.cons.inj hy
      exact absurd rfl (hlonger hb ha)

/-- The segments of a text make it up. -/
theorem joinAll_of_segments : ∀ {parts : List (List Char)} {cs : List Char},
    segments cs = .ok parts → joinAll '/' parts = cs
  | [], _, h => absurd rfl (segmentsFrom_ne_nil h)
  | part :: parts, cs, h => by
    rcases (segmentsFrom_first h).2 with ⟨rfl, rfl⟩ | ⟨rest, rfl, hrest⟩
    · rfl
    · obtain ⟨next, parts, rfl⟩ := List.exists_cons_of_ne_nil (segmentsFrom_ne_nil hrest)
      rw [joinAll, joinAll_of_segments hrest]
      simp

/-- The depth inside a segment is that of its brackets, as long as every slash stands inside
some. -/
theorem foldlM_depthBehind_iff : ∀ {cs : List Char} {depth last : Nat},
    cs.foldlM depthBehind depth = some last ↔
      cs.foldlM (nest isOpening isClosing) depth = some last ∧
        ∀ before behind, cs = before ++ '/' :: behind →
          before.countP isClosing < before.countP isOpening + depth
  | [], depth, last => by simp
  | c :: cs, depth, last => by
    simp only [List.foldlM_cons, Option.bind_eq_bind, Option.bind_eq_some_iff, depthBehind_eq]
    constructor
    · rintro ⟨inner, hinner, hrest⟩
      split at hinner
      · simp at hinner
      · rename_i hslash
        obtain ⟨hfold, hinside⟩ := foldlM_depthBehind_iff.1 hrest
        refine ⟨⟨inner, hinner, hfold⟩, fun before behind hcs => ?_⟩
        cases before with
        | nil =>
          obtain ⟨rfl, -⟩ := List.cons.inj hcs
          simp only [true_and] at hslash
          simpa using Nat.pos_of_ne_zero hslash
        | cons first before =>
          obtain ⟨rfl, rfl⟩ := List.cons.inj hcs
          have hstep := (nest_eq_some_iff isClosing_of_isOpening).1 hinner
          have := hinside before behind rfl
          rw [countP_cons_eq isClosing before, countP_cons_eq isOpening before]
          omega
    · rintro ⟨⟨inner, hinner, hfold⟩, hinside⟩
      -- a slash in front of everything would need an open bracket
      have hslash : ¬(c = '/' ∧ depth = 0) := by
        rintro ⟨rfl, rfl⟩
        simpa using hinside [] cs rfl
      have hstep := (nest_eq_some_iff isClosing_of_isOpening).1 hinner
      refine ⟨inner, by rw [if_neg hslash, hinner], foldlM_depthBehind_iff.2 ⟨hfold, ?_⟩⟩
      rintro before behind rfl
      have := hinside (c :: before) behind rfl
      rw [countP_cons_eq isClosing before, countP_cons_eq isOpening before] at this
      omega

/-- A bracket or slash, where paths are cut. -/
def isPathMark (c : Char) : Bool := isOpening c || isClosing c || c == '/'

/-- A text without brackets and slashes leaves the depth as it was. -/
theorem foldlM_depthBehind_plain {depth : Nat} : ∀ {cs : List Char},
    (∀ c ∈ cs, isPathMark c = false) → cs.foldlM depthBehind depth = some depth
  | [], _ => rfl
  | c :: cs, h => by
    obtain ⟨hc, hcs⟩ := List.forall_mem_cons.1 h
    simp only [isPathMark, Bool.or_eq_false_iff, beq_eq_false_iff_ne] at hc
    have hstep : depthBehind depth c = some depth := by
      rw [depthBehind.eq_def, if_neg (by simp [hc.1.1]), if_neg (by simp [hc.1.2]),
        if_neg (by simp [hc.2])]
    rw [List.foldlM_cons, hstep]
    exact foldlM_depthBehind_plain hcs

theorem isPathMark_of_isIdentifierChar {c : Char} (h : isIdentifierChar c = true) :
    isPathMark c = false := by
  have hne : ∀ mark, isIdentifierChar mark = false → c ≠ mark := fun _ hmark =>
    ne_of_isIdentifierChar h hmark
  simp [isPathMark, isOpening, isClosing, hne '[' (by decide), hne ']' (by decide),
    hne '\x7b' (by decide), hne '\x7d' (by decide), hne '/' (by decide)]

/-! ## Texts that leave the depth as it was -/

/-- A text inside some brackets that closes what it opens, with slashes inside brackets only. -/
def IsLevel (depth : Nat) (cs : List Char) : Prop := cs.foldlM depthBehind depth = some depth

instance (depth : Nat) (cs : List Char) : Decidable (IsLevel depth cs) :=
  inferInstanceAs (Decidable (_ = _))

theorem isLevel_plain {depth : Nat} {cs : List Char} (h : ∀ c ∈ cs, isPathMark c = false) :
    IsLevel depth cs := foldlM_depthBehind_plain h

theorem isLevel_name {depth : Nat} {cs : List Char} (h : isIdentifier cs = true) :
    IsLevel depth cs :=
  isLevel_plain fun c hc => isPathMark_of_isIdentifierChar ((isIdentifier_iff.1 h).2 c hc)

theorem IsLevel.append {depth : Nat} {a b : List Char} (ha : IsLevel depth a)
    (hb : IsLevel depth b) : IsLevel depth (a ++ b) := by
  rw [IsLevel, List.foldlM_append, ha]
  exact hb

theorem IsLevel.flatMap {α : Type} {depth : Nat} {f : α → List Char} : ∀ {l : List α},
    (∀ a ∈ l, IsLevel depth (f a)) → IsLevel depth (l.flatMap f)
  | [], _ => rfl
  | a :: l, h => by
    rw [List.flatMap_cons]
    exact (h a List.mem_cons_self).append (.flatMap fun b hb => h b (List.mem_cons_of_mem _ hb))

/-- Brackets around a text that is level inside them. -/
theorem IsLevel.enclosed {depth : Nat} (opening closing : Char) {content : List Char}
    (hopening : isOpening opening = true) (hclosing : isClosing closing = true)
    (h : IsLevel (depth + 1) content) : IsLevel depth (opening :: content ++ [closing]) := by
  have hopen : depthBehind depth opening = some (depth + 1) := by
    rw [depthBehind.eq_def, if_pos hopening]
  have hclose : depthBehind (depth + 1) closing = some depth := by
    rw [depthBehind.eq_def, if_neg, if_pos hclosing]
    exact fun ho => absurd hclosing (by simp [isClosing_of_isOpening closing ho])
  rw [IsLevel, List.foldlM_append, List.foldlM_cons, hopen]
  show (content.foldlM depthBehind (depth + 1)).bind _ = _
  rw [h]
  simp [hclose]

/-! ## Braces -/

/-- The depth of braces behind a character. -/
def braceBehind : Nat → Char → Option Nat := nest (· == '\x7b') (· == '\x7d')

theorem foldlM_braceBehind_plain {depth : Nat} : ∀ {cs : List Char},
    (∀ c ∈ cs, c ≠ '\x7b' ∧ c ≠ '\x7d') → cs.foldlM braceBehind depth = some depth
  | [], _ => rfl
  | c :: cs, h => by
    obtain ⟨⟨hopen, hclose⟩, hcs⟩ := List.forall_mem_cons.1 h
    have hstep : braceBehind depth c = some depth := by
      rw [braceBehind, nest.eq_def, if_neg (by simpa using hopen), if_neg (by simpa using hclose)]
    rw [List.foldlM_cons, hstep]
    exact foldlM_braceBehind_plain hcs

/-- Every character but one that closes the innermost brace is part of its content. -/
theorem closeBrace?_cons {c : Char} {cs : List Char} {depth inner : Nat}
    (h : braceBehind depth c = some inner) : TableSegment.closeBrace? depth (c :: cs) =
      (TableSegment.closeBrace? inner cs).map fun (content, behind) => (c :: content, behind) := by
  rw [braceBehind, nest.eq_def] at h
  rw [TableSegment.closeBrace?.eq_def]
  simp only [beq_iff_eq] at h ⊢
  split at h
  · rename_i hopen
    rw [if_pos hopen, Option.some.inj h]
  · rename_i hopen
    rw [if_neg hopen]
    split at h
    · rename_i hclose
      rw [if_pos hclose]
      cases depth with
      | zero => simp at h
      | succ outer => rw [← Option.some.inj h]
    · rename_i hclose
      rw [if_neg hclose, Option.some.inj h]

theorem closeBrace?_zero (cs : List Char) :
    TableSegment.closeBrace? 0 ('\x7d' :: cs) = some ([], cs) := by
  rw [TableSegment.closeBrace?.eq_def]
  simp

theorem braceBehind_eq_none {depth : Nat} {c : Char} (h : braceBehind depth c = none) :
    c = '\x7d' ∧ depth = 0 := by
  rw [braceBehind, nest.eq_def] at h
  split at h
  · simp at h
  · split at h
    · rename_i hclose
      cases depth with
      | zero => exact ⟨by simpa using hclose, rfl⟩
      | succ outer => simp at h
    · simp at h

/-- A brace is closed by the first one behind a text in which the braces pair up. -/
theorem closeBrace?_eq_some_iff : ∀ {cs content behind : List Char} {depth : Nat},
    TableSegment.closeBrace? depth cs = some (content, behind) ↔
      cs = content ++ '\x7d' :: behind ∧ content.foldlM braceBehind depth = some 0
  | [], content, behind, depth => by simp [TableSegment.closeBrace?]
  | c :: cs, content, behind, depth => by
    cases hstep : braceBehind depth c with
    | none =>
      obtain ⟨rfl, rfl⟩ := braceBehind_eq_none hstep
      rw [closeBrace?_zero]
      constructor
      · intro h
        obtain ⟨rfl, rfl⟩ := Prod.mk.inj (Option.some.inj h)
        exact ⟨rfl, rfl⟩
      · rintro ⟨hcs, hfold⟩
        cases content with
        | nil =>
          obtain ⟨-, rfl⟩ := List.cons.inj hcs
          rfl
        | cons first content =>
          -- the content cannot begin with the brace that closes it
          obtain ⟨rfl, -⟩ := List.cons.inj hcs
          simp [List.foldlM_cons, hstep] at hfold
    | some inner =>
      rw [closeBrace?_cons hstep]
      constructor
      · intro h
        obtain ⟨⟨more, rest⟩, hmore, hcs⟩ := Option.map_eq_some_iff.1 h
        obtain ⟨rfl, rfl⟩ := Prod.mk.inj hcs
        obtain ⟨rfl, hfold⟩ := closeBrace?_eq_some_iff.1 hmore
        exact ⟨rfl, by rw [List.foldlM_cons, hstep]; exact hfold⟩
      · rintro ⟨hcs, hfold⟩
        cases content with
        | nil =>
          obtain ⟨rfl, -⟩ := List.cons.inj hcs
          obtain rfl : depth = 0 := by simpa using hfold
          simp [braceBehind, nest] at hstep
        | cons first content =>
          obtain ⟨hc, hrest⟩ := List.cons.inj hcs
          rw [← hc, List.foldlM_cons, hstep] at hfold
          rw [closeBrace?_eq_some_iff.2 ⟨hrest, hfold⟩, hc]
          rfl

end FeatureStore
