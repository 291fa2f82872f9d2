import FeatureStore.Json.Reader
import FeatureStore.Proofs.Path.Scanning

/-!
# Brackets of JSON texts

How the brackets of a text stand that is a document. The tokens of a document open and close arrays
and objects in turn: a token changes the number of open ones as its bracket says
(`Json.weight_readStep?`), so the brackets of all tokens pair up. Outside strings the brackets of a
text are those of its tokens (`Json.foldlM_nest_lexFrom?`), so they pair up in a text without
brackets in strings (`Json.paired_of_ofChars?`). A document is complete where it ends: with a
closing brace behind it, a text is none, whatever follows (`Json.ofChars?_append_closeBrace`).
-/

set_option autoImplicit false

namespace FeatureStore.Json

/-! ## Brackets of tokens -/

/-- The bracket or brace of a token. -/
def Token.mark? : Token → Option Char
  | .openBracket => some '['
  | .closeBracket => some ']'
  | .openBrace => some '\x7b'
  | .closeBrace => some '\x7d'
  | _ => none

/-- The brackets and braces of some tokens. -/
def marks (tokens : List Token) : List Char := tokens.filterMap Token.mark?

/-- A bracket or brace. -/
def isBracket (c : Char) : Bool := isOpening c || isClosing c

/-- Inside a string. -/
def LexState.isQuoted : LexState → Bool
  | .quoted _ => true
  | .escape _ => true
  | .code _ _ _ => true
  | _ => false

/-- The characters of a text that are read inside strings, the closing quotes among them. -/
def quotedFrom (state : LexState) : List Char → List Char
  | [] => []
  | c :: rest =>
    match lexStep? state c with
    | none => []
    | some (next, _) => (if state.isQuoted then [c] else []) ++ quotedFrom next rest

/-- The characters of a text that are read inside strings. -/
def quotedChars (text : List Char) : List Char := quotedFrom .between text

/-- Marks that open and close either kind of containers, or only objects. -/
structure Brackets (opens closes : Char → Bool) : Prop where
  opens_bracket : ∀ c, opens c = true → isOpening c = true
  closes_bracket : ∀ c, closes c = true → isClosing c = true
  arrays : opens '[' = closes ']'
  objects : opens '\x7b' = closes '\x7d'

theorem brackets_all : Brackets isOpening isClosing := ⟨fun _ => id, fun _ => id, rfl, rfl⟩

theorem brackets_braces : Brackets (· == '\x7b') (· == '\x7d') := by
  constructor
  · intro c hc
    rw [beq_iff_eq] at hc
    rw [hc]
    decide
  · intro c hc
    rw [beq_iff_eq] at hc
    rw [hc]
    decide
  · decide
  · decide

section Brackets

variable {opens closes : Char → Bool}

theorem Brackets.separate (h : Brackets opens closes) (c : Char) (hc : opens c = true) :
    closes c = false := by
  rw [← Bool.not_eq_true]
  intro hcloses
  have hclosing := h.closes_bracket c hcloses
  rw [isClosing_of_isOpening c (h.opens_bracket c hc)] at hclosing
  exact absurd hclosing (by decide)

/-- Any other character leaves the depth as it was. -/
theorem Brackets.nest_of_not_bracket (h : Brackets opens closes) {c : Char}
    (hc : isBracket c = false) (depth : Nat) : nest opens closes depth c = some depth := by
  rw [isBracket, Bool.or_eq_false_iff] at hc
  rw [nest.eq_def, if_neg fun ho => by simp [h.opens_bracket c ho] at hc,
    if_neg fun ho => by simp [h.closes_bracket c ho] at hc]

/-- Each kind of container is counted where it opens and where it closes. -/
theorem Brackets.ends (h : Brackets opens closes) : closes '[' = false ∧ closes '\x7b' = false ∧
    opens ']' = false ∧ opens '\x7d' = false ∧ closes ']' = opens '[' ∧
      closes '\x7d' = opens '\x7b' := by
  refine ⟨?_, ?_, ?_, ?_, h.arrays.symm, h.objects.symm⟩
  · exact Bool.eq_false_iff.2 fun hc => absurd (h.closes_bracket _ hc) (by decide)
  · exact Bool.eq_false_iff.2 fun hc => absurd (h.closes_bracket _ hc) (by decide)
  · exact Bool.eq_false_iff.2 fun ho => absurd (h.opens_bracket _ ho) (by decide)
  · exact Bool.eq_false_iff.2 fun ho => absurd (h.opens_bracket _ ho) (by decide)

/-! ## Reading tokens -/

/-- An open array or object, if it is counted. -/
def Frame.weight (opens : Char → Bool) : Frame → Nat
  | .array _ => ['['].countP opens
  | .object _ _ => ['\x7b'].countP opens

/-- The open containers that are counted. -/
def framesWeight (opens : Char → Bool) : List Frame → Nat
  | [] => 0
  | frame :: frames => frame.weight opens + framesWeight opens frames

/-- The innermost open container where something else than a value is due, if it is counted. -/
def Expected.weight (opens : Char → Bool) : Expected → Nat
  | .value => 0
  | .firstItem => ['['].countP opens
  | .firstKey => ['\x7b'].countP opens
  | .key _ => ['\x7b'].countP opens
  | .colon _ _ => ['\x7b'].countP opens
  | .afterItem _ => ['['].countP opens
  | .afterField _ => ['\x7b'].countP opens
  | .nothing _ => 0

/-- The number of open containers that are counted. -/
def ReadState.weight (opens : Char → Bool) (state : ReadState) : Nat :=
  framesWeight opens state.frames + state.expected.weight opens

theorem weight_deliver (value : Json) (frames : List Frame) :
    (deliver value frames).weight opens = framesWeight opens frames := by
  match frames with
  | [] => rfl
  | .array items :: frames => exact Nat.add_comm _ _
  | .object fields key :: frames => exact Nat.add_comm _ _

theorem weight_deliverContainer (value : Json) (frames : List Frame) :
    (deliverContainer value frames).weight opens = framesWeight opens frames :=
  weight_deliver _ frames

/-- The start of a value opens what its token says. -/
theorem weight_beginValue? (h : Brackets opens closes) {frames : List Frame} {token : Token}
    {next : ReadState} (hnext : beginValue? frames token = some next) :
    next.weight opens + token.mark?.toList.countP closes =
      framesWeight opens frames + token.mark?.toList.countP opens := by
  obtain ⟨harray, hobject, -, -, -, -⟩ := h.ends
  cases token with
  | scalar value =>
    obtain rfl := Option.some.inj hnext
    exact weight_deliver value frames
  | text value =>
    obtain rfl := Option.some.inj hnext
    exact weight_deliver _ frames
  | openBracket =>
    obtain rfl := Option.some.inj hnext
    simp [ReadState.weight, Expected.weight, Token.mark?, harray]
  | openBrace =>
    obtain rfl := Option.some.inj hnext
    simp [ReadState.weight, Expected.weight, Token.mark?, hobject]
  | closeBracket => cases hnext
  | closeBrace => cases hnext
  | comma => cases hnext
  | colon => cases hnext

/-- The bracket that ends an array closes what the array opened. -/
theorem weight_closesArray (h : Brackets opens closes) (value : Json) (frames : List Frame) :
    (deliverContainer value frames).weight opens + [']'].countP closes =
      framesWeight opens frames + ['['].countP opens + [']'].countP opens := by
  obtain ⟨-, -, hopens, -, hcloses, -⟩ := h.ends
  rw [weight_deliverContainer]
  simp [hopens, hcloses]

/-- The brace that ends an object closes what the object opened. -/
theorem weight_closesObject (h : Brackets opens closes) (value : Json) (frames : List Frame) :
    (deliverContainer value frames).weight opens + ['\x7d'].countP closes =
      framesWeight opens frames + ['\x7b'].countP opens + ['\x7d'].countP opens := by
  obtain ⟨-, -, -, hopens, -, hcloses⟩ := h.ends
  rw [weight_deliverContainer]
  simp [hopens, hcloses]

/-- A token changes the number of open containers as its bracket says. -/
theorem weight_readStep? (h : Brackets opens closes) {state next : ReadState} {token : Token} :
    readStep? state token = some next → next.weight opens + token.mark?.toList.countP closes =
      state.weight opens + token.mark?.toList.countP opens := by
  rcases state with ⟨frames, expected⟩
  fun_cases readStep? ⟨frames, expected⟩ token with
  | case1 token hexpected =>
    obtain rfl : expected = .value := hexpected
    exact weight_beginValue? h
  | case2 hexpected =>
    obtain rfl : expected = .firstItem := hexpected
    rintro ⟨⟩
    exact weight_closesArray h _ frames
  | case3 token _ hexpected =>
    -- the first item stands in an array without items
    obtain rfl : expected = .firstItem := hexpected
    intro hnext
    rw [weight_beginValue? h hnext]
    simp only [framesWeight, Frame.weight, ReadState.weight, Expected.weight]
    omega
  | case4 hexpected =>
    obtain rfl : expected = .firstKey := hexpected
    rintro ⟨⟩
    exact weight_closesObject h _ frames
  | case5 key hexpected =>
    obtain rfl : expected = .firstKey := hexpected
    rintro ⟨⟩
    rfl
  | case6 fields key hexpected =>
    obtain rfl : expected = .key fields := hexpected
    rintro ⟨⟩
    rfl
  | case7 fields key hexpected =>
    obtain rfl : expected = .colon fields key := hexpected
    rintro ⟨⟩
    simp only [ReadState.weight, framesWeight, Frame.weight, Expected.weight, Token.mark?,
      Option.toList_none, List.countP_nil]
    omega
  | case8 items hexpected =>
    obtain rfl : expected = .afterItem items := hexpected
    rintro ⟨⟩
    simp only [ReadState.weight, framesWeight, Frame.weight, Expected.weight, Token.mark?,
      Option.toList_none, List.countP_nil]
    omega
  | case9 items hexpected =>
    obtain rfl : expected = .afterItem items := hexpected
    rintro ⟨⟩
    exact weight_closesArray h _ frames
  | case10 fields hexpected =>
    obtain rfl : expected = .afterField fields := hexpected
    rintro ⟨⟩
    rfl
  | case11 fields hexpected =>
    obtain rfl : expected = .afterField fields := hexpected
    rintro ⟨⟩
    exact weight_closesObject h _ frames
  | case12 =>
    rintro ⟨⟩

/-- The brackets of tokens that are read change the depth by the containers that they leave
open. -/
theorem foldlM_nest_marks (h : Brackets opens closes) (around : Nat) :
    ∀ {tokens : List Token} {state last : ReadState}, readTokens? state tokens = some last →
      (marks tokens).foldlM (nest opens closes) (state.weight opens + around) =
        some (last.weight opens + around)
  | [], state, last, hread => by
    obtain rfl := Option.some.inj hread
    rfl
  | token :: tokens, state, last, hread => by
    obtain ⟨next, hnext, hrest⟩ := Option.bind_eq_some_iff.1 hread
    have hstep := weight_readStep? h hnext
    have hmarks : marks (token :: tokens) = token.mark?.toList ++ marks tokens := by
      rw [marks, List.filterMap_cons]
      cases token.mark? <;> rfl
    have hfirst : token.mark?.toList.foldlM (nest opens closes) (state.weight opens + around) =
        some (next.weight opens + around) := by
      -- a token without a bracket keeps the weight, and a bracket changes it as it nests
      cases hmark : token.mark? with
      | none =>
        rw [hmark] at hstep
        simp only [Option.toList_none, List.countP_nil, Nat.add_zero] at hstep
        rw [hstep]
        rfl
      | some c =>
        rw [hmark] at hstep
        simp only [Option.toList_some] at hstep
        rw [Option.toList_some, List.foldlM_cons,
          (nest_eq_some_iff h.separate).2
            (show next.weight opens + around + _ = state.weight opens + around + _ by omega)]
        rfl
    rw [hmarks, List.foldlM_append, hfirst]
    exact foldlM_nest_marks h around hrest

end Brackets

/-! ## Reading characters -/

section Lexing

variable {opens closes : Char → Bool}

theorem isBracket_of_isAlphanum {c : Char} (h : c.isAlphanum = true) : isBracket c = false := by
  have hmark : isPathMark c = false :=
    isPathMark_of_isIdentifierChar (by simp [isIdentifierChar, h])
  rw [isPathMark, Bool.or_eq_false_iff] at hmark
  exact hmark.1

/-- A token without a bracket leaves the depth as it was, as a character does that is none. -/
theorem Brackets.foldlM_marks_nil (h : Brackets opens closes) {c : Char} (hc : isBracket c = false)
    {tokens : List Token} (htokens : marks tokens = []) (depth : Nat) :
    (marks tokens).foldlM (nest opens closes) depth = nest opens closes depth c := by
  rw [htokens, h.nest_of_not_bracket hc]
  rfl

/-- A character between tokens is the bracket of its token, or neither is one. -/
theorem marks_beginToken? {c : Char} {state : LexState} {tokens : List Token} :
    beginToken? c = some (state, tokens) →
      marks tokens = [c] ∨ isBracket c = false ∧ marks tokens = [] := by
  fun_cases beginToken? c with
  | case1 hblank =>
    rintro ⟨⟩
    refine .inr ⟨?_, rfl⟩
    rcases hblank with rfl | rfl | rfl | rfl <;> decide
  | case2 _ hc =>
    -- this case and the next three are the brackets
    rintro ⟨⟩
    exact .inl (by rw [hc]; rfl)
  | case3 _ _ hc =>
    rintro ⟨⟩
    exact .inl (by rw [hc]; rfl)
  | case4 _ _ _ hc =>
    rintro ⟨⟩
    exact .inl (by rw [hc]; rfl)
  | case5 _ _ _ _ hc =>
    rintro ⟨⟩
    exact .inl (by rw [hc]; rfl)
  | case6 _ _ _ _ _ hc =>
    rintro ⟨⟩
    exact .inr ⟨by rw [hc]; decide, rfl⟩
  | case7 _ _ _ _ _ _ hc =>
    rintro ⟨⟩
    exact .inr ⟨by rw [hc]; decide, rfl⟩
  | case8 _ _ _ _ _ _ _ hc =>
    rintro ⟨⟩
    exact .inr ⟨by rw [hc]; decide, rfl⟩
  | case9 _ _ _ _ _ _ _ _ hnumber =>
    rintro ⟨⟩
    refine .inr ⟨?_, rfl⟩
    rcases hnumber with rfl | hdigit
    · decide
    · exact isBracket_of_isAlphanum (by simp [Char.isAlphanum, hdigit])
  | case10 _ _ _ _ _ _ _ _ _ hword =>
    rintro ⟨⟩
    exact .inr ⟨isBracket_of_isAlphanum (by simp [Char.isAlphanum, hword]), rfl⟩
  | case11 => rintro ⟨⟩

theorem foldlM_nest_beginToken? (h : Brackets opens closes) {c : Char} {state : LexState}
    {tokens : List Token} (hstep : beginToken? c = some (state, tokens)) (depth : Nat) :
    (marks tokens).foldlM (nest opens closes) depth = nest opens closes depth c := by
  rcases marks_beginToken? hstep with hmarks | ⟨hc, hmarks⟩
  · rw [hmarks]
    simp
  · exact h.foldlM_marks_nil hc hmarks depth

/-- A word or number that a character ends is no bracket, so only the character counts. -/
theorem foldlM_nest_ended (h : Brackets opens closes) {c : Char} {value : Option Json}
    {next : LexState} {tokens : List Token}
    (hstep : (do
      let known ← value
      let (state, more) ← beginToken? c
      return (state, Token.scalar known :: more)) = some (next, tokens)) (depth : Nat) :
    (marks tokens).foldlM (nest opens closes) depth = nest opens closes depth c := by
  obtain ⟨known, -, hstep⟩ := Option.bind_eq_some_iff.1 hstep
  obtain ⟨⟨state, more⟩, hbegin, hstep⟩ := Option.bind_eq_some_iff.1 hstep
  obtain ⟨-, rfl⟩ := Prod.mk.inj (Option.some.inj hstep)
  exact foldlM_nest_beginToken? h hbegin depth

/-- A character outside strings adds the brackets of the tokens that it completes. -/
theorem foldlM_nest_lexStep? (h : Brackets opens closes) {c : Char} {state next : LexState}
    {tokens : List Token} (hstep : lexStep? state c = some (next, tokens))
    (hquoted : state.isQuoted = true → isBracket c = false) (depth : Nat) :
    (marks tokens).foldlM (nest opens closes) depth = nest opens closes depth c := by
  cases state with
  | between => exact foldlM_nest_beginToken? h hstep depth
  | word letters =>
    -- a word or a number goes on, or ends in front of the next token
    rw [lexStep?] at hstep
    split_ifs at hstep with halpha
    · obtain ⟨-, rfl⟩ := Prod.mk.inj (Option.some.inj hstep)
      exact h.foldlM_marks_nil (isBracket_of_isAlphanum (by simp [Char.isAlphanum, halpha])) rfl
        depth
    · exact foldlM_nest_ended h hstep depth
  | number chars =>
    rw [lexStep?] at hstep
    split_ifs at hstep with hnumber
    · obtain ⟨-, rfl⟩ := Prod.mk.inj (Option.some.inj hstep)
      refine h.foldlM_marks_nil ?_ rfl depth
      simp only [continuesNumber, Bool.or_eq_true, beq_iff_eq] at hnumber
      rcases hnumber with ((((hdigit | rfl) | rfl) | rfl) | rfl) | rfl
      · exact isBracket_of_isAlphanum (by simp [Char.isAlphanum, hdigit])
      all_goals decide
    · exact foldlM_nest_ended h hstep depth
  | quoted units =>
    rw [lexStep?] at hstep
    split_ifs at hstep <;> obtain ⟨-, rfl⟩ := Prod.mk.inj (Option.some.inj hstep) <;>
      exact h.foldlM_marks_nil (hquoted rfl) rfl depth
  | escape units =>
    rw [lexStep?] at hstep
    split_ifs at hstep
    · obtain ⟨-, rfl⟩ := Prod.mk.inj (Option.some.inj hstep)
      exact h.foldlM_marks_nil (hquoted rfl) rfl depth
    · obtain ⟨_, -, hstep⟩ := Option.map_eq_some_iff.1 hstep
      obtain ⟨-, rfl⟩ := Prod.mk.inj hstep
      exact h.foldlM_marks_nil (hquoted rfl) rfl depth
  | code units value left =>
    obtain ⟨_, -, hstep⟩ := Option.map_eq_some_iff.1 hstep
    obtain ⟨-, rfl⟩ := Prod.mk.inj hstep
    exact h.foldlM_marks_nil (hquoted rfl) rfl depth

/-- The tokens of a text are those that its first character completes, and those behind it. -/
theorem lexFrom?_cons_iff {c : Char} {rest : List Char} {state : LexState} {all : List Token} :
    lexFrom? state (c :: rest) = some all ↔ ∃ next tokens more,
      lexStep? state c = some (next, tokens) ∧ lexFrom? next rest = some more ∧
        tokens ++ more = all := by
  rw [lexFrom?]
  constructor
  · intro h
    obtain ⟨⟨next, tokens⟩, hstep, h⟩ := Option.bind_eq_some_iff.1 h
    obtain ⟨more, hmore, h⟩ := Option.bind_eq_some_iff.1 h
    exact ⟨next, tokens, more, hstep, hmore, Option.some.inj h⟩
  · rintro ⟨next, tokens, more, hstep, hmore, rfl⟩
    rw [hstep]
    exact Option.bind_eq_some_iff.2
      ⟨(next, tokens), rfl, Option.bind_eq_some_iff.2 ⟨more, hmore, rfl⟩⟩

theorem marks_of_lexEnd? {state : LexState} {tokens : List Token}
    (h : lexEnd? state = some tokens) : marks tokens = [] := by
  cases state with
  | between => rw [← Option.some.inj h]; rfl
  | word letters =>
    obtain ⟨value, -, rfl⟩ := Option.map_eq_some_iff.1 h
    rfl
  | number chars =>
    obtain ⟨value, -, rfl⟩ := Option.map_eq_some_iff.1 h
    rfl
  | quoted units => simp [lexEnd?] at h
  | escape units => simp [lexEnd?] at h
  | code units value left => simp [lexEnd?] at h

/-- The brackets of a text outside strings are those of its tokens. -/
theorem foldlM_nest_lexFrom? (h : Brackets opens closes) : ∀ {text : List Char} {state : LexState}
    {tokens : List Token}, lexFrom? state text = some tokens →
      (∀ c ∈ quotedFrom state text, isBracket c = false) → ∀ depth,
        text.foldlM (nest opens closes) depth = (marks tokens).foldlM (nest opens closes) depth
  | [], state, tokens, hlex, _, depth => by
    rw [lexFrom?] at hlex
    rw [marks_of_lexEnd? hlex]
  | c :: rest, state, tokens, hlex, hquoted, depth => by
    obtain ⟨next, completed, more, hstep, hmore, rfl⟩ := lexFrom?_cons_iff.1 hlex
    rw [quotedFrom, hstep] at hquoted
    obtain ⟨hfirst, hrest⟩ := List.forall_mem_append.1 hquoted
    have hc : state.isQuoted = true → isBracket c = false := fun hq => hfirst c (by simp [hq])
    have hmarks : marks (completed ++ more) = marks completed ++ marks more := List.filterMap_append
    rw [hmarks, List.foldlM_append, foldlM_nest_lexStep? h hstep hc, List.foldlM_cons]
    exact congrArg (Option.bind _) (funext fun inner => foldlM_nest_lexFrom? h hmore hrest inner)

end Lexing

/-! ## Documents -/

/-- Nothing is expected only where no container is open. -/
def ReadState.IsClosed (state : ReadState) : Prop :=
  ∀ document, state.expected = .nothing document → state.frames = []

theorem isClosed_deliver (value : Json) : ∀ frames, (deliver value frames).IsClosed
  | [], _, _ => rfl
  | .array _ :: _, _, h => by simp [deliver] at h
  | .object _ _ :: _, _, h => by simp [deliver] at h

theorem isClosed_beginValue? {frames : List Frame} {token : Token} {next : ReadState}
    (h : beginValue? frames token = some next) : next.IsClosed := by
  unfold beginValue? at h
  split at h
  · obtain rfl := Option.some.inj h
    exact isClosed_deliver _ _
  · obtain rfl := Option.some.inj h
    exact isClosed_deliver _ _
  · obtain rfl := Option.some.inj h
    simp [ReadState.IsClosed]
  · obtain rfl := Option.some.inj h
    simp [ReadState.IsClosed]
  · simp at h

theorem isClosed_readStep? {state next : ReadState} {token : Token}
    (h : readStep? state token = some next) : next.IsClosed := by
  unfold readStep? at h
  split at h <;> first
    | exact isClosed_beginValue? h
    | (obtain rfl := Option.some.inj h
       first
         | exact isClosed_deliver _ _
         | simp [ReadState.IsClosed])
    | simp at h

theorem isClosed_readTokens? : ∀ {tokens : List Token} {state last : ReadState}, state.IsClosed →
    readTokens? state tokens = some last → last.IsClosed
  | [], _, _, hstate, h => by
    obtain rfl := Option.some.inj h
    exact hstate
  | token :: tokens, state, last, _, h => by
    obtain ⟨next, hnext, hrest⟩ := Option.bind_eq_some_iff.1 h
    exact isClosed_readTokens? (isClosed_readStep? hnext) hrest

/-- Before the first token of a document. -/
def ReadState.start : ReadState := ⟨[], .value⟩

/-- Behind the tokens of a document nothing is open or expected. -/
theorem ofTokens?_eq_some_iff {tokens : List Token} {document : Json} :
    ofTokens? tokens = some document ↔
      readTokens? .start tokens = some ⟨[], .nothing document⟩ := by
  rw [ofTokens?]
  constructor
  · intro h
    split at h
    · rename_i frames found hread
      obtain rfl := Option.some.inj h
      have hclosed : (⟨frames, .nothing found⟩ : ReadState).IsClosed :=
        isClosed_readTokens? (by simp [ReadState.IsClosed]) hread
      obtain rfl : frames = [] := hclosed found rfl
      exact hread
    · simp at h
  · intro h
    rw [ReadState.start] at h
    rw [h]

/-- In a document without brackets in strings the brackets pair up. -/
theorem paired_of_ofChars? {opens closes : Char → Bool} (h : Brackets opens closes)
    {text : List Char} {document : Json} (hread : ofChars? text = some document)
    (hquoted : ∀ c ∈ quotedChars text, isBracket c = false) : Paired opens closes 0 text := by
  obtain ⟨tokens, htokens, hdocument⟩ := Option.bind_eq_some_iff.1 hread
  rw [← foldlM_nest_iff_paired h.separate, foldlM_nest_lexFrom? h htokens hquoted]
  exact foldlM_nest_marks h 0 (ofTokens?_eq_some_iff.1 hdocument)

theorem readTokens?_append (a b : List Token) (state : ReadState) :
    readTokens? state (a ++ b) = (readTokens? state a).bind fun next => readTokens? next b := by
  induction a generalizing state with
  | nil => rfl
  | cons token a ih =>
    rw [List.cons_append, readTokens?, readTokens?, Option.bind_assoc]
    exact congrArg (Option.bind _) (funext ih)

/-- A closing brace ends the token before it as the end of a text does. -/
theorem lexStep?_closeBrace {state : LexState} {tokens : List Token}
    (h : lexEnd? state = some tokens) :
    lexStep? state '\x7d' = some (.between, tokens ++ [.closeBrace]) := by
  have hbegin : beginToken? '\x7d' = some (.between, [.closeBrace]) := rfl
  cases state with
  | between =>
    obtain rfl := Option.some.inj h
    exact hbegin
  | word letters =>
    obtain ⟨value, hvalue, rfl⟩ := Option.map_eq_some_iff.1 h
    rw [lexStep?, if_neg (by decide), hvalue, hbegin]
    rfl
  | number chars =>
    obtain ⟨value, hvalue, rfl⟩ := Option.map_eq_some_iff.1 h
    rw [lexStep?, if_neg (by decide), hvalue, hbegin]
    rfl
  | quoted units => simp [lexEnd?] at h
  | escape units => simp [lexEnd?] at h
  | code units value left => simp [lexEnd?] at h

/-- Behind a text that is cut into tokens, a closing brace is the next one. -/
theorem lexFrom?_append_closeBrace : ∀ {text behind : List Char} {state : LexState}
    {tokens all : List Token}, lexFrom? state text = some tokens →
      lexFrom? state (text ++ '\x7d' :: behind) = some all →
        ∃ more, all = tokens ++ .closeBrace :: more
  | [], behind, state, tokens, all, htokens, hall => by
    obtain ⟨next, completed, more, hstep, -, rfl⟩ := lexFrom?_cons_iff.1 hall
    rw [lexStep?_closeBrace htokens] at hstep
    obtain ⟨-, rfl⟩ := Prod.mk.inj (Option.some.inj hstep)
    exact ⟨more, by simp⟩
  | c :: text, behind, state, tokens, all, htokens, hall => by
    obtain ⟨next, completed, later, hstep, hlater, rfl⟩ := lexFrom?_cons_iff.1 htokens
    obtain ⟨next', completed', others, hstep', hothers, rfl⟩ := lexFrom?_cons_iff.1 hall
    rw [hstep] at hstep'
    obtain ⟨rfl, rfl⟩ := Prod.mk.inj (Option.some.inj hstep')
    obtain ⟨more, rfl⟩ := lexFrom?_append_closeBrace hlater hothers
    exact ⟨more, by simp⟩

/-- A document is complete where it ends: with a closing brace behind it, a text is none. -/
theorem ofChars?_append_closeBrace {text behind : List Char} {document : Json}
    (h : ofChars? text = some document) : ofChars? (text ++ '\x7d' :: behind) = none := by
  obtain ⟨tokens, htokens, hdocument⟩ := Option.bind_eq_some_iff.1 h
  rw [Option.eq_none_iff_forall_ne_some]
  intro other hother
  obtain ⟨all, hall, hread⟩ := Option.bind_eq_some_iff.1 hother
  obtain ⟨more, rfl⟩ := lexFrom?_append_closeBrace htokens hall
  have hafter := ofTokens?_eq_some_iff.1 hread
  rw [readTokens?_append, ofTokens?_eq_some_iff.1 hdocument] at hafter
  simp [readTokens?, readStep?] at hafter

end FeatureStore.Json
