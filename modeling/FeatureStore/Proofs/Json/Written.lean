import FeatureStore.Proofs.Json.Nesting
import FeatureStore.Proofs.Json.Numbers

/-!
# Documents behind their texts

What is read from the text of a document on one line. The text is cut into the tokens of the
document (`Json.readsAs_compact`), for every part of it and whatever stands behind that part, since
behind a value there is always a mark that ends its last token. The tokens are put together to the
document again, apart from containers that lie inside too many others, which come back as no data
(`Json.cut`). So the text of a document gives it back if no more than `Json.depthLimit` containers
lie inside each other in it, and otherwise a document with an unreadable part
(`Json.parse?_compact`, `Json.isReadable_cut`).
-/

set_option autoImplicit false

namespace FeatureStore.Json

/-! ## Reading tokens -/

section Lexing

variable {state next : LexState} {c : Char} {rest : List Char} {tokens : List Token}

theorem lexFrom?_cons (h : lexStep? state c = some (next, tokens)) :
    lexFrom? state (c :: rest) = (lexFrom? next rest).map (tokens ++ ·) := by
  rw [lexFrom?, h]
  show (lexFrom? next rest >>= _) = _
  cases lexFrom? next rest <;> rfl

/-- A character that completes no token. -/
theorem lexFrom?_silent (h : lexStep? state c = some (next, [])) :
    lexFrom? state (c :: rest) = lexFrom? next rest := by
  rw [lexFrom?_cons h]
  cases lexFrom? next rest <;> rfl

/-- What follows goes on with no word and no number. -/
def EndsToken (rest : List Char) : Prop :=
  ∀ c ∈ rest.head?, continuesNumber c = false ∧ c.isAlpha = false

theorem endsToken_nil : EndsToken [] := by
  intro c hc
  cases hc

theorem endsToken_cons (hnumber : continuesNumber c = false) (hword : c.isAlpha = false) :
    EndsToken (c :: rest) := by
  intro d hd
  obtain rfl := Option.some.inj hd
  exact ⟨hnumber, hword⟩

/-- A word or number under way ends where nothing goes on with it. -/
theorem lexFrom?_ended {value : Json} (hend : lexEnd? state = some [.scalar value])
    (hstep : ∀ c, continuesNumber c = false → c.isAlpha = false → lexStep? state c =
      (beginToken? c).map fun step => (step.1, .scalar value :: step.2))
    (hrest : EndsToken rest) :
    lexFrom? state rest = (lexFrom? .between rest).map (.scalar value :: ·) := by
  cases rest with
  | nil => rw [lexFrom?, hend]; rfl
  | cons c rest =>
    obtain ⟨hnumber, hword⟩ := hrest c rfl
    have hbetween : lexStep? .between c = beginToken? c := rfl
    have hnow := hstep c hnumber hword
    rw [lexFrom?, lexFrom?, hnow, hbetween]
    cases beginToken? c with
    | none => rfl
    | some step =>
      obtain ⟨next, tokens⟩ := step
      show (lexFrom? next rest >>= _) = Option.map _ (lexFrom? next rest >>= _)
      cases lexFrom? next rest <;> rfl

theorem lexFrom?_number_ended {chars : List Char} {value : Json}
    (h : readNumber? chars.reverse = some value) (hrest : EndsToken rest) :
    lexFrom? (.number chars) rest = (lexFrom? .between rest).map (.scalar value :: ·) := by
  refine lexFrom?_ended ?_ (fun c hnumber _ => ?_) hrest
  · rw [lexEnd?, h]
    rfl
  · rw [lexStep?, if_neg (by simp [hnumber]), h]
    cases beginToken? c <;> rfl

theorem lexFrom?_word_ended {letters : List Char} {value : Json}
    (h : readWord? letters.reverse = some value) (hrest : EndsToken rest) :
    lexFrom? (.word letters) rest = (lexFrom? .between rest).map (.scalar value :: ·) := by
  refine lexFrom?_ended ?_ (fun c _ hword => ?_) hrest
  · rw [lexEnd?, h]
    rfl
  · rw [lexStep?, if_neg (by simp [hword]), h]
    cases beginToken? c <;> rfl

theorem lexFrom?_number : ∀ {cs chars : List Char}, (∀ c ∈ cs, continuesNumber c = true) →
    lexFrom? (.number chars) (cs ++ rest) = lexFrom? (.number (cs.reverse ++ chars)) rest
  | [], _, _ => rfl
  | c :: cs, chars, h => by
    obtain ⟨hc, hcs⟩ := List.forall_mem_cons.1 h
    have hstep : lexStep? (.number chars) c = some (.number (c :: chars), []) := by
      rw [lexStep?, if_pos hc]
    rw [List.cons_append, lexFrom?_silent hstep, lexFrom?_number hcs]
    simp

theorem lexFrom?_word : ∀ {cs letters : List Char}, (∀ c ∈ cs, c.isAlpha = true) →
    lexFrom? (.word letters) (cs ++ rest) = lexFrom? (.word (cs.reverse ++ letters)) rest
  | [], _, _ => rfl
  | c :: cs, letters, h => by
    obtain ⟨hc, hcs⟩ := List.forall_mem_cons.1 h
    have hstep : lexStep? (.word letters) c = some (.word (c :: letters), []) := by
      rw [lexStep?, if_pos hc]
    rw [List.cons_append, lexFrom?_silent hstep, lexFrom?_word hcs]
    simp

end Lexing

/-- A text is cut into some tokens, whatever stands behind it. -/
def ReadsAs (text : List Char) (tokens : List Token) : Prop :=
  ∀ rest, EndsToken rest →
    lexFrom? .between (text ++ rest) = (lexFrom? .between rest).map (tokens ++ ·)

namespace ReadsAs

variable {a b : List Char} {s t : List Token}

theorem nil : ReadsAs [] [] := by
  intro rest _
  cases h : lexFrom? .between rest <;> simp [h]

theorem append (ha : ReadsAs a s) (hb : ReadsAs b t)
    (hends : ∀ rest, EndsToken rest → EndsToken (b ++ rest)) : ReadsAs (a ++ b) (s ++ t) := by
  intro rest hrest
  rw [List.append_assoc, ha _ (hends rest hrest), hb rest hrest, Option.map_map]
  congr 1
  funext more
  exact (List.append_assoc s t more).symm

/-- A punctuation mark in front of a text. -/
theorem mark (c : Char) (token : Token)
    (hc : lexStep? .between c = some (.between, [token])) (ha : ReadsAs a s) :
    ReadsAs (c :: a) (token :: s) := by
  intro rest hrest
  rw [List.cons_append, lexFrom?_cons hc, ha rest hrest, Option.map_map]
  rfl

/-- A text and a punctuation mark behind it. -/
theorem concat (c : Char) (token : Token) (hc : lexStep? .between c = some (.between, [token]))
    (hnumber : continuesNumber c = false) (hword : c.isAlpha = false) (ha : ReadsAs a s) :
    ReadsAs (a ++ [c]) (s ++ [token]) :=
  ha.append (mark c token hc nil) fun _ _ => endsToken_cons hnumber hword

/-- A number token. -/
theorem number {token : List Char} {value : Json} (h : readNumber? token = some value) :
    ReadsAs token [.scalar value] := by
  obtain ⟨⟨c, cs, rfl, hc⟩, hall⟩ := isNumberToken_of_readNumber? h
  have hbegin : lexStep? .between c = some (.number [c], []) := by
    rcases hc with rfl | hc
    · rfl
    · have hne : ∀ mark : Char, mark.isDigit = false → c ≠ mark := by
        rintro mark hmark rfl
        rw [hc] at hmark
        cases hmark
      simp [lexStep?, beginToken?, hc, hne ' ' rfl, hne '\t' rfl, hne '\n' rfl, hne '\r' rfl,
        hne '[' rfl, hne ']' rfl, hne '\x7b' rfl, hne '\x7d' rfl, hne ',' rfl, hne ':' rfl,
        hne '"' rfl]
  intro rest hrest
  have hcs : ∀ d ∈ cs, continuesNumber d = true := (List.forall_mem_cons.1 hall).2
  rw [List.cons_append, lexFrom?_silent hbegin, lexFrom?_number hcs]
  refine lexFrom?_number_ended ?_ hrest
  simpa using h

/-- A word. -/
theorem word (c : Char) (letters : List Char) {value : Json}
    (hbegin : lexStep? .between c = some (.word [c], [])) (hall : letters.all Char.isAlpha = true)
    (h : readWord? (c :: letters) = some value) : ReadsAs (c :: letters) [.scalar value] := by
  intro rest hrest
  rw [List.cons_append, lexFrom?_silent hbegin, lexFrom?_word (List.all_eq_true.1 hall)]
  refine lexFrom?_word_ended ?_ hrest
  simpa using h

/-- Texts with commas between them. -/
theorem intercalate : ∀ {parts : List (List Char)} {tokens : List (List Token)},
    List.Forall₂ ReadsAs parts tokens →
      ReadsAs ([','].intercalate parts) ([Token.comma].intercalate tokens)
  | _, _, .nil => nil
  | _, _, .cons h .nil => by
    rw [List.intercalate_singleton, List.intercalate_singleton]
    exact h
  | _, _, .cons h (.cons hnext hrest) => by
    rw [List.intercalate_cons_cons, List.intercalate_cons_cons]
    have hbehind := mark ',' .comma rfl (intercalate (.cons hnext hrest))
    have hwhole := h.append hbehind fun _ _ => endsToken_cons (by decide) (by decide)
    rw [List.append_assoc, List.append_assoc]
    exact hwhole

end ReadsAs

/-! ## Strings -/

theorem hexValue?_hexDigit : ∀ n, n < 16 → hexValue? (hexDigit n) = some n := by
  decide

/-- A character in a string is written by a letter behind a backslash, by its number, or by
itself. -/
theorem escapeChar_cases (c : Char) :
    (∃ letter, letter ≠ 'u' ∧ shortEscape? letter = some c ∧ escapeChar c = ['\\', letter]) ∨
    (c.toNat < 0x20 ∧ escapeChar c =
      ['\\', 'u', '0', '0', hexDigit (c.toNat / 16), hexDigit (c.toNat % 16)]) ∨
    (c ≠ '"' ∧ c ≠ '\\' ∧ ¬c.toNat < 0x20 ∧ escapeChar c = [c]) := by
  -- a short escape is a backslash and one letter
  have hletter : ∀ d letter : Char, c = d → letter ≠ 'u' → shortEscape? letter = some d →
      ∃ other, other ≠ 'u' ∧ shortEscape? other = some c ∧ ['\\', letter] = ['\\', other] := by
    rintro d letter rfl hne hshort
    exact ⟨letter, hne, hshort, rfl⟩
  rw [escapeChar]
  split
  · rename_i h
    exact .inl (hletter _ '"' h (by decide) rfl)
  split
  · rename_i h
    exact .inl (hletter _ '\\' h (by decide) rfl)
  split
  · rename_i h
    exact .inl (hletter _ 'n' h (by decide) rfl)
  split
  · rename_i h
    exact .inl (hletter _ 'r' h (by decide) rfl)
  split
  · rename_i h
    exact .inl (hletter _ 't' h (by decide) rfl)
  split
  · rename_i h
    exact .inl (hletter _ 'b' h (by decide) rfl)
  split
  · rename_i h
    exact .inl (hletter _ 'f' h (by decide) rfl)
  split
  · rename_i hcontrol
    exact .inr (.inl ⟨hcontrol, rfl⟩)
  · rename_i hquote hbackslash _ _ _ _ _ hcontrol
    exact .inr (.inr ⟨hquote, hbackslash, hcontrol, rfl⟩)

section Escapes

variable (units : List Nat) (rest : List Char)

theorem lexFrom?_shortEscape {letter c : Char} (hletter : letter ≠ 'u')
    (h : shortEscape? letter = some c) : lexFrom? (.quoted units) ('\\' :: letter :: rest) =
      lexFrom? (.quoted (c.toNat :: units)) rest := by
  have hbackslash : lexStep? (.quoted units) '\\' = some (.escape units, []) := rfl
  have hstep : lexStep? (.escape units) letter = some (.quoted (c.toNat :: units), []) := by
    rw [lexStep?, if_neg hletter, h]
    rfl
  rw [lexFrom?_silent hbackslash, lexFrom?_silent hstep]

/-- Two hexadecimal digits behind two zeros. -/
theorem lexFrom?_code {high low : Char} {m n : Nat} (hhigh : hexValue? high = some m)
    (hlow : hexValue? low = some n) :
    lexFrom? (.quoted units) ('\\' :: 'u' :: '0' :: '0' :: high :: low :: rest) =
      lexFrom? (.quoted ((16 * m + n) :: units)) rest := by
  have hbackslash : lexStep? (.quoted units) '\\' = some (.escape units, []) := rfl
  have hletter : lexStep? (.escape units) 'u' = some (.code units 0 4, []) := rfl
  have hfirst : lexStep? (.code units 0 4) '0' = some (.code units 0 3, []) := rfl
  have hsecond : lexStep? (.code units 0 3) '0' = some (.code units 0 2, []) := rfl
  have hthird : lexStep? (.code units 0 2) high = some (.code units m 1, []) := by
    rw [lexStep?, hhigh]
    simp
  have hlast : lexStep? (.code units m 1) low = some (.quoted ((16 * m + n) :: units), []) := by
    rw [lexStep?, hlow]
    rfl
  rw [lexFrom?_silent hbackslash, lexFrom?_silent hletter, lexFrom?_silent hfirst,
    lexFrom?_silent hsecond, lexFrom?_silent hthird, lexFrom?_silent hlast]

/-- A character in a string is read from what is written for it. -/
theorem lexFrom?_escapeChar (c : Char) : lexFrom? (.quoted units) (escapeChar c ++ rest) =
    lexFrom? (.quoted (c.toNat :: units)) rest := by
  rcases escapeChar_cases c with ⟨letter, hletter, hshort, heq⟩ | ⟨hcontrol, heq⟩ |
    ⟨hquote, hbackslash, hcontrol, heq⟩
  · rw [heq]
    exact lexFrom?_shortEscape units rest hletter hshort
  · have hnumber : 16 * (c.toNat / 16) + c.toNat % 16 = c.toNat := Nat.div_add_mod c.toNat 16
    have hcode := lexFrom?_code units rest (hexValue?_hexDigit (c.toNat / 16) (by omega))
      (hexValue?_hexDigit (c.toNat % 16) (by omega))
    rw [hnumber] at hcode
    rw [heq]
    exact hcode
  · have hstep : lexStep? (.quoted units) c = some (.quoted (c.toNat :: units), []) := by
      rw [lexStep?, if_neg hquote, if_neg hbackslash, if_neg hcontrol]
    rw [heq]
    exact lexFrom?_silent hstep

end Escapes

/-- The characters of a string are read one behind the other. -/
theorem lexFrom?_escaped (rest : List Char) : ∀ (cs : List Char) (units : List Nat),
    lexFrom? (.quoted units) (cs.flatMap escapeChar ++ rest) =
      lexFrom? (.quoted ((cs.map Char.toNat).reverse ++ units)) rest
  | [], _ => rfl
  | c :: cs, units => by
    rw [List.flatMap_cons, List.append_assoc, lexFrom?_escapeChar, lexFrom?_escaped rest cs]
    simp

/-- No character is half of a surrogate pair. -/
theorem isHalf_toNat (c : Char) : isHighHalf c.toNat = false ∧ isLowHalf c.toNat = false := by
  have hvalid : c.toNat < 0xD800 ∨ 0xDFFF < c.toNat ∧ c.toNat < 0x110000 := c.valid
  simp only [isHighHalf, isLowHalf, Bool.and_eq_false_iff, decide_eq_false_iff_not]
  omega

/-- Characters come back from their code units. -/
theorem decodeUnits?_toNat : ∀ cs : List Char, decodeUnits? (cs.map Char.toNat) = some cs
  | [] => rfl
  | [c] => by
    obtain ⟨hhigh, hlow⟩ := isHalf_toNat c
    simp [decodeUnits?, hhigh, hlow]
  | c :: d :: cs => by
    obtain ⟨hhigh, hlow⟩ := isHalf_toNat c
    have ih := decodeUnits?_toNat (d :: cs)
    rw [List.map_cons] at ih
    simp [decodeUnits?, hhigh, hlow, ih]

/-- A string is cut into its one token. -/
theorem readsAs_quote (s : String) : ReadsAs (quote s).toList [.text (some s)] := by
  intro rest hrest
  have hopen : lexStep? .between '"' = some (.quoted [], []) := rfl
  have hclose : ∀ units, lexStep? (.quoted units) '"' =
      some (.between, [.text ((decodeUnits? units.reverse).map String.ofList)]) := fun _ => rfl
  rw [quote, String.toList_ofList, List.cons_append, List.cons_append, List.append_assoc,
    lexFrom?_silent hopen, lexFrom?_escaped, List.cons_append, List.nil_append,
    lexFrom?_cons (hclose _), List.append_nil, List.reverse_reverse, decodeUnits?_toNat,
    Option.map_some, String.ofList_toList]

/-! ## Documents -/

mutual
/-- The tokens of a document. -/
def tokens : Json → List Token
  | .array items =>
    .openBracket :: ([Token.comma].intercalate (itemTokens items) ++ [.closeBracket])
  | .object fields =>
    .openBrace :: ([Token.comma].intercalate (fieldTokens fields) ++ [.closeBrace])
  | .string s => [.text (some s)]
  | value => [.scalar value]

/-- The tokens of the items of an array. -/
def itemTokens : List Json → List (List Token)
  | [] => []
  | item :: rest => item.tokens :: itemTokens rest

/-- The tokens of the fields of an object. -/
def fieldTokens : List (String × Json) → List (List Token)
  | [] => []
  | (key, value) :: rest => (.text (some key) :: .colon :: value.tokens) :: fieldTokens rest
end

mutual
/-- The text of a document stands for the document: it has no unreadable part, and its numbers read
back. -/
def IsWritable : Json → Prop
  | .unreadable => False
  | .null => True
  | .bool _ => True
  | .integer n => -(Nat.pow 2 63 : Int) ≤ n ∧ n < (Nat.pow 2 64 : Int)
  | .float x => x.ReadsBack
  | .string _ => True
  | .array items => ItemsWritable items
  | .object fields => FieldsWritable fields

/-- All items of an array are written for what they are. -/
def ItemsWritable : List Json → Prop
  | [] => True
  | item :: rest => item.IsWritable ∧ ItemsWritable rest

/-- The values of all fields of an object are written for what they are. -/
def FieldsWritable : List (String × Json) → Prop
  | [] => True
  | (_, value) :: rest => value.IsWritable ∧ FieldsWritable rest
end

mutual
/-- The text of a document is cut into its tokens. -/
theorem readsAs_compact : ∀ {json : Json}, json.IsWritable →
    ReadsAs json.compact.toList json.tokens
  | .unreadable, h => h.elim
  | .null, _ => .word 'n' ['u', 'l', 'l'] rfl rfl rfl
  | .bool true, _ => .word 't' ['r', 'u', 'e'] rfl rfl rfl
  | .bool false, _ => .word 'f' ['a', 'l', 's', 'e'] rfl rfl rfl
  | .integer n, h => .number (readNumber?_ofInt h.1 h.2)
  | .float x, h => by
    have hfinite := Binary64.isFinite_of_readsBack h
    rw [compact, scalarText, if_pos hfinite]
    · exact .number (Binary64.readNumber?_of_readsBack h)
    · simp
    · simp
  | .string s, _ => readsAs_quote s
  | .array items, h => by
    have hitems := ReadsAs.intercalate (readsAs_compactItems h)
    rw [compact, String.toList_append, String.toList_append, String.toList_intercalate]
    exact .mark '[' .openBracket rfl (hitems.concat ']' .closeBracket rfl (by decide) (by decide))
  | .object fields, h => by
    have hfields := ReadsAs.intercalate (readsAs_compactFields h)
    rw [compact, String.toList_append, String.toList_append, String.toList_intercalate]
    exact .mark '\x7b' .openBrace rfl
      (hfields.concat '\x7d' .closeBrace rfl (by decide) (by decide))

theorem readsAs_compactItems : ∀ {items : List Json}, ItemsWritable items →
    List.Forall₂ ReadsAs ((compactItems items).map String.toList) (itemTokens items)
  | [], _ => .nil
  | _ :: _, h => .cons (readsAs_compact h.1) (readsAs_compactItems h.2)

theorem readsAs_compactFields : ∀ {fields : List (String × Json)}, FieldsWritable fields →
    List.Forall₂ ReadsAs ((compactFields fields).map String.toList) (fieldTokens fields)
  | [], _ => .nil
  | (key, value) :: _, h => by
    refine .cons ?_ (readsAs_compactFields h.2)
    rw [String.toList_append, String.toList_append, List.append_assoc]
    have hvalue := ReadsAs.mark ':' .colon rfl (readsAs_compact h.1)
    exact (readsAs_quote key).append hvalue fun _ _ => endsToken_cons (by decide) (by decide)
end

/-! ## Containers inside each other -/

mutual
/-- What is read for a document inside `depth` containers: one that lies inside too many others is
no data. -/
def cut (depth : Nat) : Json → Json
  | .array items => if depth < depthLimit then .array (cutItems (depth + 1) items) else .unreadable
  | .object fields =>
    if depth < depthLimit then .object (cutFields (depth + 1) fields) else .unreadable
  | value => value

/-- What is read for the items of an array. -/
def cutItems (depth : Nat) : List Json → List Json
  | [] => []
  | item :: rest => item.cut depth :: cutItems depth rest

/-- What is read for the fields of an object. -/
def cutFields (depth : Nat) : List (String × Json) → List (String × Json)
  | [] => []
  | (key, value) :: rest => (key, value.cut depth) :: cutFields depth rest
end

mutual
/-- Where containers do not lie inside too many others, a document is read as it is. -/
theorem cut_eq_self : ∀ {json : Json} {depth : Nat}, depth + json.depth ≤ depthLimit →
    json.cut depth = json
  | .array items, depth, h => by
    rw [Json.depth] at h
    rw [cut, if_pos (by omega), cutItems_eq_self (by omega)]
  | .object fields, depth, h => by
    rw [Json.depth] at h
    rw [cut, if_pos (by omega), cutFields_eq_self (by omega)]
  | .unreadable, _, _ => rfl
  | .null, _, _ => rfl
  | .bool _, _, _ => rfl
  | .integer _, _, _ => rfl
  | .float _, _, _ => rfl
  | .string _, _, _ => rfl

theorem cutItems_eq_self : ∀ {items : List Json} {depth : Nat},
    depth + itemsDepth items ≤ depthLimit → cutItems depth items = items
  | [], _, _ => rfl
  | item :: rest, depth, h => by
    rw [itemsDepth] at h
    rw [cutItems, cut_eq_self (by omega), cutItems_eq_self (by omega)]

theorem cutFields_eq_self : ∀ {fields : List (String × Json)} {depth : Nat},
    depth + fieldsDepth fields ≤ depthLimit → cutFields depth fields = fields
  | [], _, _ => rfl
  | (key, value) :: rest, depth, h => by
    rw [fieldsDepth] at h
    rw [cutFields, cut_eq_self (by omega), cutFields_eq_self (by omega)]
end

mutual
/-- A document is read with no unreadable part exactly if no container in it lies inside too many
others. -/
theorem isReadable_cut : ∀ {json : Json} {depth : Nat}, json.IsWritable → depth ≤ depthLimit →
    ((json.cut depth).isReadable = true ↔ depth + json.depth ≤ depthLimit)
  | .array items, depth, h, hdepth => by
    rw [cut, Json.depth]
    split
    · rename_i hlt
      rw [isReadable, itemsReadable_cutItems h hlt]
      omega
    · exact iff_of_false Bool.false_ne_true (by omega)
  | .object fields, depth, h, hdepth => by
    rw [cut, Json.depth]
    split
    · rename_i hlt
      rw [isReadable, fieldsReadable_cutFields h hlt]
      omega
    · exact iff_of_false Bool.false_ne_true (by omega)
  | .unreadable, _, h, _ => h.elim
  | .null, _, _, hdepth => iff_of_true rfl hdepth
  | .bool _, _, _, hdepth => iff_of_true rfl hdepth
  | .integer _, _, _, hdepth => iff_of_true rfl hdepth
  | .float _, _, _, hdepth => iff_of_true rfl hdepth
  | .string _, _, _, hdepth => iff_of_true rfl hdepth

theorem itemsReadable_cutItems : ∀ {items : List Json} {depth : Nat}, ItemsWritable items →
    depth ≤ depthLimit →
      (itemsReadable (cutItems depth items) = true ↔ depth + itemsDepth items ≤ depthLimit)
  | [], _, _, hdepth => iff_of_true rfl hdepth
  | item :: rest, depth, h, hdepth => by
    rw [cutItems, itemsReadable, Bool.and_eq_true, isReadable_cut h.1 hdepth,
      itemsReadable_cutItems h.2 hdepth, itemsDepth]
    omega

theorem fieldsReadable_cutFields : ∀ {fields : List (String × Json)} {depth : Nat},
    FieldsWritable fields → depth ≤ depthLimit →
      (fieldsReadable (cutFields depth fields) = true ↔ depth + fieldsDepth fields ≤ depthLimit)
  | [], _, _, hdepth => iff_of_true rfl hdepth
  | (key, value) :: rest, depth, h, hdepth => by
    rw [cutFields, fieldsReadable, Bool.and_eq_true, isReadable_cut h.1 hdepth,
      fieldsReadable_cutFields h.2 hdepth, fieldsDepth]
    omega
end

/-! ## Putting tokens together -/

/-- Behind the last token of a container stands what is read for it. -/
theorem deliverContainer_eq (value : Json) (frames : List Frame) :
    deliverContainer value frames =
      deliver (if frames.length < depthLimit then value else .unreadable) frames := by
  have hwithin : withinDepth frames = decide (frames.length < depthLimit) := by
    rw [withinDepth, Bool.eq_iff_iff, List.isEmpty_iff, List.drop_eq_nil_iff, decide_eq_true_eq,
      depthLimit]
    omega
  rw [deliverContainer, hwithin]
  simp

/-- The first token of a document ends no array. -/
theorem exists_tokens (json : Json) : ∃ token rest, json.tokens = token :: rest ∧
    ∀ frames, readStep? ⟨frames, .firstItem⟩ token =
      readStep? ⟨.array [] :: frames, .value⟩ token := by
  cases json with
  | array items => exact ⟨_, _, rfl, fun _ => rfl⟩
  | object fields => exact ⟨_, _, rfl, fun _ => rfl⟩
  | string s => exact ⟨_, _, rfl, fun _ => rfl⟩
  | _ => exact ⟨_, _, rfl, fun _ => rfl⟩

/-- The fields of an object under way whose keys and values are known. -/
def openFields (known : List (String × Json)) : OpenFields :=
  (known.map fun field => (some field.1, field.2)).reverse

theorem openFields_concat (known : List (String × Json)) (key : String) (value : Json) :
    openFields (known ++ [(key, value)]) = (some key, value) :: openFields known := by
  simp [openFields]

/-- An object whose keys are known is data. -/
theorem ofOpenFields_openFields (known : List (String × Json)) :
    ofOpenFields (openFields known) = .object known := by
  have hknown : (openFields known).reverse.mapM (fun field => field.1.map (·, field.2)) =
      some known := by
    rw [openFields, List.reverse_reverse, List.mapM_map]
    induction known with
    | nil => rfl
    | cons field known ih =>
      rw [List.mapM_cons, ih]
      rfl
  unfold ofOpenFields
  split
  · rename_i found hfound
    exact congrArg Json.object (Option.some.inj (hfound.symm.trans hknown))
  · rename_i hnone
    exact absurd (hnone.symm.trans hknown) (by simp)

mutual
/-- Where a value is due, the tokens of a document are put together to what is read for it. -/
theorem readTokens?_tokens (behind : List Token) : ∀ (json : Json) (frames : List Frame),
    readTokens? ⟨frames, .value⟩ (json.tokens ++ behind) =
      readTokens? (deliver (json.cut frames.length) frames) behind
  | .array [], frames => by
    show readTokens? (deliverContainer (.array []) frames) behind = _
    rw [deliverContainer_eq, cut]
    rfl
  | .array (item :: rest), frames => by
    -- the first item is read as any other one
    obtain ⟨first, others, hfirst, hstep⟩ := exists_tokens item
    have hitems := readTokens?_items behind (item :: rest) frames [] (by simp)
    have hhead : ∃ more, [Token.comma].intercalate (itemTokens (item :: rest)) ++
        .closeBracket :: behind = first :: more := by
      cases rest with
      | nil => exact ⟨_, by rw [itemTokens, itemTokens, List.intercalate_singleton, hfirst]; rfl⟩
      | cons next rest =>
        exact ⟨_, by rw [itemTokens, itemTokens, List.intercalate_cons_cons, hfirst]; rfl⟩
    obtain ⟨more, hmore⟩ := hhead
    show readTokens? ⟨frames, .firstItem⟩ (([Token.comma].intercalate _ ++ [_]) ++ behind) = _
    rw [List.append_assoc, List.singleton_append]
    rw [hmore] at hitems ⊢
    rw [readTokens?, hstep, ← readTokens?, hitems, deliverContainer_eq, cut]
    rfl
  | .object [], frames => by
    show readTokens? (deliverContainer (.object []) frames) behind = _
    rw [deliverContainer_eq, cut]
    rfl
  | .object ((key, value) :: rest), frames => by
    have hfields := readTokens?_fields behind ((key, value) :: rest) frames [] (by simp)
    -- where the first key may stand, it is read as any other one
    have hhead : ∃ more, [Token.comma].intercalate (fieldTokens ((key, value) :: rest)) ++
        .closeBrace :: behind = .text (some key) :: more := by
      cases rest with
      | nil => exact ⟨_, by rw [fieldTokens, fieldTokens, List.intercalate_singleton]; rfl⟩
      | cons next rest =>
        exact ⟨_, by rw [fieldTokens, fieldTokens, List.intercalate_cons_cons]; rfl⟩
    obtain ⟨more, hmore⟩ := hhead
    show readTokens? ⟨frames, .firstKey⟩ (([Token.comma].intercalate _ ++ [_]) ++ behind) = _
    rw [List.append_assoc, List.singleton_append]
    rw [hmore] at hfields ⊢
    refine Eq.trans hfields ?_
    rw [deliverContainer_eq, cut]
    rfl
  | .string s, frames => rfl
  | .unreadable, frames => rfl
  | .null, frames => rfl
  | .bool _, frames => rfl
  | .integer _, frames => rfl
  | .float _, frames => rfl

/-- The items of an array behind those that are finished. -/
theorem readTokens?_items (behind : List Token) : ∀ (items : List Json) (frames : List Frame)
    (done : List Json), items ≠ [] →
      readTokens? ⟨.array done :: frames, .value⟩
        ([Token.comma].intercalate (itemTokens items) ++ .closeBracket :: behind) =
      readTokens? (deliverContainer (.array (done.reverse ++ cutItems (frames.length + 1) items))
        frames) behind
  | [], _, _, h => absurd rfl h
  | [item], frames, done, _ => by
    rw [itemTokens, itemTokens, List.intercalate_singleton, readTokens?_tokens]
    show readTokens? (deliverContainer (.array (item.cut (frames.length + 1) :: done).reverse)
      frames) behind = _
    rw [List.reverse_cons]
    rfl
  | item :: next :: rest, frames, done, _ => by
    have hrest := readTokens?_items behind (next :: rest) frames
      (item.cut (frames.length + 1) :: done) (by simp)
    rw [List.reverse_cons, List.append_assoc] at hrest
    rw [itemTokens, itemTokens, List.intercalate_cons_cons, List.append_assoc, List.append_assoc,
      readTokens?_tokens]
    exact hrest

/-- The fields of an object behind those that are finished. -/
theorem readTokens?_fields (behind : List Token) : ∀ (fields : List (String × Json))
    (frames : List Frame) (known : List (String × Json)), fields ≠ [] →
      readTokens? ⟨frames, .key (openFields known)⟩
        ([Token.comma].intercalate (fieldTokens fields) ++ .closeBrace :: behind) =
      readTokens? (deliverContainer (.object (known ++ cutFields (frames.length + 1) fields))
        frames) behind
  | [], _, _, h => absurd rfl h
  | [(key, value)], frames, known, _ => by
    have hvalue := readTokens?_tokens (.closeBrace :: behind) value
      (.object (openFields known) (some key) :: frames)
    rw [fieldTokens, fieldTokens, List.intercalate_singleton]
    show readTokens? ⟨.object (openFields known) (some key) :: frames, .value⟩
      (value.tokens ++ .closeBrace :: behind) = _
    rw [hvalue]
    show readTokens? (deliverContainer (ofOpenFields
      ((some key, value.cut (frames.length + 1)) :: openFields known)) frames) behind = _
    rw [← openFields_concat, ofOpenFields_openFields]
    rfl
  | (key, value) :: next :: rest, frames, known, _ => by
    -- behind the value and a comma the object is read on, with one more field known
    have hrest := readTokens?_fields behind (next :: rest) frames
      (known ++ [(key, value.cut (frames.length + 1))]) (by simp)
    have hvalue := readTokens?_tokens (.comma :: ([Token.comma].intercalate
      (fieldTokens (next :: rest)) ++ .closeBrace :: behind)) value
      (.object (openFields known) (some key) :: frames)
    rw [openFields_concat, List.append_assoc] at hrest
    rw [fieldTokens, fieldTokens, List.intercalate_cons_cons, List.append_assoc, List.append_assoc]
    exact hvalue.trans hrest
end

/-- From the text of a document is read the document, without the containers that lie inside too
many others. -/
theorem parse?_compact {json : Json} (h : json.IsWritable) :
    parse? json.compact = some (json.cut 0) := by
  have hlex := readsAs_compact h [] endsToken_nil
  have htokens : tokens? json.compact.toList = some json.tokens := by
    rw [tokens?, ← List.append_nil json.compact.toList, hlex]
    exact congrArg some (List.append_nil _)
  have hread := readTokens?_tokens [] json []
  rw [List.append_nil] at hread
  rw [parse?, ofChars?, htokens]
  exact ofTokens?_eq_some_iff.2 hread

end FeatureStore.Json
