import FeatureStore.Json.Reader
import FeatureStore.Json.Record
import FeatureStore.Json.Writer
import Mathlib.Data.List.TakeWhile

/-!
# Numbers in documents

How numbers are told from each other in a JSON text. A whole number within the limits of its sign is
read back from its digits (`readNumber?_ofInt`). A floating point number is written with a point or
an exponent, and a token with one of these never stands for a whole number, not even where the
number is whole (`digits_of_readNumber?_integer`). So of a text that reads back to the same number
at all, the kind of the number comes back as well (`readNumber?_of_readsBack`).
-/

set_option autoImplicit false

namespace FeatureStore

namespace Json

/-! ## The characters of a token -/

/-- A number token: it begins with a minus or a digit, and goes on with marks of numbers. -/
structure IsNumberToken (token : List Char) : Prop where
  begins : ∃ c rest, token = c :: rest ∧ (c = '-' ∨ c.isDigit = true)
  continues : ∀ c ∈ token, continuesNumber c = true

theorem continuesNumber_of_isDigit {c : Char} (h : c.isDigit = true) :
    continuesNumber c = true := by
  simp [continuesNumber, h]

theorem continues_of_isDigits {cs : List Char} (h : isDigits cs = true) :
    ∀ c ∈ cs, continuesNumber c = true := by
  rw [isDigits, Bool.and_eq_true, List.all_eq_true] at h
  exact fun c hc => continuesNumber_of_isDigit (h.2 c hc)

theorem continues_takeWhile (cs : List Char) :
    ∀ c ∈ cs.takeWhile Char.isDigit, continuesNumber c = true := fun _ hc =>
  continuesNumber_of_isDigit (List.mem_takeWhile_imp hc)

/-- The characters of a text are a sign and those behind it. -/
theorem continues_of_splitSign {cs : List Char}
    (h : ∀ c ∈ (splitSign cs).2, continuesNumber c = true) :
    ∀ c ∈ cs, continuesNumber c = true := by
  rw [splitSign.eq_def] at h
  split at h
  · exact List.forall_mem_cons.2 ⟨rfl, h⟩
  · exact List.forall_mem_cons.2 ⟨rfl, h⟩
  · exact h

theorem continues_of_readExponent? {cs : List Char} {exponent : Int}
    (h : Binary64.readExponent? cs = some exponent) : ∀ c ∈ cs, continuesNumber c = true := by
  cases cs with
  | nil => simp
  | cons mark rest =>
    rw [Binary64.readExponent?] at h
    split at h
    · rename_i hmark
      dsimp only at h
      split at h
      · rename_i hdigits
        refine List.forall_mem_cons.2 ⟨?_, continues_of_splitSign (continues_of_isDigits hdigits)⟩
        rcases hmark with rfl | rfl <;> rfl
      · simp at h
    · simp at h

/-- What stands behind the first digits of a number token and what number it is. -/
theorem readNumber?_parts {token : List Char} {number : Json}
    (h : readNumber? token = some number) : ∃ (negative : Bool) (body : List Char),
      token = (if negative then ['-'] else []) ++ body ∧
      startsPlain (body.takeWhile Char.isDigit) = true ∧
      (body.dropWhile Char.isDigit = [] ∨
        (∀ c ∈ body.dropWhile Char.isDigit, continuesNumber c = true) ∧
          ∃ whole fraction exponent, number = readFloat negative whole fraction exponent) := by
  unfold readNumber? at h
  split at h
  rename_i negative body hbody
  have htoken : token = (if negative then ['-'] else []) ++ body := by
    split at hbody
    · obtain ⟨rfl, rfl⟩ := Prod.mk.inj hbody
      rfl
    · obtain ⟨rfl, rfl⟩ := Prod.mk.inj hbody
      rfl
  refine ⟨negative, body, htoken, ?_⟩
  dsimp only at h
  split at h
  · simp at h
  · rename_i hplain
    refine ⟨by simpa using hplain, ?_⟩
    split at h
    · rename_i hrest
      exact .inl hrest
    · -- a point with digits behind it, and then perhaps an exponent
      rename_i more hrest
      split at h
      · simp at h
      · obtain ⟨exponent, hexponent, rfl⟩ := Option.map_eq_some_iff.1 h
        rw [hrest]
        refine .inr ⟨List.forall_mem_cons.2 ⟨rfl, fun c hc => ?_⟩, _, _, _, rfl⟩
        rw [← List.takeWhile_append_dropWhile (p := Char.isDigit) (l := more)] at hc
        exact (List.mem_append.1 hc).elim (continues_takeWhile more c)
          (continues_of_readExponent? hexponent c)
    · obtain ⟨exponent, hexponent, rfl⟩ := Option.map_eq_some_iff.1 h
      exact .inr ⟨continues_of_readExponent? hexponent, _, _, _, rfl⟩

theorem isNumberToken_of_readNumber? {token : List Char} {number : Json}
    (h : readNumber? token = some number) : IsNumberToken token := by
  obtain ⟨negative, body, rfl, hplain, hrest⟩ := readNumber?_parts h
  have hbody : ∀ c ∈ body, continuesNumber c = true := by
    intro c hc
    rw [← List.takeWhile_append_dropWhile (p := Char.isDigit) (l := body)] at hc
    rcases List.mem_append.1 hc with hc | hc
    · exact continues_takeWhile body c hc
    · rcases hrest with hrest | ⟨hrest, -⟩
      · rw [hrest] at hc
        cases hc
      · exact hrest c hc
  cases negative with
  | true => exact ⟨⟨'-', body, rfl, .inl rfl⟩, List.forall_mem_cons.2 ⟨rfl, hbody⟩⟩
  | false =>
    -- the first digit is there, or the token would not begin plainly
    cases body with
    | nil => simp [startsPlain] at hplain
    | cons c rest =>
      refine ⟨⟨c, rest, rfl, .inr ?_⟩, hbody⟩
      by_contra hc
      rw [List.takeWhile_cons_of_neg hc] at hplain
      simp [startsPlain] at hplain

/-- A floating point number, or no data. -/
theorem readFloat_ne_integer (negative : Bool) (whole fraction : List Char) (exponent n : Int) :
    readFloat negative whole fraction exponent ≠ .integer n := by
  rw [readFloat]
  dsimp only
  split
  · simp
  · simp

/-- The token of a whole number has digits only, behind its sign. -/
theorem digits_of_readNumber?_integer {token : List Char} {n : Int}
    (h : readNumber? token = some (.integer n)) : ∀ c ∈ token, c = '-' ∨ c.isDigit = true := by
  obtain ⟨negative, body, rfl, -, hrest⟩ := readNumber?_parts h
  have hbody : ∀ c ∈ body, c.isDigit = true := by
    rcases hrest with hrest | ⟨-, whole, fraction, exponent, hfloat⟩
    · intro c hc
      rw [← List.takeWhile_append_dropWhile (p := Char.isDigit) (l := body), hrest,
        List.append_nil] at hc
      exact List.mem_takeWhile_imp hc
    · exact absurd hfloat.symm (readFloat_ne_integer negative whole fraction exponent n)
  refine List.forall_mem_append.2 ⟨?_, fun c hc => .inr (hbody c hc)⟩
  cases negative <;> simp

end Json

/-! ## Floating point numbers -/

/-- The text of a number in a document is a number token of the same number, whatever kind of number
it stands for. -/
def Binary64.ReadsBack (x : Binary64) : Prop :=
  (Json.readNumber? (x.text .document).toList).bind Json.float? = some x

instance (x : Binary64) : Decidable x.ReadsBack := inferInstanceAs (Decidable (_ = _))

namespace DecimalLayout

/-- Where whole numbers keep a fraction, positional notation has a point. -/
theorem point_mem_positional (digits : List Char) (leading : Int) :
    '.' ∈ positional digits leading true := by
  rw [positional, splitAt]
  split
  · simp
  · split
    · simp
    · simp

theorem mark_mem_scientific (digits : List Char) (leading : Int) (signsExponent : Bool) :
    'e' ∈ scientific digits leading signsExponent := by
  simp [scientific]

end DecimalLayout

namespace Binary64

/-- What is not a number, and what is infinite, is written as a word. -/
theorem text_of_not_isFinite {x : Binary64} (h : x.isFinite = false) (layout : DecimalLayout) :
    (x.text layout).toList ∈ ["NaN".toList, "inf".toList, "-inf".toList] := by
  rw [text]
  split
  · exact List.mem_cons_self
  · rename_i hnumber
    have hinfinite : x.isInfinite = true := by
      simp only [isFinite, isNaN, decide_eq_false_iff_not, decide_eq_true_eq] at h hnumber
      simp only [isInfinite, beq_iff_eq]
      omega
    dsimp only
    rw [if_pos hinfinite, String.toList_ofList]
    cases x.negative <;> decide

/-- Only a finite number reads back. -/
theorem isFinite_of_readsBack {x : Binary64} (h : x.ReadsBack) : x.isFinite = true := by
  by_contra hfinite
  have htext := text_of_not_isFinite (Bool.eq_false_iff.2 hfinite) .document
  rw [ReadsBack] at h
  have hnone : ∀ word ∈ ["NaN".toList, "inf".toList, "-inf".toList],
      Json.readNumber? word = none := by
    decide
  rw [hnone _ htext] at h
  cases h

/-- A finite number is written with a point or an exponent. -/
theorem exists_mark_text {x : Binary64} (h : x.isFinite = true) :
    ∃ c ∈ (x.text .document).toList, c ≠ '-' ∧ c.isDigit = false := by
  have hnumber : ¬x.isNaN = true := by
    simp only [isFinite, isNaN, decide_eq_true_eq] at h ⊢
    omega
  have hbounded : ¬x.isInfinite = true := by
    simp only [isFinite, isInfinite, decide_eq_true_eq, beq_iff_eq] at h ⊢
    omega
  have hbody : ∀ (isPositional : Bool) digits leading,
      ∃ c ∈ (if isPositional then DecimalLayout.positional digits leading true
        else DecimalLayout.scientific digits leading true), c ≠ '-' ∧ c.isDigit = false := by
    intro isPositional digits leading
    cases isPositional with
    | true => exact ⟨'.', DecimalLayout.point_mem_positional digits leading, by decide, by decide⟩
    | false => exact ⟨'e', DecimalLayout.mark_mem_scientific digits leading true, by decide,
        by decide⟩
  rw [text, if_neg hnumber]
  dsimp only
  rw [if_neg hbounded, String.toList_ofList]
  obtain ⟨c, hc, hmark⟩ := hbody _ _ _
  exact ⟨c, List.mem_append_right _ hc, hmark⟩

/-- A number that reads back at all reads back as a floating point number. -/
theorem readNumber?_of_readsBack {x : Binary64} (h : x.ReadsBack) :
    Json.readNumber? (x.text .document).toList = some (.float x) := by
  obtain ⟨number, hnumber, hvalue⟩ := Option.bind_eq_some_iff.1 h
  cases number with
  | float y =>
    obtain rfl := Option.some.inj hvalue
    exact hnumber
  | integer n =>
    -- the point or the exponent is no digit
    obtain ⟨c, hc, hminus, hdigit⟩ := exists_mark_text (isFinite_of_readsBack h)
    rcases Json.digits_of_readNumber?_integer hnumber c hc with rfl | hc
    · exact absurd rfl hminus
    · rw [hdigit] at hc
      cases hc
  | _ => cases hvalue

end Binary64

/-! ## Whole numbers -/

namespace Json

/-- A positive number is written without a zero in front. -/
theorem exists_toDigits_of_pos {n : Nat} (h : 0 < n) :
    ∃ c rest, Nat.toDigits 10 n = c :: rest ∧ c ≠ '0' := by
  induction n using Nat.strongRecOn with
  | ind n ih =>
    by_cases hlt : n < 10
    · have hdigits : ∀ d : Fin 10, 0 < d.val → Nat.digitChar d ≠ '0' := by decide
      exact ⟨n.digitChar, [], Nat.toDigits_of_lt_base hlt, hdigits ⟨n, hlt⟩ h⟩
    · obtain ⟨c, rest, hrest, hc⟩ := ih (n / 10) (by omega) (by omega)
      rw [Nat.toDigits_of_base_le (by decide) (Nat.le_of_not_lt hlt), hrest]
      exact ⟨c, _, rfl, hc⟩

theorem startsPlain_toDigits (n : Nat) : startsPlain (Nat.toDigits 10 n) = true := by
  rcases Nat.eq_zero_or_pos n with rfl | hpos
  · rfl
  · obtain ⟨c, rest, hrest, hc⟩ := exists_toDigits_of_pos hpos
    rw [hrest]
    unfold startsPlain
    split
    · rename_i hnil
      cases hnil
    · rfl
    · rename_i hcons
      obtain ⟨rfl, -⟩ := List.cons.inj hcons
      simpa using hc

theorem digitsValue_toDigits (n : Nat) : digitsValue (Nat.toDigits 10 n) = n :=
  Nat.ofDigitChars_ten_toDigits

/-- The digits of a token that has nothing else are taken as they are. -/
theorem takeWhile_toDigits (n : Nat) : (Nat.toDigits 10 n).takeWhile Char.isDigit =
    Nat.toDigits 10 n ∧ (Nat.toDigits 10 n).dropWhile Char.isDigit = [] := by
  have hall : ∀ c ∈ Nat.toDigits 10 n, c.isDigit = true := fun c hc =>
    Nat.isDigit_of_mem_toDigits (b := 10) (by omega) (by omega) hc
  exact ⟨List.takeWhile_eq_self_iff.2 hall, List.dropWhile_eq_nil_iff.2 hall⟩

/-- A token of digits behind its sign. -/
theorem readNumber?_digits (negative : Bool) (m : Nat)
    (h : if negative then m ≠ 0 ∧ m ≤ Nat.pow 2 63 else m < Nat.pow 2 64) :
    readNumber? ((if negative then ['-'] else []) ++ Nat.toDigits 10 m) =
      some (.integer (signed negative m)) := by
  obtain ⟨htake, hdrop⟩ := takeWhile_toDigits m
  unfold readNumber?
  split
  rename_i found body hbody
  obtain ⟨rfl, rfl⟩ : found = negative ∧ body = Nat.toDigits 10 m := by
    cases negative with
    | true =>
      obtain ⟨rfl, rfl⟩ := Prod.mk.inj hbody
      exact ⟨rfl, rfl⟩
    | false =>
      -- the first digit is no sign
      rw [if_neg Bool.false_ne_true, List.nil_append] at hbody
      split at hbody
      · rename_i rest hdigits
        have hmem : '-' ∈ Nat.toDigits 10 m := by
          rw [hdigits]
          exact List.mem_cons_self
        exact absurd (Nat.isDigit_of_mem_toDigits (by omega) (by omega) hmem) (by decide)
      · obtain ⟨rfl, rfl⟩ := Prod.mk.inj hbody
        exact ⟨rfl, rfl⟩
  simp only [htake, hdrop, startsPlain_toDigits, digitsValue_toDigits, Bool.not_true,
    Bool.false_eq_true, if_false]
  cases found with
  | true =>
    rw [if_pos rfl] at h ⊢
    rw [if_neg (by omega)]
    rfl
  | false =>
    rw [if_neg Bool.false_ne_true] at h ⊢
    rw [if_pos h]
    rfl

/-- A whole number within the limits of its sign is read from its text. -/
theorem readNumber?_ofInt {n : Int} (hlow : -(Nat.pow 2 63 : Int) ≤ n)
    (hhigh : n < (Nat.pow 2 64 : Int)) : readNumber? (toString n).toList = some (.integer n) := by
  cases n with
  | ofNat m =>
    have htext : (toString (Int.ofNat m)).toList = Nat.toDigits 10 m := Nat.toList_repr
    rw [htext]
    exact readNumber?_digits false m (Int.ofNat_lt.1 hhigh)
  | negSucc m =>
    have htext : (toString (Int.negSucc m)).toList = '-' :: Nat.toDigits 10 (m + 1) := by
      show ("-" ++ (m + 1).repr).toList = _
      rw [String.toList_append, Nat.toList_repr]
      rfl
    rw [htext]
    refine readNumber?_digits true (m + 1) ⟨Nat.succ_ne_zero m, ?_⟩
    generalize Nat.pow 2 63 = limit at hlow ⊢
    omega

end Json

end FeatureStore
