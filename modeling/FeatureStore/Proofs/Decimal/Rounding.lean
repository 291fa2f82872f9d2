import FeatureStore.Decimal.Reading
import Mathlib.Data.List.TakeWhile

/-!
# Rounding whole numbers

The number nearest to a whole number. Rounding keeps the order (`Binary64.wholeKey_le`) but not every
difference: of whole numbers beyond `2 ^ 53` several are rounded to one number. Up to there none are
(`Binary64.wholeKey_lt`). A text that reads as a whole number of sixty-four bits is read as the
number nearest to it (`Binary64.read?_of_readInt64?`), and a minus in front of a zero is kept.
-/

set_option autoImplicit false

namespace FeatureStore

/-! ## Quotients -/

theorem roundHalfEven_mul (n : Nat) {den : Nat} (h : 0 < den) : roundHalfEven (n * den) den = n := by
  unfold roundHalfEven
  rw [Nat.mul_div_cancel n h, Nat.mul_mod_left]
  exact if_pos (by omega)

/-- A greater number is not rounded to a smaller one. -/
theorem roundHalfEven_mono {a b den : Nat} (hab : a ≤ b) :
    roundHalfEven a den ≤ roundHalfEven b den := by
  have hle : a / den ≤ b / den := Nat.div_le_div_right hab
  have hbound : ∀ n, n / den ≤ roundHalfEven n den ∧ roundHalfEven n den ≤ n / den + 1 := by
    intro n
    unfold roundHalfEven
    dsimp only
    split
    · omega
    · split
      · omega
      · split <;> omega
  rcases Nat.lt_or_eq_of_le hle with hlt | heq
  · have ha := (hbound a).2
    have hb := (hbound b).1
    omega
  · -- with the same quotient the remainders tell
    have hmod : a % den ≤ b % den := by
      have ha := Nat.div_add_mod a den
      have hb := Nat.div_add_mod b den
      rw [heq] at ha
      omega
    unfold roundHalfEven
    rw [heq]
    dsimp only
    generalize a % den = r at hmod ⊢
    generalize b % den = s at hmod ⊢
    repeat' split
    all_goals omega

theorem le_roundHalfEven {n a den : Nat} (h : 0 < den) (hle : n * den ≤ a) :
    n ≤ roundHalfEven a den := by
  have := @roundHalfEven_mono _ _ den hle
  rwa [roundHalfEven_mul n h] at this

theorem roundHalfEven_le {n a den : Nat} (h : 0 < den) (hle : a ≤ n * den) :
    roundHalfEven a den ≤ n := by
  have := @roundHalfEven_mono _ _ den hle
  rwa [roundHalfEven_mul n h] at this

namespace Binary64

/-! ## Magnitudes -/

theorem pow_pos (n : Nat) : 0 < Nat.pow 2 n := Nat.two_pow_pos n

theorem pow_mul_pow (m n : Nat) : Nat.pow 2 m * Nat.pow 2 n = Nat.pow 2 (m + n) :=
  (Nat.pow_add 2 m n).symm

/-- The magnitude that a whole number of the smallest units is rounded to. -/
def magnitudeOf (total : Nat) : Nat :=
  (Nat.log2 total - 52) * fractionLimit + roundHalfEven total (Nat.pow 2 (Nat.log2 total - 52))

/-- A whole number in the smallest units. -/
def wholeUnits (n : Nat) : Nat := n * Nat.pow 2 1074

theorem ofRatio_whole (negative : Bool) (n : Nat) :
    ofRatio negative n 1 = ⟨negative, min infinityMagnitude (magnitudeOf (wholeUnits n))⟩ := by
  rw [ofRatio, magnitudeOf, wholeUnits]
  simp only [Nat.div_one, Nat.one_mul]

variable {a b : Nat}

theorem log2_le_log2 (h : a ≤ b) : Nat.log2 a ≤ Nat.log2 b := by
  by_cases ha : a = 0
  · rw [ha]
    exact Nat.zero_le _
  · have hb : b ≠ 0 := by omega
    exact (Nat.le_log2 hb).2 (Nat.le_trans (Nat.log2_self_le ha) h)

theorem lt_of_dropped (a : Nat) : a < Nat.pow 2 53 * Nat.pow 2 (Nat.log2 a - 52) := by
  have hlt : a < Nat.pow 2 (Nat.log2 a + 1) := Nat.lt_log2_self
  rw [pow_mul_pow]
  exact Nat.lt_of_lt_of_le hlt (Nat.pow_le_pow_right (by omega) (by omega))

theorem le_of_dropped (h : 52 < Nat.log2 a) :
    Nat.pow 2 52 * Nat.pow 2 (Nat.log2 a - 52) ≤ a := by
  have hne : a ≠ 0 := by
    rintro rfl
    simp at h
  rw [pow_mul_pow, show 52 + (Nat.log2 a - 52) = Nat.log2 a by omega]
  exact Nat.log2_self_le hne

/-- A number with fewer digits has a magnitude below those of the numbers with more. -/
theorem le_magnitudeOf (h : 52 < Nat.log2 a) :
    (Nat.log2 a - 52 + 1) * fractionLimit ≤ magnitudeOf a := by
  have hkept := le_roundHalfEven (pow_pos _) (le_of_dropped h)
  rw [magnitudeOf, Nat.add_mul, Nat.one_mul]
  exact Nat.add_le_add_left hkept _

theorem magnitudeOf_le (a : Nat) : magnitudeOf a ≤ (Nat.log2 a - 52 + 2) * fractionLimit := by
  have hkept := roundHalfEven_le (pow_pos _) (Nat.le_of_lt (lt_of_dropped a))
  rw [magnitudeOf, Nat.add_mul]
  exact Nat.add_le_add_left hkept _

/-- A greater number is not rounded to a smaller magnitude. -/
theorem magnitudeOf_mono (h : a ≤ b) : magnitudeOf a ≤ magnitudeOf b := by
  have hlog := log2_le_log2 h
  by_cases hdropped : Nat.log2 a - 52 = Nat.log2 b - 52
  · rw [magnitudeOf, magnitudeOf, hdropped]
    exact Nat.add_le_add_left (roundHalfEven_mono h) _
  · calc magnitudeOf a
      _ ≤ (Nat.log2 a - 52 + 2) * fractionLimit := magnitudeOf_le a
      _ ≤ (Nat.log2 b - 52 + 1) * fractionLimit := Nat.mul_le_mul_right _ (by omega)
      _ ≤ magnitudeOf b := le_magnitudeOf (by omega)

/-- Nothing is lost when a number of units is rounded. -/
def IsExact (total : Nat) : Prop := ∃ kept, total = kept * Nat.pow 2 (Nat.log2 total - 52)

/-- Different numbers of which nothing is lost have different magnitudes. -/
theorem magnitudeOf_lt (ha : IsExact a) (hb : IsExact b) (h : a < b) :
    magnitudeOf a < magnitudeOf b := by
  have hlog := log2_le_log2 (Nat.le_of_lt h)
  obtain ⟨k, hk⟩ := ha
  obtain ⟨l, hl⟩ := hb
  have hkept : roundHalfEven a (Nat.pow 2 (Nat.log2 a - 52)) = k := by
    conv => lhs; arg 1; rw [hk]
    exact roundHalfEven_mul k (pow_pos _)
  have hkept' : roundHalfEven b (Nat.pow 2 (Nat.log2 b - 52)) = l := by
    conv => lhs; arg 1; rw [hl]
    exact roundHalfEven_mul l (pow_pos _)
  by_cases hdropped : Nat.log2 a - 52 = Nat.log2 b - 52
  · -- with as many places dropped the kept parts tell
    have hless : k < l := by
      rw [hk, hl, hdropped] at h
      exact Nat.lt_of_mul_lt_mul_right h
    rw [magnitudeOf, magnitudeOf, hkept, hkept', hdropped]
    exact Nat.add_lt_add_left hless _
  · -- the larger number drops more places, so it is beyond all magnitudes with fewer
    have hless : k < Nat.pow 2 53 := by
      have hlt := lt_of_dropped a
      conv at hlt => lhs; rw [hk]
      exact Nat.lt_of_mul_lt_mul_right hlt
    calc magnitudeOf a
      _ < (Nat.log2 a - 52 + 2) * fractionLimit := by
        rw [magnitudeOf, hkept, Nat.add_mul]
        exact Nat.add_lt_add_left hless _
      _ ≤ (Nat.log2 b - 52 + 1) * fractionLimit := Nat.mul_le_mul_right _ (by omega)
      _ ≤ magnitudeOf b := le_magnitudeOf (by omega)

/-- Whole numbers below a power of two, counted in smaller units. -/
theorem log2_lt_of_lt {n digits : Nat} (places : Nat) (h : n < Nat.pow 2 digits) :
    Nat.log2 (n * Nat.pow 2 places) < digits + places ∨ n = 0 := by
  by_cases hn : n = 0
  · exact Or.inr hn
  · have hne : n * Nat.pow 2 places ≠ 0 := Nat.mul_ne_zero hn (Nat.ne_of_gt (pow_pos places))
    refine Or.inl ((Nat.log2_lt hne).2 ?_)
    have hlt := Nat.mul_lt_mul_of_pos_right h (pow_pos places)
    rwa [pow_mul_pow] at hlt

/-- Nothing of a whole number up to `2 ^ 53` is lost in units that are powers of two. -/
theorem isExact_of_le {n : Nat} (places : Nat) (h : n ≤ Nat.pow 2 53) :
    IsExact (n * Nat.pow 2 places) := by
  rcases Nat.lt_or_eq_of_le h with hlt | rfl
  · rcases log2_lt_of_lt places hlt with hlog | rfl
    · -- no more is dropped than the units are finer
      have hplaces : places - (Nat.log2 (n * Nat.pow 2 places) - 52) +
          (Nat.log2 (n * Nat.pow 2 places) - 52) = places := by omega
      refine ⟨n * Nat.pow 2 (places - (Nat.log2 (n * Nat.pow 2 places) - 52)), ?_⟩
      rw [Nat.mul_assoc, pow_mul_pow, hplaces]
    · refine ⟨0, ?_⟩
      rw [Nat.zero_mul, Nat.zero_mul]
  · refine ⟨Nat.pow 2 52, ?_⟩
    have hlog : Nat.log2 (Nat.pow 2 (53 + places)) = 53 + places := Nat.log2_two_pow
    rw [pow_mul_pow, hlog, pow_mul_pow]
    congr 1
    omega

/-! ## Whole numbers -/

/-- The factor is a power of two, which is left unevaluated where its size does not matter. -/
theorem exists_places : ∃ places, places = 1074 ∧ ∀ n, wholeUnits n = n * Nat.pow 2 places :=
  ⟨1074, rfl, fun _ => rfl⟩

theorem wholeUnits_zero : wholeUnits 0 = 0 := by
  obtain ⟨places, -, hunits⟩ := exists_places
  rw [hunits, Nat.zero_mul]

theorem wholeUnits_lt {m n : Nat} (h : m < n) : wholeUnits m < wholeUnits n := by
  obtain ⟨places, -, hunits⟩ := exists_places
  rw [hunits, hunits]
  exact Nat.mul_lt_mul_of_pos_right h (pow_pos places)

theorem wholeUnits_le {m n : Nat} (h : m ≤ n) : wholeUnits m ≤ wholeUnits n := by
  rcases Nat.lt_or_eq_of_le h with hlt | rfl
  · exact Nat.le_of_lt (wholeUnits_lt hlt)
  · exact Nat.le_refl _

theorem isExact_wholeUnits {n : Nat} (h : n ≤ Nat.pow 2 53) : IsExact (wholeUnits n) := by
  obtain ⟨places, -, hunits⟩ := exists_places
  rw [hunits]
  exact isExact_of_le places h

/-- A whole number up to `2 ^ 53` is not infinite. -/
theorem magnitudeOf_lt_infinity {n : Nat} (h : n ≤ Nat.pow 2 53) :
    magnitudeOf (wholeUnits n) < infinityMagnitude := by
  have hdropped : Nat.log2 (wholeUnits n) - 52 + 2 ≤ 2046 := by
    obtain ⟨places, hplaces, hunits⟩ := exists_places
    rw [hunits]
    rcases log2_lt_of_lt places (Nat.lt_of_le_of_lt h (show _ < Nat.pow 2 54 by decide)) with
      hlog | rfl
    · omega
    · rw [Nat.zero_mul]
      decide
  calc magnitudeOf (wholeUnits n)
    _ ≤ (Nat.log2 (wholeUnits n) - 52 + 2) * fractionLimit := magnitudeOf_le _
    _ ≤ 2046 * fractionLimit := Nat.mul_le_mul_right _ hdropped
    _ < infinityMagnitude := by decide

/-- Where the number nearest to a whole number stands among all numbers. -/
def wholeKey (negative : Bool) (n : Nat) : Int := (ofRatio negative n 1).totalKey

theorem wholeKey_eq (negative : Bool) (n : Nat) :
    wholeKey negative n =
      if negative then -((min infinityMagnitude (magnitudeOf (wholeUnits n)) : Nat) : Int) - 1
      else (min infinityMagnitude (magnitudeOf (wholeUnits n)) : Nat) := by
  rw [wholeKey, ofRatio_whole]
  rfl

/-- The two zeros stand next to each other. -/
theorem wholeKey_zero (negative : Bool) : wholeKey negative 0 = if negative then -1 else 0 := by
  rw [wholeKey_eq, wholeUnits_zero]
  cases negative <;> rfl

/-- The number nearest to a greater whole number is not smaller. -/
theorem wholeKey_le {m n : Nat} {s t : Bool} (h : signed s m < signed t n) :
    wholeKey s m ≤ wholeKey t n := by
  rw [wholeKey_eq, wholeKey_eq]
  cases s <;> cases t <;> simp only [signed, Bool.false_eq_true, if_true, if_false] at h ⊢
  · have := magnitudeOf_mono (wholeUnits_le (show m ≤ n by omega))
    omega
  · omega
  · omega
  · have := magnitudeOf_mono (wholeUnits_le (show n ≤ m by omega))
    omega

/-- Up to `2 ^ 53` the numbers nearest to different whole numbers differ. -/
theorem wholeKey_lt {m n : Nat} {s t : Bool} (hm : m ≤ Nat.pow 2 53) (hn : n ≤ Nat.pow 2 53)
    (h : signed s m < signed t n) : wholeKey s m < wholeKey t n := by
  rw [wholeKey_eq, wholeKey_eq, Nat.min_eq_right (Nat.le_of_lt (magnitudeOf_lt_infinity hm)),
    Nat.min_eq_right (Nat.le_of_lt (magnitudeOf_lt_infinity hn))]
  cases s <;> cases t <;> simp only [signed, Bool.false_eq_true, if_true, if_false] at h ⊢
  · have := magnitudeOf_lt (isExact_wholeUnits hm) (isExact_wholeUnits hn)
      (wholeUnits_lt (show m < n by omega))
    omega
  · omega
  · omega
  · have := magnitudeOf_lt (isExact_wholeUnits hn) (isExact_wholeUnits hm)
      (wholeUnits_lt (show n < m by omega))
    omega

end Binary64

/-- A whole number and its sign are told by its value, unless it is zero. -/
theorem eq_of_signed_eq {m n : Nat} {s t : Bool} (h : signed s m = signed t n) :
    s = t ∧ m = n ∨ m = 0 ∧ n = 0 := by
  cases s <;> cases t <;> simp only [signed, Bool.false_eq_true, if_true, if_false] at h <;> simp <;>
    omega

/-! ## Reading -/

theorem toLower_of_isDigit {c : Char} (h : c.isDigit = true) : c.toLower = c := by
  rw [Char.isDigit, Bool.and_eq_true, decide_eq_true_eq, decide_eq_true_eq] at h
  refine dif_neg fun hupper => ?_
  -- a digit lies before the capital letters
  exact absurd (UInt32.le_trans hupper.1 h.2) (by decide)

namespace Binary64

/-- Digits are no word. -/
theorem map_toLower_ne {digits : List Char} (h : isDigits digits = true) {c : Char}
    {rest : List Char} (hc : c.isDigit = false) : digits.map Char.toLower ≠ c :: rest := by
  rw [isDigits, Bool.and_eq_true, List.all_eq_true] at h
  intro heq
  obtain ⟨first, more, rfl, hfirst, -⟩ := List.map_eq_cons_iff.1 heq
  have hdigit := h.2 first List.mem_cons_self
  rw [toLower_of_isDigit hdigit] at hfirst
  rw [hfirst, hc] at hdigit
  exact Bool.false_ne_true hdigit

theorem ofDecimal_zero (negative : Bool) (n : Nat) :
    ofDecimal negative n 0 = ofRatio negative n 1 := by
  rw [ofDecimal]
  split
  · rename_i hzero
    rw [hzero, ofRatio_whole, wholeUnits_zero]
    rfl
  · rw [if_neg (by omega), if_neg (by omega), if_neg (by omega)]
    simp

theorem readDecimal?_of_isDigits {digits : List Char} (negative : Bool)
    (h : isDigits digits = true) :
    readDecimal? negative digits = some (ofRatio negative (digitsValue digits) 1) := by
  rw [isDigits, Bool.and_eq_true, List.all_eq_true, Bool.not_eq_true'] at h
  have hwhole : digits.takeWhile Char.isDigit = digits := List.takeWhile_eq_self_iff.2 h.2
  have hrest : digits.dropWhile Char.isDigit = [] := List.dropWhile_eq_nil_iff.2 h.2
  rw [readDecimal?, hwhole, hrest]
  dsimp only
  rw [h.1, Bool.false_and, if_neg Bool.false_ne_true, readExponent?, Option.map_some,
    List.append_nil]
  exact congrArg some (ofDecimal_zero negative _)

/-- A text that reads as a whole number is read as the number nearest to it. -/
theorem read?_of_readInt64? {text : String} {n : Int} (h : readInt64? text = some n) :
    ∃ negative digits, n = signed negative digits ∧
      read? text = some (ofRatio negative digits 1) := by
  rw [readInt64?] at h
  rw [read?]
  cases hsplit : splitSign text.toList with
  | mk negative digits =>
    rw [hsplit] at h
    dsimp only at h ⊢
    split at h
    · rename_i hdigits
      split at h
      · refine ⟨negative, digitsValue digits, (Option.some.inj h).symm, ?_⟩
        rw [if_neg, if_neg, readDecimal?_of_isDigits negative hdigits]
        · exact map_toLower_ne hdigits (by decide)
        · rintro (hinf | hinfinity)
          · exact map_toLower_ne hdigits (by decide) hinf
          · exact map_toLower_ne hdigits (by decide) hinfinity
      · simp at h
    · simp at h

end Binary64

end FeatureStore
