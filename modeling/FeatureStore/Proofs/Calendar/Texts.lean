import FeatureStore.Calendar.Reading
import FeatureStore.Proofs.Path.Scanning

/-!
# Dates and instants behind their texts

Every date is read back from its text (`Date.readLenient?_text`). Of the instants those are read
back whose leap second, if they are in one, follows the last second of a minute. The text of any
other instant in a leap second is one of the second behind it, and that one is read
(`Instant.readLenient?_text`, `Instant.readLenient?_text_eq_some_iff`).
-/

set_option autoImplicit false

namespace FeatureStore

open Calendar

/-! ## Digits of a fixed width -/

section PaddedDigits

variable {width n : Nat}

theorem isDigit_of_mem_paddedDigits {c : Char} (h : c ∈ paddedDigits width n) :
    c.isDigit = true := by
  rcases List.mem_append.1 h with h | h
  · rw [List.eq_of_mem_replicate h]
    rfl
  · exact Nat.isDigit_of_mem_toDigits (b := 10) (by omega) (by omega) h

/-- Zeros in front leave a number as it is. -/
theorem digitsValue_paddedDigits (width n : Nat) : digitsValue (paddedDigits width n) = n := by
  have hzeros : ∀ (k : Nat) (digits : List Char),
      digitsValue (List.replicate k '0' ++ digits) = digitsValue digits := by
    intro k digits
    induction k with
    | zero => rfl
    | succ k ih => exact ih
  rw [paddedDigits, hzeros]
  exact Nat.ofDigitChars_ten_toDigits

theorem width_le_length_paddedDigits (width n : Nat) : width ≤ (paddedDigits width n).length := by
  rw [paddedDigits, List.length_append, List.length_replicate]
  omega

/-- A number that fits its width takes no more than that. -/
theorem length_paddedDigits (hwidth : 0 < width) (h : n < 10 ^ width) :
    (paddedDigits width n).length = width := by
  have hlength := (Nat.length_toDigits_le_iff (b := 10) (by decide) hwidth).2 h
  rw [paddedDigits, List.length_append, List.length_replicate]
  omega

end PaddedDigits

namespace Calendar

/-! ## Reading digits -/

/-- Nothing goes on with the digits in front. -/
def EndsDigits (rest : List Char) : Prop := ∀ c ∈ rest.head?, c.isDigit = false

theorem endsDigits_cons {c : Char} (h : c.isDigit = false) (rest : List Char) :
    EndsDigits (c :: rest) := by
  intro d hd
  obtain rfl := Option.some.inj hd
  exact h

theorem EndsDigits.takeWhile {rest : List Char} (h : EndsDigits rest) :
    rest.takeWhile Char.isDigit = [] := by
  cases rest with
  | nil => rfl
  | cons c rest => exact List.takeWhile_cons_of_neg (by simp [h c rfl])

/-- Digits are taken up to the most there may be, or up to where they end. -/
theorem digits?_append {least most : Nat} {digits rest : List Char}
    (hdigits : ∀ c ∈ digits, c.isDigit = true) (hleast : least ≤ digits.length)
    (hmost : digits.length ≤ most) (hrest : digits.length = most ∨ EndsDigits rest) :
    digits? least most (digits ++ rest) = some (digitsValue digits, rest) := by
  have hnone : (rest.take (most - digits.length)).takeWhile Char.isDigit = [] := by
    rcases hrest with hfull | hends
    · rw [hfull, Nat.sub_self]
      rfl
    · refine EndsDigits.takeWhile fun c hc => hends c ?_
      rw [List.head?_take] at hc
      split at hc
      · cases hc
      · exact hc
  -- what is taken besides the digits adds none
  have hrun : ((digits ++ rest).take most).takeWhile Char.isDigit = digits := by
    rw [List.take_append, List.take_of_length_le hmost, List.takeWhile_append_of_pos hdigits,
      hnone, List.append_nil]
  simp only [digits?, hrun, if_neg (Nat.not_lt.2 hleast), List.drop_left]

/-- A number that is written with its full width. -/
theorem digits?_paddedDigits {least width n : Nat} (hleast : least ≤ width) (hwidth : 0 < width)
    (h : n < 10 ^ width) (rest : List Char) :
    digits? least width (paddedDigits width n ++ rest) = some (n, rest) := by
  have hlength := length_paddedDigits hwidth h
  rw [digits?_append (fun c => isDigit_of_mem_paddedDigits) (by omega) (by omega) (.inl hlength),
    digitsValue_paddedDigits]

theorem isBlank_of_isDigit {c : Char} (h : c.isDigit = true) : isBlank c = false := by
  apply isBlank_of_isIdentifierChar
  simp [isIdentifierChar, Char.isAlphanum, h]

/-- The digits of a number are not empty. -/
theorem exists_paddedDigits_append {width : Nat} (hwidth : 0 < width) (n : Nat)
    (rest : List Char) :
    ∃ c tail, c.isDigit = true ∧ paddedDigits width n ++ rest = c :: tail := by
  have hlength := width_le_length_paddedDigits width n
  cases hdigits : paddedDigits width n with
  | nil =>
    rw [hdigits] at hlength
    exact absurd hlength (Nat.not_le.2 hwidth)
  | cons c tail =>
    have hmem : c ∈ paddedDigits width n := by
      rw [hdigits]
      exact List.mem_cons_self
    exact ⟨c, tail ++ rest, isDigit_of_mem_paddedDigits hmem, rfl⟩

theorem trimLeft_cons {c : Char} (h : isBlank c = false) (rest : List Char) :
    trimLeft (c :: rest) = c :: rest :=
  List.dropWhile_cons_of_neg (by simp [h])

theorem trimLeft_paddedDigits {width : Nat} (hwidth : 0 < width) (n : Nat) (rest : List Char) :
    trimLeft (paddedDigits width n ++ rest) = paddedDigits width n ++ rest := by
  obtain ⟨c, tail, hc, htext⟩ := exists_paddedDigits_append hwidth n rest
  rw [htext, trimLeft_cons (isBlank_of_isDigit hc)]

/-- A field of two digits. -/
theorem field?_paddedDigits {n : Nat} (h : n < 100) (rest : List Char) :
    field? (paddedDigits 2 n ++ rest) = some (n, rest) := by
  rw [field?, trimLeft_paddedDigits (by decide)]
  exact digits?_paddedDigits (by decide) (by decide) h rest

/-- A mark of its own, without blanks in front of it. -/
theorem mark?_cons {c : Char} (h : isBlank c = false) (rest : List Char) :
    mark? c (trimLeft (c :: rest)) = some rest := by
  rw [trimLeft_cons h, mark?, if_pos rfl]

/-! ## Dates -/

/-- A year without a sign. -/
theorem year?_of_isDigit {c : Char} (h : c.isDigit = true) (rest : List Char) :
    year? (c :: rest) = (digits? 1 4 (c :: rest)).map fun x => ((x.1 : Int), x.2) := by
  unfold year?
  split
  · rename_i hminus
    rw [(List.cons.inj hminus).1] at h
    exact absurd h (by decide)
  · rename_i hplus
    rw [(List.cons.inj hplus).1] at h
    exact absurd h (by decide)
  · rfl

/-- The digits behind the sign of a year. -/
theorem digits?_signed {rest : List Char} (hrest : EndsDigits rest) (n : Nat) :
    digits? 1 (paddedDigits 4 n ++ rest).length (paddedDigits 4 n ++ rest) = some (n, rest) := by
  have hlength := width_le_length_paddedDigits 4 n
  rw [digits?_append (fun c => isDigit_of_mem_paddedDigits) (by omega) (by simp) (.inr hrest),
    digitsValue_paddedDigits]

theorem year?_yearDigits (year : Int) (rest : List Char) (hrest : EndsDigits rest) :
    year? (yearDigits year ++ rest) = some (year, rest) := by
  rw [yearDigits]
  split
  · rename_i hnegative
    rw [List.cons_append, year?, digits?_signed hrest, Option.map_some]
    exact congrArg (fun y : Int => some (y, rest)) (by omega)
  · split
    · rename_i hnegative hlarge
      rw [List.cons_append, year?, digits?_signed hrest, Option.map_some]
      exact congrArg (fun y : Int => some (y, rest)) (by omega)
    · -- four digits are read without a sign, so it is the first of them that tells
      rename_i hnegative hlarge
      obtain ⟨c, tail, hc, htext⟩ :=
        exists_paddedDigits_append (by decide : 0 < 4) year.natAbs rest
      have hyear : (year.natAbs : Int) = year := by omega
      rw [htext, year?_of_isDigit hc, ← htext,
        digits?_paddedDigits (by decide) (by decide) (by omega), Option.map_some, hyear]

theorem trimLeft_yearDigits (year : Int) (rest : List Char) :
    trimLeft (yearDigits year ++ rest) = yearDigits year ++ rest := by
  rw [yearDigits]
  split
  · rfl
  · split
    · rfl
    · exact trimLeft_paddedDigits (by decide) _ rest

theorem daysInMonth_le (year : Int) (month : Nat) : daysInMonth year month ≤ 31 := by
  rw [daysInMonth]
  split
  · split <;> decide
  · split <;> decide

/-- A date in front of a text. -/
theorem lenientDate?_chars (d : Date) (rest : List Char) :
    lenientDate? true (d.chars ++ rest) = some (d, rest) := by
  obtain ⟨-, -, -, hmonth, -, hday⟩ := d.isCivil
  have hmonthField := field?_paddedDigits (n := d.month) (by omega)
    ('-' :: (paddedDigits 2 d.day ++ rest))
  have hdayField := field?_paddedDigits (n := d.day)
    (Nat.lt_of_le_of_lt (hday.trans (daysInMonth_le _ _)) (by decide)) rest
  have hyear := year?_yearDigits d.year ('-' :: (paddedDigits 2 d.month ++
    '-' :: (paddedDigits 2 d.day ++ rest))) (endsDigits_cons rfl _)
  have hdash := mark?_cons (c := '-') rfl
  have hdate : Date.ofCivil? d.year d.month d.day = some d := dif_pos d.isCivil
  simp [lenientDate?, Date.chars, trimLeft_yearDigits, hyear, hdash, hmonthField, hdayField, hdate]

/-! ## Times -/

/-- A fraction in some digits, up to nine. -/
theorem fraction?_paddedDigits (width n : Nat) {rest : List Char} (hwidth : 0 < width)
    (hnine : width ≤ 9) (h : n < 10 ^ width) (hrest : EndsDigits rest) :
    fraction? ('.' :: (paddedDigits width n ++ rest)) = some (n * 10 ^ (9 - width), rest) := by
  have hall : ∀ c ∈ paddedDigits width n, c.isDigit = true := fun c => isDigit_of_mem_paddedDigits
  have hlength := length_paddedDigits hwidth h
  have htake : (paddedDigits width n ++ rest).takeWhile Char.isDigit = paddedDigits width n := by
    rw [List.takeWhile_append_of_pos hall, hrest.takeWhile, List.append_nil]
  have hdrop : (paddedDigits width n ++ rest).dropWhile Char.isDigit = rest := by
    have hwhole := List.takeWhile_append_dropWhile (p := Char.isDigit)
      (l := paddedDigits width n ++ rest)
    rw [htake] at hwhole
    exact List.append_cancel_left hwhole
  have hkept : (paddedDigits width n).take 9 = paddedDigits width n :=
    List.take_of_length_le (by omega)
  have hnonempty : paddedDigits width n ≠ [] := by
    intro hnil
    rw [hnil] at hlength
    exact hwidth.ne hlength
  simp [fraction?, htake, hdrop, hkept, hnonempty, hlength, digitsValue_paddedDigits]

/-- The fraction of a second is read back from the fewest digits that lose nothing. -/
theorem fraction?_fractionDigits (nanosecond : Nat) (h : nanosecond < 1000000000)
    (rest : List Char) : fraction? (Instant.fractionDigits nanosecond ++ 'Z' :: rest) =
      some (nanosecond, 'Z' :: rest) := by
  have hrest : EndsDigits ('Z' :: rest) := endsDigits_cons rfl rest
  rw [Instant.fractionDigits]
  split
  · rename_i hzero
    rw [hzero]
    rfl
  · split
    · have hthree := fraction?_paddedDigits 3 (nanosecond / 1000000) (by decide) (by decide)
        (by omega) hrest
      have hvalue : nanosecond / 1000000 * 10 ^ (9 - 3) = nanosecond := by omega
      rwa [hvalue] at hthree
    · split
      · have hsix := fraction?_paddedDigits 6 (nanosecond / 1000) (by decide) (by decide)
          (by omega) hrest
        have hvalue : nanosecond / 1000 * 10 ^ (9 - 6) = nanosecond := by omega
        rwa [hvalue] at hsix
      · have hnine := fraction?_paddedDigits 9 nanosecond (by decide) (by decide) h hrest
        rwa [Nat.sub_self, Nat.pow_zero, Nat.mul_one] at hnine

/-- An instant given in universal time is on the day given. -/
theorem instantAt?_universal (date : Date) {hour minute second nanosecond : Nat}
    (hhour : hour < 24) (hminute : minute < 60) (hsecond : second < 61)
    (hnanosecond : nanosecond < 1000000000) {t : Instant} (hdate : t.date = date)
    (hofDay : 3600 * hour + 60 * minute + (if second = 60 then 59 else second) = t.second)
    (hnano : (if second = 60 then nanosecond + 1000000000 else nanosecond) = t.nanosecond) :
    instantAt? date hour minute second nanosecond 0 = some t := by
  have hfields : ¬(24 ≤ hour ∨ 60 ≤ minute ∨ 61 ≤ second ∨ 1000000000 ≤ nanosecond) := by omega
  have hbound := t.second_lt
  -- without an offset neither the day before nor the day after is reached
  have hnotBefore : ¬((t.second : Int) - 60 * 0 < 0) := by omega
  have hnotAfter : ¬(86400 ≤ (t.second : Int) - 60 * 0) := by omega
  have hmod : (((t.second : Int) - 60 * 0) % 86400).toNat = t.second := by omega
  rw [instantAt?, if_neg hfields]
  simp only [hofDay, hnano, if_neg hnotBefore, if_neg hnotAfter, hmod]
  subst hdate
  exact dif_pos ⟨t.second_lt, t.nanosecond_lt⟩

end Calendar

/-- A date is read back from its text. -/
theorem Date.readLenient?_text (d : Date) : readLenient? d.text = some d := by
  have hdate := lenientDate?_chars d []
  rw [List.append_nil] at hdate
  rw [readLenient?, text, String.toList_ofList, hdate]
  rfl

namespace Instant

/-- What is read from the text of an instant is the time that is written. -/
theorem readLenient?_text_eq_instantAt? (t : Instant) : readLenient? t.text =
    instantAt? t.date (t.second / 3600) (t.second / 60 % 60)
      (t.second % 60 + if 1000000000 ≤ t.nanosecond then 1 else 0)
      (if 1000000000 ≤ t.nanosecond then t.nanosecond - 1000000000 else t.nanosecond) 0 := by
  have hsecond := t.second_lt
  have hnanosecond := t.nanosecond_lt
  rw [text, timeChars]
  -- of the second and the fraction that are written only their bounds matter
  generalize hwritten : (t.second % 60 + if 1000000000 ≤ t.nanosecond then 1 else 0) = second
  generalize hfraction : (if 1000000000 ≤ t.nanosecond then t.nanosecond - 1000000000
    else t.nanosecond) = nanosecond
  have hdate := lenientDate?_chars t.date ('T' :: (paddedDigits 2 (t.second / 3600) ++ ':' ::
    (paddedDigits 2 (t.second / 60 % 60) ++ ':' :: (paddedDigits 2 second ++
      (fractionDigits nanosecond ++ ['Z'])))))
  have hcolon := mark?_cons (c := ':') rfl
  have hhourField := field?_paddedDigits (n := t.second / 3600) (by omega)
  have hminuteField := field?_paddedDigits (n := t.second / 60 % 60) (by omega)
  have hsecondField := field?_paddedDigits (n := second) (by split at hwritten <;> omega)
  have hfractionField := fraction?_fractionDigits nanosecond
    (by split at hfraction <;> omega) []
  have hzone : (lenientOffset? (trimLeft ['Z'])).bind atEnd? = some 0 := by decide
  simp [readLenient?, timeMark?, hdate, hcolon, hhourField, hminuteField, hsecondField,
    hfractionField, hzone]

/-- From its text an instant is read back, unless it is in a leap second within a minute. The text
of such a one is that of the second behind it. -/
theorem readLenient?_text (t : Instant) : readLenient? t.text =
    if t.nanosecond < 1000000000 ∨ t.second % 60 = 59 then some t else t.nextSecond? := by
  have hsecond := t.second_lt
  have hnanosecond := t.nanosecond_lt
  rw [readLenient?_text_eq_instantAt?]
  by_cases hleap : 1000000000 ≤ t.nanosecond
  · rw [if_pos hleap, if_pos hleap]
    by_cases hlast : t.second % 60 = 59
    · -- it is written as second sixty, which is read as a leap second
      rw [if_pos (.inr hlast)]
      apply instantAt?_universal t.date (t := t) (by omega) (by omega) (by omega) (by omega) rfl
      · rw [if_pos (by omega)]
        omega
      · rw [if_pos (by omega)]
        omega
    · -- it is written with the number of the second behind it
      rw [if_neg (by omega), nextSecond?, dif_pos (by omega)]
      refine instantAt?_universal t.date (by omega) (by omega) (by omega) (by omega) ?_ ?_ ?_
      · rfl
      · rw [if_neg (by omega)]
        show _ = t.second + 1
        omega
      · rw [if_neg (by omega)]
        exact (if_neg (Nat.not_lt.2 hleap)).symm
  · rw [if_neg hleap, if_neg hleap, if_pos (.inl (Nat.not_le.1 hleap))]
    apply instantAt?_universal t.date (t := t) (by omega) (by omega) (by omega) (by omega) rfl
    · rw [if_neg (by omega)]
      omega
    · rw [if_neg (by omega)]

/-- The instants that are read back from their texts. -/
theorem readLenient?_text_eq_some_iff (t : Instant) :
    readLenient? t.text = some t ↔ t.nanosecond < 1000000000 ∨ t.second % 60 = 59 := by
  rw [readLenient?_text]
  split
  · rename_i h
    exact iff_of_true rfl h
  · rename_i h
    refine iff_of_false (fun hnext => ?_) h
    have hsecond := t.second_lt
    rw [nextSecond?, dif_pos (by omega)] at hnext
    have hsame := congrArg Instant.second (Option.some.inj hnext)
    exact absurd hsame (Nat.succ_ne_self _)

end Instant

end FeatureStore
