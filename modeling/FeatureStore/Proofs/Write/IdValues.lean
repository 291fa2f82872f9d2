import FeatureStore.Proofs.Write.Literals

/-!
# Values of identifiers

An identifier stands in a statement as a number if it consists of digits, and as a text otherwise.
What its literal denotes (`KeyValue.ofId`) is shown as the identifier again, but for zeros in front
that a number does not need (`plainId`). So two identifiers denote one value exactly if they differ
in such zeros only (`KeyValue.ofId_eq_iff`), and then a statement made for one of them addresses the
row of the other (`idValues_iff`).
-/

set_option autoImplicit false

namespace FeatureStore

/-! ## Numerals -/

/-- Digits and nothing else, at least one. -/
def isNumeral (cs : List Char) : Bool := !cs.isEmpty && cs.all Char.isDigit

theorem isNumeral_iff {cs : List Char} :
    isNumeral cs = true ↔ cs ≠ [] ∧ ∀ c ∈ cs, c.isDigit = true := by
  rw [isNumeral, Bool.and_eq_true, List.all_eq_true]
  simp

/-- Digits without the zeros in front that are not needed. -/
def withoutZeros : List Char → List Char
  | '0' :: c :: rest => withoutZeros (c :: rest)
  | cs => cs

theorem length_withoutZeros_le (cs : List Char) : (withoutZeros cs).length ≤ cs.length := by
  fun_induction withoutZeros cs with
  | case1 c rest ih => exact ih.trans (Nat.le_succ _)
  | case2 cs _ => exact Nat.le_refl _

theorem withoutZeros_eq_self_iff {cs : List Char} :
    withoutZeros cs = cs ↔ ∀ c rest, cs ≠ '0' :: c :: rest := by
  fun_cases withoutZeros cs with
  | case1 c rest =>
    refine iff_of_false (fun h => ?_) fun h => h c rest rfl
    have hlength := length_withoutZeros_le (c :: rest)
    rw [h] at hlength
    simp at hlength
  | case2 cs hother => exact iff_of_true rfl hother

/-- The number that a digit spells is written as the digit. -/
theorem toDigits_digit {c : Char} (h : c.isDigit = true) :
    Nat.toDigits 10 (c.toNat - '0'.toNat) = [c] ∧ c.toNat - '0'.toNat < 10 := by
  have hrange : 48 ≤ c.toNat ∧ c.toNat ≤ 57 := by
    simpa [Char.isDigit, UInt32.le_iff_toNat_le] using h
  have hzero : '0'.toNat = 48 := rfl
  have hdigits : ∀ d : Fin 10, Nat.digitChar d = Char.ofNat (48 + d) := by decide
  have hlt : c.toNat - 48 < 10 := by omega
  have hback : 48 + (c.toNat - 48) = c.toNat := by omega
  rw [hzero, Nat.toDigits_of_lt_base hlt, hdigits ⟨c.toNat - 48, hlt⟩]
  exact ⟨by simp only [hback, Char.ofNat_toNat], hlt⟩

/-- Digits put behind a number are written behind it. -/
theorem toDigits_ofDigitChars_of_pos : ∀ {digits : List Char} {front : Nat}, 0 < front →
    (∀ c ∈ digits, c.isDigit = true) →
      Nat.toDigits 10 (Nat.ofDigitChars 10 digits front) = Nat.toDigits 10 front ++ digits
  | [], front, _, _ => by simp
  | c :: digits, front, hfront, h => by
    obtain ⟨hc, hdigits⟩ := List.forall_mem_cons.1 h
    obtain ⟨hdigit, hlt⟩ := toDigits_digit hc
    have hpos : 0 < 10 * front + (c.toNat - '0'.toNat) := by omega
    rw [Nat.ofDigitChars_cons, toDigits_ofDigitChars_of_pos hpos hdigits,
      ← Nat.toDigits_append_toDigits (by decide) hfront hlt, hdigit]
    simp

/-- The number that digits spell is written without the zeros in front. -/
theorem toDigits_ofDigitChars {digits : List Char} (h : isNumeral digits = true) :
    Nat.toDigits 10 (Nat.ofDigitChars 10 digits 0) = withoutZeros digits := by
  fun_induction withoutZeros digits with
  | case1 c rest ih =>
    obtain ⟨-, hall⟩ := isNumeral_iff.1 h
    rw [Nat.ofDigitChars_cons]
    exact ih (isNumeral_iff.2 ⟨by simp, (List.forall_mem_cons.1 hall).2⟩)
  | case2 digits hother =>
    obtain ⟨hne, hall⟩ := isNumeral_iff.1 h
    obtain ⟨c, rest, rfl⟩ := List.exists_cons_of_ne_nil hne
    obtain ⟨hc, hrest⟩ := List.forall_mem_cons.1 hall
    obtain ⟨hdigit, -⟩ := toDigits_digit hc
    rw [Nat.ofDigitChars_cons, Nat.mul_zero, Nat.zero_add]
    -- the first digit is no zero unless it is the only one
    cases rest with
    | nil => rw [Nat.ofDigitChars_nil, hdigit]
    | cons d rest =>
      have hpos : 0 < c.toNat - '0'.toNat := by
        refine Nat.pos_of_ne_zero fun hzero => hother d rest ?_
        rw [hzero] at hdigit
        rw [← List.singleton_inj.1 hdigit]
        rfl
      rw [toDigits_ofDigitChars_of_pos hpos hrest, hdigit]
      rfl

/-! ## Values -/

/-- A value that identifies a row. -/
inductive KeyValue where
  | integer (value : Nat)
  | text (value : String)
  deriving DecidableEq

/-- The value that an item denotes, if it is a literal. -/
def Item.keyValue? : Item → Option KeyValue
  | .word text => if isNumeral text then some (.integer (Nat.ofDigitChars 10 text 0)) else none
  | .quoted .single text => some (.text (String.ofList text))
  | _ => none

/-- An identifier without the zeros in front that a number does not need. -/
def plainId (id : String) : String :=
  if isNumeral id.toList then String.ofList (withoutZeros id.toList) else id

/-- An identifier is its own number unless it consists of digits behind a zero. -/
theorem plainId_eq_self_iff {id : String} : plainId id = id ↔
    ¬(isNumeral id.toList = true ∧ ∃ c rest, id.toList = '0' :: c :: rest) := by
  rw [plainId]
  split
  · rename_i hnumeral
    rw [← String.toList_inj, String.toList_ofList, withoutZeros_eq_self_iff]
    simp [hnumeral]
  · rename_i hnumeral
    simp [hnumeral]

namespace KeyValue

/-- A value as a text. -/
def shown : KeyValue → String
  | .integer value => toString value
  | .text value => value

/-- The value that a literal denotes. -/
def denoted? (literal : String) : Option KeyValue :=
  match itemsOf literal.toList with
  | some [item] => item.keyValue?
  | _ => none

/-- The value of an identifier. -/
def ofId (id : String) : KeyValue :=
  if isNumeral id.toList then .integer (Nat.ofDigitChars 10 id.toList 0) else .text id

theorem keyValue?_idItem (id : String) : (idItem id).keyValue? = some (ofId id) := by
  have hnumeral : (!id.toList.isEmpty && id.toList.all Char.isDigit) = isNumeral id.toList := rfl
  rw [idItem, ofId, hnumeral]
  split
  · rename_i h
    rw [Item.keyValue?, if_pos h]
  · rw [Item.keyValue?, String.ofList_toList]

theorem denoted?_idLiteral (id : String) :
    denoted? ((idLiteral id).render 0) = some (ofId id) := by
  rw [denoted?, (spells_idLiteral id).itemsOf_eq]
  exact keyValue?_idItem id

theorem shown_ofId (id : String) : (ofId id).shown = plainId id := by
  rw [ofId, plainId]
  split
  · rename_i h
    rw [shown, ← String.toList_inj, String.toList_ofList, Nat.toString_eq_repr, Nat.toList_repr,
      toDigits_ofDigitChars h]
  · rfl

/-- The number that an identifier spells does not need the zeros in front. -/
theorem ofId_plainId (id : String) : ofId (plainId id) = ofId id := by
  rw [plainId]
  split
  · rename_i h
    have hdigits : isNumeral (withoutZeros id.toList) = true := by
      rw [← toDigits_ofDigitChars h]
      exact isNumeral_iff.2 ⟨Nat.toDigits_ne_nil,
        fun c hc => Nat.isDigit_of_mem_toDigits (b := 10) (by omega) (by omega) hc⟩
    rw [ofId, ofId, String.toList_ofList, if_pos hdigits, if_pos h, ← toDigits_ofDigitChars h,
      Nat.ofDigitChars_ten_toDigits]
  · rfl

/-- Identifiers denote one value exactly if they differ in needless zeros only. -/
theorem ofId_eq_iff {a b : String} : ofId a = ofId b ↔ plainId a = plainId b := by
  constructor
  · intro h
    rw [← shown_ofId, ← shown_ofId, h]
  · intro h
    rw [← ofId_plainId a, h, ofId_plainId]

end KeyValue

/-! ## Statements -/

/-- The values behind equals signs. -/
def comparedValues : List Item → List KeyValue
  | .sign '=' :: item :: rest => item.keyValue?.toList ++ comparedValues rest
  | _ :: rest => comparedValues rest
  | [] => []

/-- The values in the parentheses at the end. -/
def listedValues (items : List Item) : List KeyValue :=
  match items.getLast? with
  | some (.group inner) => inner.filterMap Item.keyValue?
  | _ => []

theorem listedValues_cons_cons (a b : Item) (items : List Item) :
    listedValues (a :: b :: items) = listedValues (b :: items) := by
  rw [listedValues, listedValues, List.getLast?_cons_cons]

/-- The text of a statement compares columns with these values, sets them to these or lists
these. -/
def Statement.Addresses (statement : Statement) (ids : CapturedIds) (values : List KeyValue) :
    Prop :=
  ∃ text items, statement.text ids = .ok text ∧ itemsOf text.toList = some items ∧
    comparedValues items ++ listedValues items = values

namespace Statement

variable {ids : CapturedIds}

theorem addresses_of_items {statement : Statement} (hnames : statement.HasNames)
    {items : List Item} (h : statement.items ids = .ok items) :
    statement.Addresses ids (comparedValues items ++ listedValues items) := by
  have htexts : Together (fun text items => itemsOf text.toList = some items) (statement.text ids)
      (statement.items ids) :=
    (together_items ids hnames).map_left fun _ _ hspells => hspells.itemsOf_eq
  rw [h] at htexts
  cases htext : statement.text ids with
  | error e =>
    rw [htext] at htexts
    cases htexts
  | ok text =>
    rw [htext] at htexts
    cases htexts with
    | ok hitems => exact ⟨text, items, htext, hitems, rfl⟩

/-- A removal compares a column with the value of the identifier. -/
theorem addresses_delete (ids : CapturedIds) {table column : String} (id : String)
    (htable : IsName table) (hcolumn : IsName column) :
    (delete table column id).Addresses ids [.ofId id] := by
  have hnames : (delete table column id).HasNames := ⟨htable, hcolumn⟩
  have hitems : (delete table column id).items ids = .ok
      (wordItems ["DELETE", "FROM", table, "WHERE", column] ++ [.sign '=', idItem id] ++
        wordItems ["RETURNING", column]) := rfl
  have haddresses := addresses_of_items hnames hitems
  simpa [wordItems, comparedValues, listedValues, KeyValue.keyValue?_idItem] using haddresses

/-- A link lists the values of the two rows. -/
theorem addresses_link {table parentField childField first second : String}
    {parent child : RowRef} (hnames : (link table parentField childField parent child).HasNames)
    (hparent : ids.get parent = .ok first) (hchild : ids.get child = .ok second) :
    (link table parentField childField parent child).Addresses ids
      [.ofId first, .ofId second] := by
  have hitems : (link table parentField childField parent child).items ids =
      .ok (wordItems ["INSERT", "INTO", table] ++
        [.group (listedItems [wordItems [parentField], wordItems [childField]])] ++
          wordItems ["VALUES"] ++ [.group (listedItems [[idItem first], [idItem second]])]) := by
    rw [items, hparent, hchild]
    rfl
  have haddresses := addresses_of_items hnames hitems
  have hlisted : (listedItems [[idItem first], [idItem second]]).filterMap Item.keyValue? =
      [.ofId first, .ofId second] := by
    show [idItem first, .sign ',', idItem second].filterMap Item.keyValue? = _
    rw [List.filterMap_cons_some (KeyValue.keyValue?_idItem first), List.filterMap_cons_none rfl,
      List.filterMap_cons_some (KeyValue.keyValue?_idItem second), List.filterMap_nil]
  simpa [wordItems, comparedValues, listedValues, hlisted] using haddresses

/-- A row is pointed at the value of another, and found by its own. -/
theorem addresses_pointAt {table field key source target : String} {parent child : RowRef}
    (hnames : (pointAt table field key parent child).HasNames)
    (hparent : ids.get parent = .ok source) (hchild : ids.get child = .ok target) :
    (pointAt table field key parent child).Addresses ids [.ofId target, .ofId source] := by
  have hitems : (pointAt table field key parent child).items ids =
      .ok (wordItems ["UPDATE", table, "SET", field] ++ [.sign '=', idItem target] ++
        wordItems ["WHERE", key] ++ [.sign '=', idItem source]) := by
    rw [items, hparent, hchild]
    rfl
  have haddresses := addresses_of_items hnames hitems
  have hlast : ∀ id, listedValues [idItem id] = [] := fun id => by
    rw [idItem]
    split <;> rfl
  simpa [wordItems, comparedValues, listedValues_cons_cons, hlast, KeyValue.keyValue?_idItem]
    using haddresses

/-- The values of a statement are read off its text. -/
theorem Addresses.unique {statement : Statement} {values others : List KeyValue}
    (h : statement.Addresses ids values) (h' : statement.Addresses ids others) :
    values = others := by
  obtain ⟨text, items, htext, hitems, rfl⟩ := h
  obtain ⟨text', items', htext', hitems', rfl⟩ := h'
  obtain rfl := Except.ok.inj (htext.symm.trans htext')
  rw [Option.some.inj (hitems.symm.trans hitems')]

/-- Two removals compare with one value exactly if their identifiers differ in needless zeros
only. -/
theorem addresses_deletes_iff (ids : CapturedIds) {table column a b : String}
    (htable : IsName table) (hcolumn : IsName column) :
    (∃ values, (delete table column a).Addresses ids values ∧
      (delete table column b).Addresses ids values) ↔ plainId a = plainId b := by
  rw [← KeyValue.ofId_eq_iff]
  have ha := addresses_delete ids a htable hcolumn
  have hb := addresses_delete ids b htable hcolumn
  constructor
  · rintro ⟨values, hvalues, hothers⟩
    rw [hvalues.unique ha] at hothers
    exact List.singleton_inj.1 (hothers.unique hb)
  · intro h
    rw [← h] at hb
    exact ⟨_, ha, hb⟩

end Statement

/-- The literal of an identifier denotes a value that is shown as the identifier without needless
zeros, so it is shown as the identifier itself unless that consists of digits behind a zero. Another
identifier denotes the same value, and removals by the two compare with one, exactly if they differ
in such zeros only. Links and references have the values of the identifiers of their rows. -/
theorem idValues_iff (ids : CapturedIds) (id : String) :
    (∃ value, KeyValue.denoted? ((idLiteral id).render 0) = some value ∧
      value.shown = plainId id ∧ (value.shown = id ↔
        ¬(isNumeral id.toList = true ∧ ∃ c rest, id.toList = '0' :: c :: rest))) ∧
    (∀ other, KeyValue.denoted? ((idLiteral id).render 0) =
      KeyValue.denoted? ((idLiteral other).render 0) ↔ plainId id = plainId other) ∧
    (∀ table column other, IsName table → IsName column →
      ((∃ values, (Statement.delete table column id).Addresses ids values ∧
        (Statement.delete table column other).Addresses ids values) ↔
          plainId id = plainId other)) ∧
    ∀ parent child other, ids.get parent = .ok id → ids.get child = .ok other →
      (∀ table parentField childField, IsName table → IsName parentField → IsName childField →
        (Statement.link table parentField childField parent child).Addresses ids
          [.ofId id, .ofId other]) ∧
      ∀ table field key, IsName table → IsName field → IsName key →
        (Statement.pointAt table field key parent child).Addresses ids
          [.ofId other, .ofId id] := by
  refine ⟨⟨_, KeyValue.denoted?_idLiteral id, KeyValue.shown_ofId id, ?_⟩, fun other => ?_,
    fun table column other => Statement.addresses_deletes_iff ids,
    fun parent child other hparent hchild => ⟨?_, ?_⟩⟩
  · rw [KeyValue.shown_ofId, plainId_eq_self_iff]
  · rw [KeyValue.denoted?_idLiteral, KeyValue.denoted?_idLiteral, Option.some_inj,
      KeyValue.ofId_eq_iff]
  · intro table parentField childField htable hparentField hchildField
    exact Statement.addresses_link ⟨htable, hparentField, hchildField⟩ hparent hchild
  · intro table field key htable hfield hkey
    exact Statement.addresses_pointAt ⟨htable, hfield, hkey⟩ hparent hchild

/-- A number and a text with a quote, which a junction row links. -/
theorem idValues_iff_link :
    let ids : CapturedIds := ⟨[(⟨0, 0⟩, "42"), (⟨1, 0⟩, "a'b")]⟩
    let statement := Statement.link "parcel_2_tag" "parcel_id" "tag_id" ⟨0, 0⟩ ⟨1, 0⟩
    statement.text ids =
        .ok "INSERT INTO parcel_2_tag (parcel_id,tag_id) VALUES (42,'a''b')" ∧
      statement.Addresses ids [.integer 42, .text "a'b"] ∧
      ¬ ∃ values, (Statement.delete "parcel" "id" "42").Addresses ids values ∧
        (Statement.delete "parcel" "id" "a'b").Addresses ids values := by
  intro ids statement
  obtain ⟨-, -, hdeletes, hlinks⟩ := idValues_iff ids "42"
  refine ⟨by decide +kernel, ?_, ?_⟩
  · exact (hlinks ⟨0, 0⟩ ⟨1, 0⟩ "a'b" rfl rfl).1 "parcel_2_tag" "parcel_id" "tag_id"
      (by decide) (by decide) (by decide)
  · rw [hdeletes "parcel" "id" "a'b" (by decide) (by decide)]
    decide +kernel

/-- A zero in front is lost: the removal of one row compares with the number of another. -/
theorem not_idValues_zeros :
    KeyValue.denoted? ((idLiteral "007").render 0) =
        KeyValue.denoted? ((idLiteral "7").render 0) ∧
      (∀ value, KeyValue.denoted? ((idLiteral "007").render 0) = some value →
        value.shown ≠ "007") ∧
      ∀ ids, (Statement.delete "parcel" "id" "007").text ids =
          .ok "DELETE FROM parcel WHERE id=007 RETURNING id" ∧
        ∃ values, (Statement.delete "parcel" "id" "007").Addresses ids values ∧
          (Statement.delete "parcel" "id" "7").Addresses ids values := by
  have hdenoted : KeyValue.denoted? ((idLiteral "007").render 0) = some (.integer 7) := by
    decide +kernel
  refine ⟨by decide +kernel, fun value hvalue => ?_, fun ids => ⟨by rfl, ?_⟩⟩
  · rw [hdenoted] at hvalue
    rw [← Option.some.inj hvalue]
    decide +kernel
  · exact (Statement.addresses_deletes_iff ids (by decide) (by decide)).2 (by decide +kernel)

end FeatureStore
