import FeatureStore.Change
import FeatureStore.Proofs.Filter.Documents
import FeatureStore.Query

/-!
# What is exchanged as text

Queries, filters, staging operations and kinds of changes are handed over as JSON texts. Reading
such a text gives back what was written, with every literal of the kind that it had, as long as no
more than `Json.depthLimit` containers lie inside each other in the document. That is the limit of
the reader of texts: a filter nested more deeply is written, but its text is refused
(`decode_encode`, `not_decode_encode_negations`). Operations, kinds of changes and values never come
near the limit.
-/

set_option autoImplicit false

namespace FeatureStore

/-- The text of a document that is written for a value gives the value back. -/
theorem Json.Encodes.decode {α : Type} {read : Json → Option α} {json : Json} {a : α}
    (h : Encodes read json a) (hdepth : json.depth ≤ depthLimit) :
    (parse? json.compact).bind read = some a := by
  rw [parse?_compact h.isWritable, cut_eq_self (by omega)]
  exact h.reads

/-- Data that may be absent are there unless they are `null`. -/
theorem Json.optional_of_ne_null {α : Type} {read : Json → Option α} {json : Json}
    (h : json ≠ .null) : optional read (some json) = (read json).map some := by
  unfold optional
  split
  · rename_i heq
    exact absurd (Option.some.inj heq) h
  · rename_i heq
    rw [Option.some.inj heq]
  · rename_i heq
    cases heq

/-! ## Filters -/

/-- From its text a filter is read back exactly if its document is not nested too deeply. -/
theorem Filter.decode_eq {filter : Filter} (h : ∀ p ∈ filter.printed, p.ReadsBack) :
    (Json.parse? filter.toJson.compact).bind ofJson? =
      if filter.toJson.depth ≤ Json.depthLimit then some filter else none := by
  have hfilter := encodes_toJson h
  by_cases hdepth : filter.toJson.depth ≤ Json.depthLimit
  · rw [if_pos hdepth]
    exact hfilter.decode hdepth
  · -- a container too far in comes back as no data, and no filter is read from such a document
    rw [if_neg hdepth]
    rw [Json.parse?_compact hfilter.isWritable]
    refine ofJson?_of_not_isReadable ?_
    rw [Bool.eq_false_iff, ne_eq, Json.isReadable_cut hfilter.isWritable (Nat.zero_le _)]
    omega

/-! ## Queries -/

namespace SortKey

theorem encodes_toJson (key : SortKey) : Json.Encodes ofJson? key.toJson key := by
  have hrecord : Json.record? ["field", "direction"] key.toJson = some [some (.string key.field),
      some (.string (if key.descending then "descending" else "ascending"))] :=
    Json.record?_fields rfl (by decide)
  have hdirection : Json.Encodes (Json.named? .free directionNames)
      (.string (if key.descending then "descending" else "ascending")) key.descending :=
    Json.encodes_name .free (by cases key.descending <;> rfl)
  refine ⟨⟨trivial, trivial, trivial⟩, ?_⟩
  simp [ofJson?, hrecord, Json.required, Json.withDefault, Json.string?, hdirection.reads]

end SortKey

namespace Query

/-- The numbers, instants and dates of a query. -/
def printed (q : Query) : List Printed := q.filter.elim [] Filter.printed

/-- The document of a query, with another one in place of that of its filter. -/
def document (q : Query) (filter : Json) : Json :=
  .object [("feature_type", .string q.featureType), ("limit", .integer q.limit),
    ("offset", .integer q.offset), ("sort_keys", .array (q.sortKeys.map SortKey.toJson)),
    ("filter", filter), ("id", Json.ofOption .string q.id)]

variable {q : Query}

theorem itemsDepth_sortKeys (keys : List SortKey) :
    Json.itemsDepth (keys.map SortKey.toJson) ≤ 1 := by
  induction keys with
  | nil => exact Nat.zero_le 1
  | cons key keys ih => exact Nat.max_le.2 ⟨Nat.le_refl 1, ih⟩

theorem depth_id (id : Option String) : (Json.ofOption .string id).depth = 0 := by
  cases id <;> rfl

/-- How deep a query is nested depends on its filter only. -/
theorem depth_document_le_iff (filter : Json) :
    (q.document filter).depth ≤ Json.depthLimit ↔ 1 + filter.depth ≤ Json.depthLimit := by
  have hkeys := itemsDepth_sortKeys q.sortKeys
  simp only [document, Json.depth, Json.fieldsDepth, depth_id, Json.depthLimit]
  omega

/-- What is read for a query from its text, apart from its filter. -/
theorem cut_document (filter : Json) : (q.document filter).cut 0 = q.document (filter.cut 1) := by
  -- nothing but the filter can lie too far in
  have hkeys := itemsDepth_sortKeys q.sortKeys
  have hitems : Json.cutItems 2 (q.sortKeys.map SortKey.toJson) =
      q.sortKeys.map SortKey.toJson := by
    apply Json.cutItems_eq_self
    rw [Json.depthLimit]
    omega
  have hid : (Json.ofOption .string q.id).cut 1 = Json.ofOption .string q.id := by
    cases q.id <;> rfl
  simp [document, Json.cut, Json.cutFields, hitems, hid, Json.depthLimit]

/-- A query is read from its document up to its filter. -/
theorem ofJson?_document (hlimit : q.limit < countLimit) (hoffset : q.offset < countLimit)
    (filter : Json) : ofJson? (q.document filter) =
      (Json.optional Filter.ofJson? (some filter)).map fun found => { q with filter := found } := by
  have hrecord : Json.record? ["feature_type", "limit", "offset", "sort_keys", "filter", "id"]
      (q.document filter) = some [some (.string q.featureType), some (.integer q.limit),
        some (.integer q.offset), some (.array (q.sortKeys.map SortKey.toJson)), some filter,
        some (Json.ofOption .string q.id)] := Json.record?_fields rfl (by decide)
  have hcount : ∀ n : Nat, n < countLimit →
      Json.natBelow? countLimit (.integer n) = some n := fun n hn => if_pos hn
  have hkeys : Json.Encodes (Json.list? SortKey.ofJson?)
      (.array (q.sortKeys.map SortKey.toJson)) q.sortKeys := .list fun key _ => key.encodes_toJson
  have hid : Json.optional Json.string? (some (Json.ofOption .string q.id)) = some q.id := by
    cases q.id <;> rfl
  simp [ofJson?, hrecord, Json.required, Json.string?, Json.withDefault, hcount _ hlimit,
    hcount _ hoffset, hkeys.reads, hid, Option.map_eq_bind]

theorem isWritable_toJson (hlimit : q.limit < countLimit) (hoffset : q.offset < countLimit)
    (h : ∀ p ∈ q.printed, p.ReadsBack) : q.toJson.IsWritable := by
  have hcount : ∀ n : Nat, n < countLimit → (Json.integer n).IsWritable := by
    intro n hn
    exact ⟨(Int.neg_nonpos_of_nonneg (Int.natCast_nonneg _)).trans (Int.natCast_nonneg n),
      Int.ofNat_lt.2 hn⟩
  have hkeys : Json.Encodes (Json.list? SortKey.ofJson?)
      (.array (q.sortKeys.map SortKey.toJson)) q.sortKeys := .list fun key _ => key.encodes_toJson
  have hfilter : (Json.ofOption Filter.toJson q.filter).IsWritable := by
    rw [printed] at h
    cases hq : q.filter with
    | none => exact trivial
    | some filter =>
      rw [hq] at h
      exact (Filter.encodes_toJson h).isWritable
  have hid : (Json.ofOption .string q.id).IsWritable := by
    cases q.id <;> exact trivial
  exact ⟨trivial, hcount _ hlimit, hcount _ hoffset, hkeys.isWritable, hfilter, hid, trivial⟩

/-- A query is read from its document. -/
theorem ofJson?_toJson (hlimit : q.limit < countLimit) (hoffset : q.offset < countLimit)
    (h : ∀ p ∈ q.printed, p.ReadsBack) : ofJson? q.toJson = some q := by
  have hfilter : Json.optional Filter.ofJson? (some (Json.ofOption Filter.toJson q.filter)) =
      some q.filter := by
    rw [printed] at h
    cases hq : q.filter with
    | none => rfl
    | some filter =>
      rw [hq] at h
      -- a document that is `null` would be read as no filter
      have hnull : filter.toJson ≠ .null := by
        obtain ⟨fields, hfields⟩ := filter.exists_fields
        simp [hfields]
      rw [Json.ofOption, Json.optional_of_ne_null hnull, (Filter.encodes_toJson h).reads]
      rfl
  have hdocument := ofJson?_document hlimit hoffset (Json.ofOption Filter.toJson q.filter)
  rw [hfilter] at hdocument
  exact hdocument

/-- What is read for the filter of a query, if there is one. -/
theorem optional_cut_filter {filter : Filter} (h : ∀ p ∈ filter.printed, p.ReadsBack) :
    Json.optional Filter.ofJson? (some (filter.toJson.cut 1)) =
      if 1 + filter.toJson.depth ≤ Json.depthLimit then some (some filter) else none := by
  have hfilter := Filter.encodes_toJson h
  have hnull : filter.toJson.cut 1 ≠ .null := by
    obtain ⟨fields, hfields⟩ := filter.exists_fields
    rw [hfields, Json.cut]
    split <;> simp
  rw [Json.optional_of_ne_null hnull]
  by_cases hdepth : 1 + filter.toJson.depth ≤ Json.depthLimit
  · rw [if_pos hdepth, Json.cut_eq_self hdepth, hfilter.reads]
    rfl
  · rw [if_neg hdepth, Filter.ofJson?_of_not_isReadable]
    · rfl
    · rw [Bool.eq_false_iff, ne_eq, Json.isReadable_cut hfilter.isWritable (by decide)]
      exact hdepth

/-- From its text a query is read back exactly if its document is not nested too deeply. -/
theorem decode_eq (hlimit : q.limit < countLimit) (hoffset : q.offset < countLimit)
    (h : ∀ p ∈ q.printed, p.ReadsBack) :
    (Json.parse? q.toJson.compact).bind ofJson? =
      if q.toJson.depth ≤ Json.depthLimit then some q else none := by
  have hdocument : q.toJson = q.document (Json.ofOption Filter.toJson q.filter) := rfl
  rw [Json.parse?_compact (isWritable_toJson hlimit hoffset h), hdocument, cut_document]
  show ofJson? _ = _
  rw [ofJson?_document hlimit hoffset]
  rw [printed] at h
  cases hq : q.filter with
  | none =>
    have hdepth : (q.document .null).depth ≤ Json.depthLimit :=
      (depth_document_le_iff .null).2 (by decide)
    have hsame : ({ q with filter := none } : Query) = q := by rw [← hq]
    rw [Json.ofOption, if_pos hdepth]
    exact congrArg some hsame
  | some filter =>
    rw [hq] at h
    have hsame : ({ q with filter := some filter } : Query) = q := by rw [← hq]
    rw [Json.ofOption, optional_cut_filter h]
    -- the filter stands one level below the document
    by_cases hdepth : 1 + filter.toJson.depth ≤ Json.depthLimit
    · rw [if_pos hdepth, if_pos ((depth_document_le_iff _).2 hdepth)]
      exact congrArg some hsame
    · rw [if_neg hdepth, if_neg fun hle => hdepth ((depth_document_le_iff _).1 hle)]
      rfl

end Query

/-! ## Changes -/

namespace ValueOp

theorem encodes_toJson (op : ValueOp) : Json.Encodes ofJson? op.toJson op := by
  cases op with
  | row path =>
    have hfields : (Json.object [("path", .string path)]).IsWritable := ⟨trivial, trivial⟩
    obtain ⟨hwhole, htagged, hrecord⟩ :=
      Json.taggedRecord .free "op" "row" kinds ["path"] rfl (by decide) hfields
    refine ⟨hwhole, ?_⟩
    simp [toJson, ofJson?, htagged, ofVariant?, hrecord, Json.required, Json.string?]
  | value path column content =>
    have hfields : (Json.object [("path", .string path), ("column", .string column),
        ("value", .string content)]).IsWritable := ⟨trivial, trivial, trivial, trivial⟩
    obtain ⟨hwhole, htagged, hrecord⟩ := Json.taggedRecord .free "op" "value" kinds
      ["path", "column", "value"] rfl (by decide) hfields
    refine ⟨hwhole, ?_⟩
    simp [toJson, ofJson?, htagged, ofVariant?, hrecord, Json.required, Json.string?]
  | null path column =>
    have hfields : (Json.object [("path", .string path), ("column", .string column)]).IsWritable :=
      ⟨trivial, trivial, trivial⟩
    obtain ⟨hwhole, htagged, hrecord⟩ :=
      Json.taggedRecord .free "op" "null" kinds ["path", "column"] rfl (by decide) hfields
    refine ⟨hwhole, ?_⟩
    simp [toJson, ofJson?, htagged, ofVariant?, hrecord, Json.required, Json.string?]

theorem depth_toJson (op : ValueOp) : op.toJson.depth = 1 := by
  cases op <;> rfl

end ValueOp

namespace ChangeKind

theorem encodes_toJson (kind : ChangeKind) : Json.Encodes ofJson? kind.toJson kind := by
  have hid : ∀ id, idOf? (.object [("id", .string id)]) = some id := fun id => rfl
  cases kind with
  | create => exact ⟨trivial, rfl⟩
  | update id =>
    refine ⟨⟨⟨trivial, trivial⟩, trivial⟩, ?_⟩
    simp [toJson, ofJson?, Json.variant?, hid]
  | delete id =>
    refine ⟨⟨⟨trivial, trivial⟩, trivial⟩, ?_⟩
    simp [toJson, ofJson?, Json.variant?, hid]

theorem depth_toJson_le (kind : ChangeKind) : kind.toJson.depth ≤ 2 := by
  cases kind with
  | create => exact Nat.zero_le 2
  | update id => exact Nat.le_refl 2
  | delete id => exact Nat.le_refl 2

end ChangeKind

/-! ## Values -/

theorem Value.depth_toJson (v : Value) : v.toJson.depth = 0 := by
  cases v <;> rfl

/-! ## Decoding undoes encoding -/

/-- Decoding undoes encoding. A filter, and a query whose counts are within their limit, is read
from its document however deep it is. It is read back from its text exactly if no more than
`Json.depthLimit` containers lie inside each other in the document; the text of a deeper one is
refused. A staging operation, a kind of change and a scalar value are always read back, a scalar
value as one of the same kind. Of the numbers in them it is taken for granted that their texts read
back to the same ones, and an instant in a leap second is in the last second of its minute. -/
theorem decode_encode :
    (∀ filter : Filter, (∀ p ∈ filter.printed, p.IsRegular) →
      Filter.ofJson? filter.toJson = some filter ∧
      (Json.parse? filter.toJson.compact).bind Filter.ofJson? =
        if filter.toJson.depth ≤ Json.depthLimit then some filter else none) ∧
    (∀ query : Query, query.limit < countLimit → query.offset < countLimit →
      (∀ p ∈ query.printed, p.IsRegular) →
        Query.ofJson? query.toJson = some query ∧
        (Json.parse? query.toJson.compact).bind Query.ofJson? =
          if query.toJson.depth ≤ Json.depthLimit then some query else none) ∧
    (∀ op : ValueOp, (Json.parse? op.toJson.compact).bind ValueOp.ofJson? = some op) ∧
    (∀ kind : ChangeKind,
      (Json.parse? kind.toJson.compact).bind ChangeKind.ofJson? = some kind) ∧
    ∀ value : Value, (∀ p ∈ value.printed, p.IsRegular) →
      (Json.parse? value.toJson.compact).bind Value.ofJson? = some value := by
  refine ⟨fun filter h => ?_, fun query hlimit hoffset h => ?_, fun op => ?_, fun kind => ?_,
    fun value h => ?_⟩
  · have h := Printed.forall_readsBack h
    exact ⟨(Filter.encodes_toJson h).reads, Filter.decode_eq h⟩
  · have h := Printed.forall_readsBack h
    exact ⟨Query.ofJson?_toJson hlimit hoffset h, Query.decode_eq hlimit hoffset h⟩
  · exact op.encodes_toJson.decode (by rw [op.depth_toJson]; decide)
  · exact kind.encodes_toJson.decode (kind.depth_toJson_le.trans (by decide))
  · have h := Printed.forall_readsBack h
    exact (Value.encodes_toJson h).decode (by rw [value.depth_toJson]; exact Nat.zero_le _)

/-- A page of parcels in an area, that were seen since a second and are of one of two sizes, one of
them whole and beyond sixty-four bits. -/
theorem decode_encode_parcels :
    let size (n : Nat) : Operand := .literal (.float (Binary64.ofRatio false n 1))
    let since : Instant := ⟨⟨2020, 2, 29, by decide⟩, 3599, 500000000, by decide, by decide⟩
    let filter : Filter := .all [
      Filter.spatial .intersects "geometry"
        (.envelope ⟨.zero, .zero, Binary64.ofRatio false 1 1, Binary64.ofRatio false 3 2⟩),
      Filter.temporal .during "seen" (.interval (.instant since) .unbounded),
      .negation (.test (.oneOf (.property "size") [size 2, size (Nat.pow 10 19)]))]
    let query : Query := ⟨"parcel", 5, 0, [⟨"name", true⟩], some filter, none⟩
    (∀ p ∈ query.printed, p.IsRegular) ∧
      (Json.parse? filter.toJson.compact).bind Filter.ofJson? = some filter ∧
      (Json.parse? query.toJson.compact).bind Query.ofJson? = some query ∧
      (Json.parse? (Value.int 2).toJson.compact).bind Value.ofJson? = some (.int 2) := by
  intro size since filter query
  have hprinted : ∀ p ∈ filter.printed, p.IsRegular := by decide +kernel
  obtain ⟨hfilter, hquery, -, -, hvalue⟩ := decode_encode
  refine ⟨hprinted, ?_, ?_, hvalue (.int 2) (by simp [Value.printed])⟩
  · rw [(hfilter filter hprinted).2, if_pos (by decide)]
  · rw [(hquery query (by decide) (by decide) hprinted).2, if_pos (by decide)]

/-! ## Deep filters -/

/-- A truth value negated a number of times. -/
def Filter.negations : Nat → Filter
  | 0 => .constant true
  | n + 1 => .negation (negations n)

theorem Filter.printed_negations (n : Nat) : (negations n).printed = [] := by
  induction n with
  | zero => rfl
  | succ n ih => exact ih

theorem Filter.depth_negations (n : Nat) : (negations n).toJson.depth = n + 1 := by
  induction n with
  | zero => rfl
  | succ n ih =>
    rw [negations, toJson]
    simp [Json.depth, Json.fieldsDepth, ih]

/-- A filter of too many negations is written, and its text is refused. -/
theorem not_decode_encode_negations :
    (∀ p ∈ (Filter.negations 127).printed, p.IsRegular) ∧
      (Json.parse? (Filter.negations 127).toJson.compact).bind Filter.ofJson? = none := by
  have hprinted : ∀ p ∈ (Filter.negations 127).printed, p.IsRegular := by
    rw [Filter.printed_negations]
    simp
  refine ⟨hprinted, ?_⟩
  rw [Filter.decode_eq (Printed.forall_readsBack hprinted), Filter.depth_negations]
  rfl

end FeatureStore
