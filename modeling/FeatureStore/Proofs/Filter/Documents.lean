import FeatureStore.Filter.Document
import FeatureStore.Proofs.Calendar.Texts
import FeatureStore.Proofs.Json.Written

/-!
# Filters behind their documents

Reading a document undoes writing it. Values, geometries, temporal literals, operands and filters
are laid out as bare scalars, arrays, records, plain variants and tagged variants that nest in each
other. For each of these shapes it is said once what is read from it (`Json.record?_fields`,
`Json.tagged?_object`, `Json.Encodes.list`); then every value is the one that its document is
written for, in any place and at any depth (`Operand.encodes_toJson`, `Filter.encodes_toJson`).

The numbers, instants and dates in a value (`Filter.printed`) have texts of their own, which read
back to them (`Printed.ReadsBack`). Of dates and instants this is known, but for an instant in a
leap second that no minute ends with; of numbers it is taken for granted (`Printed.readsBack_iff`).
-/

set_option autoImplicit false

namespace FeatureStore

/-! ## Parts with texts of their own -/

/-- A part of a value that is printed as a text of its own. -/
inductive Printed where
  | number (x : Binary64)
  | instant (t : Instant)
  | date (d : Date)

/-- The text of a part reads back to the same number, instant or date. -/
def Printed.ReadsBack : Printed → Prop
  | .number x => x.ReadsBack
  | .instant t => Instant.readLenient? t.text = some t
  | .date d => Date.readLenient? d.text = some d

/-- What is asked of a part: a number has a text that reads back to it, and an instant in a leap
second is in the last second of its minute. Nothing is asked of dates. -/
def Printed.IsRegular : Printed → Prop
  | .number x => x.ReadsBack
  | .instant t => t.nanosecond < 1000000000 ∨ t.second % 60 = 59
  | .date _ => True

instance : DecidablePred Printed.IsRegular
  | .number x => inferInstanceAs (Decidable x.ReadsBack)
  | .instant t => inferInstanceAs (Decidable (t.nanosecond < 1000000000 ∨ t.second % 60 = 59))
  | .date _ => inferInstanceAs (Decidable True)

/-- The text of a part reads back exactly if the part is regular. -/
theorem Printed.readsBack_iff (p : Printed) : p.ReadsBack ↔ p.IsRegular := by
  cases p with
  | number x => exact Iff.rfl
  | instant t => exact t.readLenient?_text_eq_some_iff
  | date d => exact iff_true_intro d.readLenient?_text

theorem Printed.forall_readsBack {l : List Printed} (h : ∀ p ∈ l, p.IsRegular) :
    ∀ p ∈ l, p.ReadsBack := fun p hp => p.readsBack_iff.2 (h p hp)

/-- The number in a value. -/
def Value.printed : Value → List Printed
  | .float x => [.number x]
  | _ => []

/-- The numbers of a position. -/
def Coordinate.printed (c : Coordinate) : List Printed := [.number c.x, .number c.y]

/-- The numbers of a box. -/
def Envelope.printed (e : Envelope) : List Printed :=
  [.number e.minX, .number e.minY, .number e.maxX, .number e.maxY]

/-- The numbers of a geometry. -/
def Geometry.printed : Geometry → List Printed
  | .point c => c.printed
  | .lineString cs => cs.flatMap Coordinate.printed
  | .polygon rings => rings.flatMap fun ring => ring.flatMap Coordinate.printed
  | .multiPolygon polygons =>
    polygons.flatMap fun rings => rings.flatMap fun ring => ring.flatMap Coordinate.printed
  | .envelope e => e.printed

/-- The instant or date of a bound. -/
def IntervalBound.printed : IntervalBound → List Printed
  | .unbounded => []
  | .instant t => [.instant t]
  | .date d => [.date d]

/-- The instants and dates of a temporal literal. -/
def TemporalLiteral.printed : TemporalLiteral → List Printed
  | .instant t => [.instant t]
  | .date d => [.date d]
  | .interval start stop => start.printed ++ stop.printed

namespace Operand

mutual
/-- The numbers, instants and dates of an operand. -/
def printed : Operand → List Printed
  | .property _ => []
  | .literal value => value.printed
  | .geometry value => value.printed
  | .temporal value => value.printed
  | .interval start stop => start.printed ++ stop.printed
  | .array values => values.flatMap Value.printed
  | .apply _ args => printedOfList args

/-- The numbers, instants and dates of a list of operands. -/
def printedOfList : List Operand → List Printed
  | [] => []
  | operand :: rest => operand.printed ++ printedOfList rest
end

end Operand

namespace Filter

mutual
/-- The numbers, instants and dates of a filter. -/
def printed : Filter → List Printed
  | .all args => printedOfList args
  | .any args => printedOfList args
  | .negation arg => arg.printed
  | .test predicate => Operand.printedOfList predicate.operands
  | .array _ left right => left.printed ++ right.printed
  | .constant _ => []

/-- The numbers, instants and dates of a list of filters. -/
def printedOfList : List Filter → List Printed
  | [] => []
  | filter :: rest => filter.printed ++ printedOfList rest
end

end Filter

/-! ## Shapes of documents -/

namespace Json

mutual
/-- A document that is written for what it is has no unreadable part. -/
theorem isReadable_of_isWritable : ∀ {json : Json}, json.IsWritable → json.isReadable = true
  | .unreadable, h => h.elim
  | .null, _ => rfl
  | .bool _, _ => rfl
  | .integer _, _ => rfl
  | .float _, _ => rfl
  | .string _, _ => rfl
  | .array _, h => itemsReadable_of_itemsWritable h
  | .object _, h => fieldsReadable_of_fieldsWritable h

theorem itemsReadable_of_itemsWritable : ∀ {items : List Json}, ItemsWritable items →
    itemsReadable items = true
  | [], _ => rfl
  | _ :: _, h => by
    rw [itemsReadable, isReadable_of_isWritable h.1, itemsReadable_of_itemsWritable h.2]
    rfl

theorem fieldsReadable_of_fieldsWritable : ∀ {fields : List (String × Json)},
    FieldsWritable fields → fieldsReadable fields = true
  | [], _ => rfl
  | _ :: _, h => by
    rw [fieldsReadable, isReadable_of_isWritable h.1, fieldsReadable_of_fieldsWritable h.2]
    rfl
end

theorem valuesOf_cons (key : String) (field : String × Json) (rest : List (String × Json)) :
    valuesOf key (field :: rest) =
      if field.1 = key then field.2 :: valuesOf key rest else valuesOf key rest := by
  rw [valuesOf, List.filterMap_cons]
  by_cases h : field.1 = key
  · simp [h, valuesOf]
  · simp [h, valuesOf]

theorem valuesOf_of_not_mem {key : String} {fields : List (String × Json)}
    (h : key ∉ fields.map Prod.fst) : valuesOf key fields = [] := by
  induction fields with
  | nil => rfl
  | cons field rest ih =>
    rw [List.map_cons, List.mem_cons, not_or] at h
    rw [valuesOf_cons, if_neg (Ne.symm h.1), ih h.2]

/-- A key that stands once has one value. -/
theorem valuesOf_of_mem {fields : List (String × Json)} (h : (fields.map Prod.fst).Nodup)
    {field : String × Json} (hfield : field ∈ fields) : valuesOf field.1 fields = [field.2] := by
  induction fields with
  | nil => cases hfield
  | cons first rest ih =>
    rw [List.map_cons, List.nodup_cons] at h
    rw [valuesOf_cons]
    rcases List.mem_cons.1 hfield with rfl | hfield
    · rw [if_pos rfl, valuesOf_of_not_mem h.1]
    · have hne : first.1 ≠ field.1 := by
        intro heq
        rw [heq] at h
        exact h.1 (List.mem_map_of_mem hfield)
      rw [if_neg hne, ih h.2 hfield]

/-- A record that has just the fields named has their values. -/
theorem record?_fields {names : List String} {fields : List (String × Json)}
    (hnames : fields.map Prod.fst = names) (hnodup : names.Nodup) :
    record? names (.object fields) = some (fields.map fun field => some field.2) := by
  subst hnames
  have hpart : ∀ part : List (String × Json), part ⊆ fields →
      (part.map Prod.fst).mapM (field? · fields) = some (part.map fun field => some field.2) := by
    intro part hpart
    induction part with
    | nil => rfl
    | cons field part ih =>
      obtain ⟨hmem, hrest⟩ := List.cons_subset.1 hpart
      have hfield : field? field.1 fields = some (some field.2) := by
        rw [field?, valuesOf_of_mem hnodup hmem]
      rw [List.map_cons, List.mapM_cons, hfield, ih hrest]
      rfl
  exact hpart fields (List.Subset.refl fields)

/-- A tagged variant whose tag stands in front of its fields. -/
theorem tagged?_object {place : Place} {tag : String} (kind : String) (names : List String)
    {fields : List (String × Json)} (htag : tag ∉ fields.map Prod.fst)
    (hreadable : place = .free →
      (Json.object ((tag, .string kind) :: fields)).isReadable = true) :
    tagged? place tag names (.object ((tag, .string kind) :: fields)) =
      some (kind, .object fields) := by
  have hfield : field? tag ((tag, .string kind) :: fields) = some (some (.string kind)) := by
    rw [field?, valuesOf_cons, if_pos rfl, valuesOf_of_not_mem htag]
  have hrest : ((tag, Json.string kind) :: fields).filter (fun f => f.1 != tag) = fields := by
    rw [List.filter_cons_of_neg (by simp), List.filter_eq_self]
    intro field hmem
    simp only [bne_iff_ne, ne_eq]
    rintro rfl
    exact htag (List.mem_map_of_mem hmem)
  rw [tagged?, if_neg]
  · simp only [hfield, hrest, tagName?, Option.map_some]
  · rintro ⟨hplace, hunreadable⟩
    rw [hreadable hplace] at hunreadable
    cases hunreadable

/-- The document of a tagged variant whose data are a record: the tag, and behind it the fields
named, all of which stand for what they are. -/
theorem taggedRecord (place : Place) (tag kind : String) (kinds names : List String)
    {fields : List (String × Json)} (hnames : fields.map Prod.fst = names)
    (hnodup : (tag :: names).Nodup) (h : (Json.object fields).IsWritable) :
    (Json.object ((tag, .string kind) :: fields)).IsWritable ∧
      tagged? place tag kinds (.object ((tag, .string kind) :: fields)) =
        some (kind, .object fields) ∧
      record? names (.object fields) = some (fields.map fun field => some field.2) := by
  obtain ⟨htag, hnames'⟩ := List.nodup_cons.1 hnodup
  have hwhole : (Json.object ((tag, .string kind) :: fields)).IsWritable := ⟨trivial, h⟩
  refine ⟨hwhole, tagged?_object kind kinds (hnames ▸ htag) fun _ => ?_,
    record?_fields hnames hnames'⟩
  exact isReadable_of_isWritable hwhole

/-- A document is written for a value: its text stands for it, and the value is read from it. -/
structure Encodes {α : Type} (read : Json → Option α) (json : Json) (a : α) : Prop where
  isWritable : json.IsWritable
  reads : read json = some a

namespace Encodes

variable {α : Type} {read : Json → Option α}

/-- One more item in front of an array. -/
theorem cons {item : Json} {items : List Json} {a : α} {rest : List α} (h : Encodes read item a)
    (hrest : Encodes (list? read) (.array items) rest) :
    Encodes (list? read) (.array (item :: items)) (a :: rest) := by
  have hitems : items.mapM read = some rest := hrest.reads
  refine ⟨⟨h.isWritable, hrest.isWritable⟩, ?_⟩
  show (item :: items).mapM read = some (a :: rest)
  rw [List.mapM_cons, h.reads, hitems]
  rfl

/-- An array whose items are written for the members of a list. -/
theorem list {write : α → Json} {members : List α}
    (h : ∀ a ∈ members, Encodes read (write a) a) :
    Encodes (list? read) (.array (members.map write)) members := by
  induction members with
  | nil => exact ⟨trivial, rfl⟩
  | cons a members ih =>
    obtain ⟨ha, hrest⟩ := List.forall_mem_cons.1 h
    exact ha.cons (ih hrest)

/-- A plain variant whose data are written for a value. -/
theorem isWritable_variant {read : Json → Option α} {data : Json} {a : α}
    (h : Encodes read data a) (name : String) : (Json.object [(name, data)]).IsWritable :=
  ⟨h.isWritable, trivial⟩

end Encodes

end Json

/-! ## Literals -/

theorem Value.encodes_toJson {v : Value} (h : ∀ p ∈ v.printed, p.ReadsBack) :
    Json.Encodes ofJson? v.toJson v := by
  cases v with
  | null => exact ⟨trivial, rfl⟩
  | bool b => exact ⟨trivial, rfl⟩
  | int n =>
    have hlow : -(Nat.pow 2 63 : Int) ≤ n.toInt := n.le_toInt
    have hhigh : n.toInt < (Nat.pow 2 63 : Int) := n.toInt_lt
    refine ⟨⟨hlow, hhigh.trans (by decide)⟩, ?_⟩
    have hfits : fitsInt64 n.toInt = true := by
      rw [fitsInt64, Bool.and_eq_true, decide_eq_true_eq, decide_eq_true_eq]
      exact ⟨hlow, hhigh⟩
    rw [toJson, ofJson?, if_pos hfits, Int64.ofInt_toInt]
  | float x => exact ⟨h (.number x) (List.mem_singleton_self _), rfl⟩
  | text s => exact ⟨trivial, rfl⟩

theorem Coordinate.encodes_toJson {c : Coordinate} (h : ∀ p ∈ c.printed, p.ReadsBack) :
    Json.Encodes ofJson? c.toJson c := by
  have hx : c.x.ReadsBack := h (.number c.x) (by simp [printed])
  have hy : c.y.ReadsBack := h (.number c.y) (by simp [printed])
  exact ⟨⟨hx, hy, trivial⟩, rfl⟩

theorem Envelope.encodes_toJson {e : Envelope} (h : ∀ p ∈ e.printed, p.ReadsBack) :
    Json.Encodes ofJson? e.toJson e := by
  have hnumber : ∀ x, Printed.number x ∈ e.printed → x.ReadsBack := fun x hx => h (.number x) hx
  constructor
  · exact ⟨hnumber _ (by simp [printed]), hnumber _ (by simp [printed]),
      hnumber _ (by simp [printed]), hnumber _ (by simp [printed]), trivial⟩
  · have hrecord : Json.record? ["min_x", "min_y", "max_x", "max_y"] e.toJson =
        some [some (.float e.minX), some (.float e.minY), some (.float e.maxX),
          some (.float e.maxY)] := Json.record?_fields rfl (by decide)
    rw [ofJson?, hrecord]
    rfl

/-- Rings, polygons and lists of polygons are arrays of what they consist of. -/
theorem Geometry.encodes_ringJson {ring : List Coordinate}
    (h : ∀ p ∈ ring.flatMap Coordinate.printed, p.ReadsBack) :
    Json.Encodes (Json.list? Coordinate.ofJson?) (ringJson ring) ring :=
  .list fun c hc => Coordinate.encodes_toJson fun p hp => h p (List.mem_flatMap.2 ⟨c, hc, hp⟩)

theorem Geometry.encodes_polygonJson {rings : List (List Coordinate)}
    (h : ∀ p ∈ rings.flatMap (fun ring => ring.flatMap Coordinate.printed), p.ReadsBack) :
    Json.Encodes (Json.list? (Json.list? Coordinate.ofJson?)) (polygonJson rings) rings :=
  .list fun ring hring => encodes_ringJson fun p hp => h p (List.mem_flatMap.2 ⟨ring, hring, hp⟩)

theorem Geometry.encodes_toJson {g : Geometry} (h : ∀ p ∈ g.printed, p.ReadsBack) :
    Json.Encodes ofJson? g.toJson g := by
  cases g with
  | point c =>
    have hc := Coordinate.encodes_toJson h
    refine ⟨hc.isWritable_variant "point", ?_⟩
    simp [toJson, ofJson?, Json.variant?, hc.reads]
  | lineString cs =>
    have hcs := encodes_ringJson h
    refine ⟨hcs.isWritable_variant "line_string", ?_⟩
    simp [toJson, ofJson?, Json.variant?, hcs.reads]
  | polygon rings =>
    have hrings := encodes_polygonJson h
    refine ⟨hrings.isWritable_variant "polygon", ?_⟩
    simp [toJson, ofJson?, Json.variant?, hrings.reads]
  | multiPolygon polygons =>
    have hpolygons : Json.Encodes (Json.list? (Json.list? (Json.list? Coordinate.ofJson?)))
        (.array (polygons.map polygonJson)) polygons := .list fun rings hrings =>
      encodes_polygonJson fun p hp => h p (List.mem_flatMap.2 ⟨rings, hrings, hp⟩)
    refine ⟨hpolygons.isWritable_variant "multi_polygon", ?_⟩
    simp [toJson, ofJson?, Json.variant?, hpolygons.reads]
  | envelope e =>
    have he := Envelope.encodes_toJson h
    refine ⟨he.isWritable_variant "envelope", ?_⟩
    simp [toJson, ofJson?, Json.variant?, he.reads]

theorem IntervalBound.encodes_toJson (place : Json.Place) {bound : IntervalBound}
    (h : ∀ p ∈ bound.printed, p.ReadsBack) : Json.Encodes (ofJson? place) bound.toJson bound := by
  cases bound with
  | unbounded => exact ⟨trivial, rfl⟩
  | instant t =>
    have ht : Instant.readLenient? t.text = some t := h (.instant t) (List.mem_singleton_self _)
    refine ⟨⟨trivial, trivial⟩, ?_⟩
    simp [toJson, ofJson?, Json.variant?, Json.string?, ht]
  | date d =>
    have hd : Date.readLenient? d.text = some d := h (.date d) (List.mem_singleton_self _)
    refine ⟨⟨trivial, trivial⟩, ?_⟩
    simp [toJson, ofJson?, Json.variant?, Json.string?, hd]

theorem TemporalLiteral.encodes_toJson (place : Json.Place) {literal : TemporalLiteral}
    (h : ∀ p ∈ literal.printed, p.ReadsBack) :
    Json.Encodes (ofJson? place) literal.toJson literal := by
  cases literal with
  | instant t =>
    have ht : Instant.readLenient? t.text = some t := h (.instant t) (List.mem_singleton_self _)
    refine ⟨⟨trivial, trivial⟩, ?_⟩
    simp [toJson, ofJson?, Json.variant?, Json.string?, ht]
  | date d =>
    have hd : Date.readLenient? d.text = some d := h (.date d) (List.mem_singleton_self _)
    refine ⟨⟨trivial, trivial⟩, ?_⟩
    simp [toJson, ofJson?, Json.variant?, Json.string?, hd]
  | interval start stop =>
    obtain ⟨hstart, hstop⟩ := List.forall_mem_append.1 h
    have hstart := IntervalBound.encodes_toJson place hstart
    have hstop := IntervalBound.encodes_toJson place hstop
    refine ⟨⟨⟨hstart.isWritable, hstop.isWritable, trivial⟩, trivial⟩, ?_⟩
    simp [toJson, ofJson?, Json.variant?, hstart.reads, hstop.reads]

/-! ## Operands -/

/-- A name of a table, as the document of the value that it stands for. -/
theorem Json.encodes_name {α : Type} (place : Place) {table : List (String × α)} {name : String}
    {a : α} (h : table.lookup name = some a) : Encodes (named? place table) (.string name) a :=
  ⟨trivial, h⟩

theorem ScalarFunction.encodes_name (place : Json.Place) (function : ScalarFunction) :
    Json.Encodes (Json.named? place names) (.string function.name) function :=
  Json.encodes_name place (by cases function <;> rfl)

namespace Operand

mutual
/-- An operand is read from its document, wherever it stands. -/
theorem encodes_decode (place : Json.Place) : ∀ (operand : Operand) (depth : Nat),
    operand.toJson.depth < depth → (∀ p ∈ operand.printed, p.ReadsBack) →
      Json.Encodes (decode? place depth) operand.toJson operand
  | operand, 0, hdepth, _ => absurd hdepth (Nat.not_lt_zero _)
  | .property name, depth + 1, _, _ => by
    refine ⟨⟨trivial, trivial⟩, ?_⟩
    simp [toJson, decode?, Json.variant?, Json.string?]
  | .literal value, depth + 1, _, h => by
    have hvalue := Value.encodes_toJson h
    refine ⟨hvalue.isWritable_variant "literal", ?_⟩
    simp [toJson, decode?, Json.variant?, hvalue.reads]
  | .geometry value, depth + 1, _, h => by
    have hvalue := Geometry.encodes_toJson h
    refine ⟨hvalue.isWritable_variant "geometry", ?_⟩
    simp [toJson, decode?, Json.variant?, hvalue.reads]
  | .temporal value, depth + 1, _, h => by
    have hvalue := TemporalLiteral.encodes_toJson place h
    refine ⟨hvalue.isWritable_variant "temporal", ?_⟩
    simp [toJson, decode?, Json.variant?, hvalue.reads]
  | .interval start stop, depth + 1, hdepth, h => by
    obtain ⟨hstart, hstop⟩ := List.forall_mem_append.1 h
    -- the ends lie one level further in, and the reader has one level less left for them
    simp only [toJson, Json.depth, Json.fieldsDepth] at hdepth
    have hstart := encodes_decode place start depth (by omega) hstart
    have hstop := encodes_decode place stop depth (by omega) hstop
    have hrecord : Json.record? ["start", "end"]
        (.object [("start", start.toJson), ("end", stop.toJson)]) =
          some [some start.toJson, some stop.toJson] := Json.record?_fields rfl (by decide)
    refine ⟨⟨⟨hstart.isWritable, hstop.isWritable, trivial⟩, trivial⟩, ?_⟩
    simp [toJson, decode?, Json.variant?, hrecord, Json.required, hstart.reads, hstop.reads]
  | .array values, depth + 1, _, h => by
    have hvalues : Json.Encodes (Json.list? Value.ofJson?) (.array (values.map Value.toJson))
        values := .list fun v hv =>
      Value.encodes_toJson fun p hp => h p (List.mem_flatMap.2 ⟨v, hv, hp⟩)
    refine ⟨hvalues.isWritable_variant "array", ?_⟩
    simp [toJson, decode?, Json.variant?, hvalues.reads]
  | .apply function args, depth + 1, hdepth, h => by
    simp only [toJson, Json.depth, Json.fieldsDepth] at hdepth
    have hargs := encodes_decodeList place args depth (by omega) h
    have hfunction := ScalarFunction.encodes_name place function
    have hrecord : Json.record? ["function", "args"]
        (.object [("function", .string function.name), ("args", .array (listToJson args))]) =
          some [some (.string function.name), some (.array (listToJson args))] :=
      Json.record?_fields rfl (by decide)
    refine ⟨⟨⟨trivial, hargs.isWritable, trivial⟩, trivial⟩, ?_⟩
    simp [toJson, decode?, Json.variant?, hrecord, Json.required, Json.withDefault,
      hfunction.reads, hargs.reads]

/-- A list of operands is read from its document. -/
theorem encodes_decodeList (place : Json.Place) : ∀ (operands : List Operand) (depth : Nat),
    Json.itemsDepth (listToJson operands) < depth →
      (∀ p ∈ printedOfList operands, p.ReadsBack) →
        Json.Encodes (Json.list? (decode? place depth)) (.array (listToJson operands)) operands
  | [], _, _, _ => ⟨trivial, rfl⟩
  | operand :: rest, depth, hdepth, h => by
    obtain ⟨hoperand, hrest⟩ := List.forall_mem_append.1 h
    rw [listToJson, Json.itemsDepth] at hdepth
    have hoperand := encodes_decode place operand depth (by omega) hoperand
    have hrest := encodes_decodeList place rest depth (by omega) hrest
    rw [listToJson]
    exact hoperand.cons hrest
end

/-- An operand is read from its document, wherever it stands. -/
theorem encodes_toJson (place : Json.Place) {operand : Operand}
    (h : ∀ p ∈ operand.printed, p.ReadsBack) :
    Json.Encodes (ofJson? place) operand.toJson operand := by
  have hdecode := encodes_decode place operand (operand.toJson.depth + 1) (Nat.lt_succ_self _) h
  exact ⟨hdecode.isWritable, hdecode.reads⟩

theorem encodes_of_mem (place : Json.Place) : ∀ {operands : List Operand},
    (∀ p ∈ printedOfList operands, p.ReadsBack) →
      ∀ operand ∈ operands, Json.Encodes (ofJson? place) operand.toJson operand
  | [], _ => by simp
  | _ :: _, h => by
    obtain ⟨hoperand, hrest⟩ := List.forall_mem_append.1 h
    exact List.forall_mem_cons.2 ⟨encodes_toJson place hoperand, encodes_of_mem place hrest⟩

theorem listToJson_eq_map (operands : List Operand) :
    listToJson operands = operands.map toJson := by
  induction operands with
  | nil => rfl
  | cons operand rest ih => rw [listToJson, ih, List.map_cons]

end Operand

/-! ## Predicates -/

theorem Comparison.encodes_name (place : Json.Place) (op : Comparison) :
    Json.Encodes (Json.named? place names) (.string op.name) op :=
  Json.encodes_name place (by cases op <;> rfl)

theorem SpatialRelation.encodes_name (place : Json.Place) (relation : SpatialRelation) :
    Json.Encodes (Json.named? place names) (.string relation.name) relation :=
  Json.encodes_name place (by cases relation <;> rfl)

theorem TemporalRelation.encodes_name (place : Json.Place) (relation : TemporalRelation) :
    Json.Encodes (Json.named? place names) (.string relation.name) relation :=
  Json.encodes_name place (by cases relation <;> rfl)

theorem ArrayRelation.encodes_name (place : Json.Place) (relation : ArrayRelation) :
    Json.Encodes (Json.named? place names) (.string relation.name) relation :=
  Json.encodes_name place (by cases relation <;> rfl)

namespace Predicate

/-- The name of the kind of a predicate. -/
def kind : Predicate → String
  | .compare _ _ _ => "compare"
  | .like _ _ => "like"
  | .oneOf _ _ => "in"
  | .isNull _ => "is_null"
  | .between _ _ _ => "between"
  | .spatial _ _ _ => "spatial"
  | .temporal _ _ _ => "temporal"

/-- The fields of a predicate behind its tag. -/
def fields : Predicate → List (String × Json)
  | .compare op left right =>
    [("cmp", .string op.name), ("left", left.toJson), ("right", right.toJson)]
  | .like value pattern => [("value", value.toJson), ("pattern", pattern.toJson)]
  | .oneOf value list =>
    [("value", value.toJson), ("list", .array (Operand.listToJson list))]
  | .isNull value => [("value", value.toJson)]
  | .between value lower upper =>
    [("value", value.toJson), ("lower", lower.toJson), ("upper", upper.toJson)]
  | .spatial relation left right =>
    [("function", .string relation.name), ("left", left.toJson), ("right", right.toJson)]
  | .temporal relation left right =>
    [("function", .string relation.name), ("left", left.toJson), ("right", right.toJson)]

theorem toJson_eq (p : Predicate) :
    p.toJson = .object (("op", .string p.kind) :: p.fields) := by
  cases p <;> rfl

theorem nodup_fields (p : Predicate) : ("op" :: p.fields.map Prod.fst).Nodup := by
  cases p <;> simp [fields]

/-- A predicate is read from the fields behind its tag. -/
theorem encodes_fields {p : Predicate}
    (h : ∀ part ∈ Operand.printedOfList p.operands, part.ReadsBack) :
    Json.Encodes (ofVariant? p.kind) (.object p.fields) p := by
  have hoperands := Operand.encodes_of_mem .tagged h
  cases p with
  | compare op left right =>
    have hleft := hoperands left (by simp [operands])
    have hright := hoperands right (by simp [operands])
    have hop := op.encodes_name .tagged
    have hrecord : Json.record? ["cmp", "left", "right"] (.object (compare op left right).fields) =
        some [some (.string op.name), some left.toJson, some right.toJson] :=
      Json.record?_fields rfl (by decide)
    refine ⟨⟨trivial, hleft.isWritable, hright.isWritable, trivial⟩, ?_⟩
    simp [ofVariant?, kind, hrecord, Json.required, hop.reads, hleft.reads, hright.reads]
  | like value pattern =>
    have hvalue := hoperands value (by simp [operands])
    have hpattern := hoperands pattern (by simp [operands])
    have hrecord : Json.record? ["value", "pattern"] (.object (like value pattern).fields) =
        some [some value.toJson, some pattern.toJson] := Json.record?_fields rfl (by decide)
    refine ⟨⟨hvalue.isWritable, hpattern.isWritable, trivial⟩, ?_⟩
    simp [ofVariant?, kind, hrecord, Json.required, hvalue.reads, hpattern.reads]
  | oneOf value list =>
    have hvalue := hoperands value (by simp [operands])
    have hlist : Json.Encodes (Json.list? (Operand.ofJson? .tagged))
        (.array (Operand.listToJson list)) list := by
      rw [Operand.listToJson_eq_map]
      exact .list fun operand hmem => hoperands operand (List.mem_cons_of_mem _ hmem)
    have hrecord : Json.record? ["value", "list"] (.object (oneOf value list).fields) =
        some [some value.toJson, some (.array (Operand.listToJson list))] :=
      Json.record?_fields rfl (by decide)
    refine ⟨⟨hvalue.isWritable, hlist.isWritable, trivial⟩, ?_⟩
    simp [ofVariant?, kind, hrecord, Json.required, hvalue.reads, hlist.reads]
  | isNull value =>
    have hvalue := hoperands value (by simp [operands])
    have hrecord : Json.record? ["value"] (.object (isNull value).fields) =
        some [some value.toJson] := Json.record?_fields rfl (by decide)
    refine ⟨⟨hvalue.isWritable, trivial⟩, ?_⟩
    simp [ofVariant?, kind, hrecord, Json.required, hvalue.reads]
  | between value lower upper =>
    have hvalue := hoperands value (by simp [operands])
    have hlower := hoperands lower (by simp [operands])
    have hupper := hoperands upper (by simp [operands])
    have hrecord : Json.record? ["value", "lower", "upper"]
        (.object (between value lower upper).fields) =
          some [some value.toJson, some lower.toJson, some upper.toJson] :=
      Json.record?_fields rfl (by decide)
    refine ⟨⟨hvalue.isWritable, hlower.isWritable, hupper.isWritable, trivial⟩, ?_⟩
    simp [ofVariant?, kind, hrecord, Json.required, hvalue.reads, hlower.reads, hupper.reads]
  | spatial relation left right =>
    have hleft := hoperands left (by simp [operands])
    have hright := hoperands right (by simp [operands])
    have hrelation := relation.encodes_name .tagged
    have hrecord : Json.record? ["function", "left", "right"]
        (.object (spatial relation left right).fields) =
          some [some (.string relation.name), some left.toJson, some right.toJson] :=
      Json.record?_fields rfl (by decide)
    refine ⟨⟨trivial, hleft.isWritable, hright.isWritable, trivial⟩, ?_⟩
    simp [ofVariant?, kind, hrecord, Json.required, hrelation.reads, hleft.reads, hright.reads]
  | temporal relation left right =>
    have hleft := hoperands left (by simp [operands])
    have hright := hoperands right (by simp [operands])
    have hrelation := relation.encodes_name .tagged
    have hrecord : Json.record? ["function", "left", "right"]
        (.object (temporal relation left right).fields) =
          some [some (.string relation.name), some left.toJson, some right.toJson] :=
      Json.record?_fields rfl (by decide)
    refine ⟨⟨trivial, hleft.isWritable, hright.isWritable, trivial⟩, ?_⟩
    simp [ofVariant?, kind, hrecord, Json.required, hrelation.reads, hleft.reads, hright.reads]

end Predicate

/-! ## Filters -/

namespace Filter

/-- The tag of a predicate names none of the other kinds of filters. -/
theorem decode?_test (place : Json.Place) (depth : Nat) (p : Predicate)
    (h : Json.tagged? place "op" kinds p.toJson = some (p.kind, .object p.fields)) :
    decode? place (depth + 1) p.toJson =
      (Predicate.ofVariant? p.kind (.object p.fields)).map Filter.test := by
  cases p <;> simp [decode?, h, Predicate.kind, Option.map_eq_bind]

mutual
/-- A filter is read from its document, wherever it stands. -/
theorem encodes_decode (place : Json.Place) : ∀ (filter : Filter) (depth : Nat),
    filter.toJson.depth < depth → (∀ p ∈ filter.printed, p.ReadsBack) →
      Json.Encodes (decode? place depth) filter.toJson filter
  | filter, 0, hdepth, _ => absurd hdepth (Nat.not_lt_zero _)
  | .all args, depth + 1, hdepth, h => by
    simp only [toJson, Json.depth, Json.fieldsDepth] at hdepth
    have hargs := encodes_decodeList args depth (by omega) h
    have hfields : (Json.object [("args", .array (listToJson args))]).IsWritable :=
      ⟨hargs.isWritable, trivial⟩
    obtain ⟨hwhole, htagged, hrecord⟩ :=
      Json.taggedRecord place "op" "and" kinds ["args"] rfl (by decide) hfields
    refine ⟨hwhole, ?_⟩
    simp [toJson, decode?, htagged, hrecord, Json.required, hargs.reads]
  | .any args, depth + 1, hdepth, h => by
    simp only [toJson, Json.depth, Json.fieldsDepth] at hdepth
    have hargs := encodes_decodeList args depth (by omega) h
    have hfields : (Json.object [("args", .array (listToJson args))]).IsWritable :=
      ⟨hargs.isWritable, trivial⟩
    obtain ⟨hwhole, htagged, hrecord⟩ :=
      Json.taggedRecord place "op" "or" kinds ["args"] rfl (by decide) hfields
    refine ⟨hwhole, ?_⟩
    simp [toJson, decode?, htagged, hrecord, Json.required, hargs.reads]
  | .negation arg, depth + 1, hdepth, h => by
    simp only [toJson, Json.depth, Json.fieldsDepth] at hdepth
    -- whatever lies behind a tag is read in the place of tagged data
    have harg := encodes_decode .tagged arg depth (by omega) h
    have hfields : (Json.object [("arg", arg.toJson)]).IsWritable := ⟨harg.isWritable, trivial⟩
    obtain ⟨hwhole, htagged, hrecord⟩ :=
      Json.taggedRecord place "op" "not" kinds ["arg"] rfl (by decide) hfields
    refine ⟨hwhole, ?_⟩
    simp [toJson, decode?, htagged, hrecord, Json.required, harg.reads]
  | .test p, depth + 1, _, h => by
    -- a predicate has no object of its own: its fields stand behind the tag of the filter
    have hfields := Predicate.encodes_fields h
    obtain ⟨hwhole, htagged, -⟩ :=
      Json.taggedRecord place "op" p.kind kinds _ rfl p.nodup_fields hfields.isWritable
    rw [← p.toJson_eq] at hwhole htagged
    refine ⟨hwhole, ?_⟩
    rw [toJson, decode?_test place depth p htagged, hfields.reads]
    rfl
  | .array relation left right, depth + 1, _, h => by
    obtain ⟨hleft, hright⟩ := List.forall_mem_append.1 h
    have hleft := Operand.encodes_toJson .tagged hleft
    have hright := Operand.encodes_toJson .tagged hright
    have hrelation := relation.encodes_name .tagged
    have hfields : (Json.object [("function", .string relation.name), ("left", left.toJson),
        ("right", right.toJson)]).IsWritable :=
      ⟨trivial, hleft.isWritable, hright.isWritable, trivial⟩
    obtain ⟨hwhole, htagged, hrecord⟩ :=
      Json.taggedRecord place "op" "array" kinds ["function", "left", "right"] rfl (by decide)
        hfields
    refine ⟨hwhole, ?_⟩
    simp [toJson, decode?, htagged, hrecord, Json.required, hrelation.reads, hleft.reads,
      hright.reads]
  | .constant value, depth + 1, _, _ => by
    have hfields : (Json.object [("value", .bool value)]).IsWritable := ⟨trivial, trivial⟩
    obtain ⟨hwhole, htagged, hrecord⟩ :=
      Json.taggedRecord place "op" "bool" kinds ["value"] rfl (by decide) hfields
    refine ⟨hwhole, ?_⟩
    simp [toJson, decode?, htagged, hrecord, Json.required, Json.bool?]

/-- A list of filters below another one is read from its document. -/
theorem encodes_decodeList : ∀ (filters : List Filter) (depth : Nat),
    Json.itemsDepth (listToJson filters) < depth → (∀ p ∈ printedOfList filters, p.ReadsBack) →
      Json.Encodes (Json.list? (decode? .tagged depth)) (.array (listToJson filters)) filters
  | [], _, _, _ => ⟨trivial, rfl⟩
  | filter :: rest, depth, hdepth, h => by
    obtain ⟨hfilter, hrest⟩ := List.forall_mem_append.1 h
    rw [listToJson, Json.itemsDepth] at hdepth
    have hfilter := encodes_decode .tagged filter depth (by omega) hfilter
    have hrest := encodes_decodeList rest depth (by omega) hrest
    rw [listToJson]
    exact hfilter.cons hrest
end

/-- A filter is read from its document. -/
theorem encodes_toJson {filter : Filter} (h : ∀ p ∈ filter.printed, p.ReadsBack) :
    Json.Encodes ofJson? filter.toJson filter := by
  have hdecode := encodes_decode .free filter (filter.toJson.depth + 1) (Nat.lt_succ_self _) h
  exact ⟨hdecode.isWritable, hdecode.reads⟩

/-- A filter is an object in a document. -/
theorem exists_fields (filter : Filter) : ∃ fields, filter.toJson = .object fields := by
  cases filter with
  | test p => exact ⟨_, p.toJson_eq⟩
  | _ => exact ⟨_, rfl⟩

/-- No filter is read from a document with an unreadable part. -/
theorem ofJson?_of_not_isReadable {json : Json} (h : json.isReadable = false) :
    ofJson? json = none := by
  rw [ofJson?, decode?, Json.tagged?.eq_def, if_pos ⟨rfl, h⟩]
  rfl

end Filter

end FeatureStore
