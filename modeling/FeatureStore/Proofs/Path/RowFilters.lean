import FeatureStore.Proofs.Json.Written
import FeatureStore.Proofs.Path.Forms

/-!
# Row filters in paths

A table of a path carries a row filter as a JSON document in braces. Two scans look for the end of
the document, and neither knows strings: segments end by the depth of all brackets, and the braces
of a flag by that of braces alone. So the path is read as it is written exactly if the brackets of
the document pair up for both scans (`FitsBraces`), wherever they stand. They always do if no string
of the document has a bracket or brace (`fitsBraces_of_quotedChars`), whatever other characters it
has, slashes, commas and equals signs among them.
-/

set_option autoImplicit false

namespace FeatureStore

/-- Braces pair up in a text, and with brackets they do inside one brace, where every slash stands
inside some bracket. -/
structure FitsBraces (document : List Char) : Prop where
  braces : Paired (· == '\x7b') (· == '\x7d') 0 document
  brackets : Paired isOpening isClosing 1 document
  slashes : ∀ before behind, document = before ++ '/' :: behind →
    before.countP isClosing ≤ before.countP isOpening

/-- Both scans of the text end at the depth they begin with. -/
theorem fitsBraces_iff {document : List Char} : FitsBraces document ↔
    document.foldlM braceBehind 0 = some 0 ∧ IsLevel 1 document := by
  rw [braceBehind, foldlM_nest_iff_paired Json.brackets_braces.separate, IsLevel,
    foldlM_depthBehind_iff, foldlM_nest_iff_paired isClosing_of_isOpening]
  simp only [Nat.lt_succ_iff]
  exact ⟨fun h => ⟨h.braces, h.brackets, h.slashes⟩, fun h => ⟨h.1, h.2.1, h.2.2⟩⟩

instance (document : List Char) : Decidable (FitsBraces document) :=
  decidable_of_iff _ fitsBraces_iff.symm

/-- A document without brackets in strings fits into braces. -/
theorem fitsBraces_of_quotedChars {text : List Char} {document : Json}
    (hread : Json.ofChars? text = some document)
    (hquoted : ∀ c ∈ Json.quotedChars text, Json.isBracket c = false) : FitsBraces text := by
  have hbrackets := Json.paired_of_ofChars? Json.brackets_all hread hquoted
  exact ⟨Json.paired_of_ofChars? Json.brackets_braces hread hquoted,
    ⟨fun before hbefore => (hbrackets.within before hbefore).trans (by simp), hbrackets.level⟩,
    fun before behind htext => hbrackets.within before (htext ▸ List.prefix_append _ _)⟩

/-! ## The segment of a table -/

/-- A row filter as it is written in braces. -/
def filterFlag (document : List Char) : List Char := "filter=".toList ++ document

/-- A table with a row filter as it is written. -/
def filteredChars (join : Option JoinKeys) (name : String) (document : List Char) : List Char :=
  segmentChars join name [filterFlag document]

theorem filteredChars_eq (join : Option JoinKeys) (name : String) (document : List Char) :
    filteredChars join name document = segmentChars join name [filterFlag document] := rfl

theorem filterFlag_eq (document : List Char) : filterFlag document = "filter=".toList ++ document :=
  rfl

theorem applyGroup_filterFlag {document : List Char} (s : TableSegment) :
    TableSegment.applyGroup s (filterFlag document) =
      match (Json.ofChars? document).bind Filter.ofJson? with
      | some filter => .ok { s with filter := some filter }
      | none => .error .invalidRowFilter := by
  have hstart : afterStart? "filter=".toList (filterFlag document) = some document := rfl
  cases hfilter : (Json.ofChars? document).bind Filter.ofJson? with
  | none => simp only [TableSegment.applyGroup, hstart, hfilter]
  | some filter => simp only [TableSegment.applyGroup, hstart, hfilter]

theorem not_brace_filterKey : ∀ c ∈ "filter=".toList, c ≠ '\x7b' ∧ c ≠ '\x7d' := by
  have hall : "filter=".toList.all (fun c => c != '\x7b' && c != '\x7d') = true := by
    decide +kernel
  simpa only [List.all_eq_true, Bool.and_eq_true, bne_iff_ne] using hall

/-- A text without braces in front does not change where braces close. -/
theorem foldlM_braceBehind_append {key document : List Char} {depth : Nat}
    (hkey : ∀ c ∈ key, c ≠ '\x7b' ∧ c ≠ '\x7d') :
    (key ++ document).foldlM braceBehind depth = document.foldlM braceBehind depth := by
  rw [List.foldlM_append, foldlM_braceBehind_plain hkey]
  rfl

/-- What closes behind a text without braces stands behind it. -/
theorem exists_of_append_eq_append {key document content behind : List Char}
    (hkey : ∀ c ∈ key, c ≠ '\x7b' ∧ c ≠ '\x7d')
    (h : key ++ document = content ++ '\x7d' :: behind) :
    ∃ front, content = key ++ front ∧ document = front ++ '\x7d' :: behind := by
  rcases List.append_eq_append_iff.1 h with ⟨front, hcontent, hdocument⟩ | ⟨more, rfl, hbehind⟩
  · exact ⟨front, hcontent, hdocument⟩
  · cases more with
    | nil => exact ⟨[], by simp, hbehind.symm⟩
    | cons c more =>
      obtain ⟨rfl, -⟩ := List.cons.inj hbehind
      exact absurd rfl (hkey '\x7d' (by simp)).2

theorem foldlM_filterFlag {document : List Char} {depth : Nat} :
    (filterFlag document).foldlM braceBehind depth = document.foldlM braceBehind depth :=
  foldlM_braceBehind_append not_brace_filterKey

section Segment

variable {join : Option JoinKeys} {name : String} {document : List Char} {filter : Filter}

/-- A table with a row filter whose braces pair up. -/
theorem read_filteredChars
    (hjoin : ∀ keys ∈ join, IsName keys.sourceField ∧ IsName keys.targetField)
    (hname : IsName name) (hfilter : (Json.ofChars? document).bind Filter.ofJson? = some filter)
    (hbraces : document.foldlM braceBehind 0 = some 0) :
    TableSegment.read (filteredChars join name document) =
      .ok ⟨name, join, none, none, true, .inner, some filter,
        String.ofList (filteredChars join name document)⟩ := by
  have hgroups : TableSegment.flagGroups ([filterFlag document].flatMap inBraces) =
      ([filterFlag document], true) :=
    TableSegment.flagGroups_flatMap (List.forall_mem_singleton.2 (foldlM_filterFlag.trans hbraces))
  rw [TableSegment.read_segmentChars hjoin hname (filteredChars_eq _ _ _), hgroups]
  dsimp only
  rw [List.foldlM_cons, applyGroup_filterFlag, hfilter]
  rfl

/-- A table with a row filter is read only if the braces of the document pair up: what closes in
front of its end would end a document there, and a document has nothing behind it. -/
theorem foldlM_of_read_filteredChars
    (hjoin : ∀ keys ∈ join, IsName keys.sourceField ∧ IsName keys.targetField)
    (hname : IsName name) (hfilter : (Json.ofChars? document).bind Filter.ofJson? = some filter)
    {s : TableSegment} (hread : TableSegment.read (filteredChars join name document) = .ok s) :
    document.foldlM braceBehind 0 = some 0 := by
  have htext : [filterFlag document].flatMap inBraces =
      '\x7b' :: (filterFlag document ++ ['\x7d']) := by simp [inBraces]
  rw [TableSegment.read_segmentChars hjoin hname (filteredChars_eq _ _ _), htext] at hread
  cases hclose : TableSegment.closeBrace? 0 (filterFlag document ++ ['\x7d']) with
  | none =>
    rw [TableSegment.flagGroups_unclosed hclose] at hread
    obtain ⟨_, -, hthrow⟩ := bind_eq_ok.1 hread
    simp at hthrow
  | some parts =>
    obtain ⟨content, behind⟩ := parts
    obtain ⟨hcut, hcontent⟩ := closeBrace?_eq_some_iff.1 hclose
    rcases List.eq_nil_or_concat behind with rfl | ⟨behind, last, rfl⟩
    · obtain ⟨rfl, -⟩ := List.append_inj' hcut rfl
      rwa [foldlM_filterFlag] at hcontent
    · obtain ⟨hearly, -⟩ : filterFlag document = content ++ '\x7d' :: behind ∧ ['\x7d'] = [last] :=
        List.append_inj' (by simpa using hcut) rfl
      obtain ⟨front, rfl, rfl⟩ := exists_of_append_eq_append not_brace_filterKey
        ((filterFlag_eq document).symm.trans hearly)
      rw [TableSegment.flagGroups_cons hclose] at hread
      obtain ⟨_, hgroups, -⟩ := bind_eq_ok.1 hread
      rw [List.foldlM_cons, ← filterFlag_eq, applyGroup_filterFlag] at hgroups
      obtain ⟨_, hgroup, -⟩ := bind_eq_ok.1 hgroups
      -- the text up to the brace is a document, so the whole is none
      cases hfront : Json.ofChars? front with
      | none => simp [hfront] at hgroup
      | some early => simp [Json.ofChars?_append_closeBrace hfront] at hfilter

/-- A table with a row filter is a segment exactly if its document is level inside the brace. -/
theorem isSegment_filteredChars_iff
    (hjoin : ∀ keys ∈ join, IsName keys.sourceField ∧ IsName keys.targetField)
    (hname : IsName name) : IsSegment (filteredChars join name document) ↔ IsLevel 1 document := by
  constructor
  · intro h
    have hfront : IsLevel 0 (joinChars join ++ name.toList) :=
      (isLevel_joinChars hjoin).append (isLevel_name hname)
    have hkey : IsLevel 1 "filter=".toList := by decide +kernel
    have hchars : filteredChars join name document = (joinChars join ++ name.toList) ++
        ('\x7b' :: ("filter=".toList ++ (document ++ ['\x7d']))) := by
      simp [filteredChars, segmentChars, inBraces, filterFlag_eq]
    rw [isSegment_iff, hchars, List.foldlM_append, hfront] at h
    replace h : ("filter=".toList ++ (document ++ ['\x7d'])).foldlM depthBehind 1 = some 0 := h
    rw [List.foldlM_append, hkey] at h
    replace h : (document ++ ['\x7d']).foldlM depthBehind 1 = some 0 := h
    rw [List.foldlM_append] at h
    obtain ⟨depth, hdepth, hclose⟩ := Option.bind_eq_some_iff.1 h
    -- the brace behind the document closes the one around it
    cases depth with
    | zero => exact absurd hclose (by simp [depthBehind, isOpening, isClosing])
    | succ inner =>
      obtain rfl : inner = 0 := by simpa [depthBehind, isOpening, isClosing] using hclose
      exact hdepth
  · intro h
    have hkey : IsLevel 1 "filter=".toList := by decide +kernel
    exact isSegment_segmentChars hjoin hname
      (List.forall_mem_singleton.2 (hkey.append h))

theorem head?_filteredChars (hname : IsName name) :
    (filteredChars join name document).head? ≠ some '/' := by
  intro h
  rcases head?_segmentChars hname '/' h with h | h
  · exact absurd h (by decide)
  · exact absurd h (by decide)

end Segment

/-! ## Cutting a path -/

/-- A list of columns that was read has no slash. -/
theorem not_mem_of_readColumns {list : List Char} {columns : List String}
    (h : SourcePath.readColumns list = .ok columns) : '/' ∉ list := by
  unfold SourcePath.readColumns at h
  dsimp only at h
  split at h
  · simp at h
  · rename_i hnone
    rw [List.find?_eq_none] at hnone
    intro hmem
    have hcut : '/' = ':' ∨ ∃ part ∈ splitAll ':' list, '/' ∈ part := mem_splitAll hmem
    obtain ⟨part, hpart, hslash⟩ := hcut.resolve_left (by decide)
    have hname : isIdentifier (trimChars part) = true := by
      simpa using hnone (trimChars part) (List.mem_map_of_mem hpart)
    exact not_mem_of_isIdentifier hname (show isIdentifierChar '/' = false by decide)
      (mem_trimChars (by decide) hslash)

theorem partition_append_of_eq_some {all : List (List Char)} {list : List Char}
    (h : (SourcePath.partition all).2 = some list) :
    (SourcePath.partition all).1 ++ [list] = all := by
  unfold SourcePath.partition at h ⊢
  split at h
  · rename_i last hlast
    split at h
    · rename_i hcolumns
      obtain rfl := Option.some.inj h
      rw [if_pos hcolumns]
      exact List.dropLast_append_getLast? _ hlast
    · simp at h
  · simp at h

/-- A path that ends in columns is cut into tables and a list of columns. -/
theorem columns_of_readTrimmed {raw : List Char} {p : SourcePath}
    (h : SourcePath.readTrimmed raw = .ok p) (hcolumns : p.columns ≠ []) :
    ∃ parts list, segments raw = .ok (parts ++ [list]) ∧
      parts.mapM TableSegment.read = .ok p.tables ∧
        SourcePath.readColumns list = .ok p.columns := by
  obtain ⟨all, hall, -, htables, hread, -⟩ := SourcePath.parts_of_readTrimmed h
  cases hlist : (SourcePath.partition all).2 with
  | none =>
    rw [hlist] at hread
    exact absurd (Except.ok.inj hread).symm hcolumns
  | some list =>
    rw [hlist] at hread
    exact ⟨_, list, by rw [partition_append_of_eq_some hlist, hall], htables, hread⟩

/-- A text is cut at its last separator in one way. -/
theorem append_inj_of_not_mem {sep : Char} {a b x y : List Char} (hx : sep ∉ x) (hy : sep ∉ y)
    (h : a ++ sep :: x = b ++ sep :: y) : a = b := by
  have hreverse : x.reverse ++ sep :: a.reverse = y.reverse ++ sep :: b.reverse := by
    simpa using congrArg List.reverse h
  have hcut := congrArg (cutAt sep) hreverse
  rw [cutAt_append (by simpa using hx), cutAt_append (by simpa using hy)] at hcut
  exact List.reverse_injective (Prod.mk.inj (Option.some.inj hcut)).2

/-- Segments that make up as many segments and one more part have that part at their end. -/
theorem eq_append_of_joinAll : ∀ {above parts : List (List Char)} {last : List Char},
    (∀ part ∈ above, IsSegment part) → (∀ part ∈ parts, IsSegment part) →
    parts.length = above.length + 1 → joinAll '/' parts = joinAll '/' (above ++ [last]) →
      parts = above ++ [last]
  | [], [part], last, _, _, _, h => by simpa [joinAll] using h
  | first :: above, part :: next :: parts, last, habove, hparts, hlength, h => by
    obtain ⟨hfirst, hrestAbove⟩ := List.forall_mem_cons.1 habove
    obtain ⟨hpart, hrestParts⟩ := List.forall_mem_cons.1 hparts
    obtain ⟨more, rest, hmore⟩ : ∃ more rest, above ++ [last] = more :: rest :=
      List.exists_cons_of_ne_nil (by simp)
    rw [List.cons_append, hmore] at h ⊢
    obtain ⟨rfl, hrest⟩ := hpart.append_inj hfirst h
    rw [← hmore] at hrest ⊢
    rw [eq_append_of_joinAll hrestAbove hrestParts (by simpa using hlength) hrest]

/-! ## Paths -/

/-- A path to a table with a row filter and columns of it. -/
structure RowFilterForm where
  /-- The tables above. -/
  above : List SegmentForm
  name : String
  join : Option JoinKeys
  document : List Char
  filter : Filter
  columns : List String
  isName_name : IsName name
  isName_join : ∀ keys ∈ join, IsName keys.sourceField ∧ IsName keys.targetField
  reads_document : (Json.ofChars? document).bind Filter.ofJson? = some filter
  isName_columns : ∀ column ∈ columns, IsName column
  columns_ne_nil : columns ≠ []

namespace RowFilterForm

variable (p : RowFilterForm)

/-- The table with the row filter as it is written. -/
def last : List Char := filteredChars p.join p.name p.document

/-- The tables as they are written. -/
def parts : List (List Char) := p.above.map SegmentForm.chars ++ [p.last]

/-- The text of the path. -/
def chars : List Char := joinAll '/' (pathParts p.parts p.columns)

/-- The tables that the path names. -/
def tables : List TableSegment := p.above.map (fun t => t.segment t.chars) ++
  [⟨p.name, p.join, none, none, true, .inner, some p.filter, String.ofList p.last⟩]

/-- The path is read, with the row filter, columns and as many tables as it was written with. -/
def IsKept : Prop := ∃ q, SourcePath.read (String.ofList p.chars) = .ok q ∧
  q.tables.getLast?.bind TableSegment.filter = some p.filter ∧ q.columns = p.columns ∧
    q.tables.length = p.above.length + 1

theorem ne_nil_of_mem_parts {part : List Char} (h : part ∈ p.parts) :
    part ≠ [] ∧ IsTrimmed part := by
  rcases List.mem_append.1 h with h | h
  · obtain ⟨hne, htrimmed, -⟩ := SegmentForm.of_mem_chars h
    exact ⟨hne, htrimmed⟩
  · obtain rfl := List.mem_singleton.1 h
    exact ⟨segmentChars_ne_nil p.isName_name, isTrimmed_segmentChars p.isName_name⟩

/-- A path whose document fits is read as it is written. -/
theorem read_chars (h : FitsBraces p.document) : ∃ q,
    SourcePath.read (String.ofList p.chars) = .ok q ∧ q.tables = p.tables ∧
      q.columns = p.columns := by
  obtain ⟨hbraces, hlevel⟩ := fitsBraces_iff.1 h
  have hsegment : IsSegment p.last :=
    (isSegment_filteredChars_iff p.isName_join p.isName_name).2 hlevel
  obtain ⟨first, others, hparts⟩ := List.exists_cons_of_ne_nil (show p.parts ≠ [] by simp [parts])
  obtain ⟨root, nested, htables⟩ := List.exists_cons_of_ne_nil (show p.tables ≠ [] by simp [tables])
  have hall : ∀ part ∈ first :: others, part ≠ [] ∧ IsTrimmed part ∧ IsSegment part := by
    rw [← hparts]
    intro part hpart
    obtain ⟨hne, htrimmed⟩ := p.ne_nil_of_mem_parts hpart
    refine ⟨hne, htrimmed, ?_⟩
    rcases List.mem_append.1 hpart with hpart | hpart
    · exact (SegmentForm.of_mem_chars hpart).2.2
    · rwa [List.mem_singleton.1 hpart]
  have hread : (first :: others).mapM TableSegment.read = .ok (root :: nested) := by
    have hlast : TableSegment.read p.last = .ok _ :=
      read_filteredChars p.isName_join p.isName_name p.reads_document hbraces
    rw [← hparts, ← htables, parts, tables, List.mapM_append, SegmentForm.mapM_read_chars,
      List.mapM_cons, hlast]
    rfl
  refine ⟨_, SourcePath.read_pathParts hall p.isName_columns
    (fun hnone => absurd hnone p.columns_ne_nil) hread (by rw [chars, hparts]), htables.symm, rfl⟩

theorem head?_of_mem_parts {part : List Char} (h : part ∈ p.parts) : part.head? ≠ some '/' := by
  rcases List.mem_append.1 h with h | h
  · exact (SegmentForm.of_mem_chars h).2.2.head?_ne
  · rw [List.mem_singleton.1 h]
    exact head?_filteredChars p.isName_name

/-- Nothing is left out at the ends of the path. -/
theorem read_eq : SourcePath.read (String.ofList p.chars) =
    (SourcePath.readTrimmed p.chars).mapError (Error.mapping (String.ofList p.chars)) := by
  have hall : ∀ part ∈ pathParts p.parts p.columns, part ≠ [] ∧ IsTrimmed part := by
    rw [pathParts, if_neg p.columns_ne_nil]
    refine List.forall_mem_append.2 ⟨fun part => p.ne_nil_of_mem_parts,
      List.forall_mem_singleton.2 ⟨?_, isTrimmed_columnChars p.isName_columns⟩⟩
    exact columnChars_ne_nil p.isName_columns p.columns_ne_nil
  obtain ⟨first, others, hparts⟩ := List.exists_cons_of_ne_nil (show p.parts ≠ [] by simp [parts])
  have hfirst : first ∈ p.parts := by rw [hparts]; exact List.mem_cons_self
  have hne : first ≠ [] := (p.ne_nil_of_mem_parts hfirst).1
  obtain ⟨behind, hbehind⟩ : ∃ behind, p.chars = first ++ behind := by
    rw [chars, pathParts, hparts]
    exact exists_joinAll_cons '/' first _
  refine SourcePath.read_ofList (isTrimmed_joinAll hall) ?_ (by simp [hbehind, hne])
  rw [hbehind, List.head?_append_of_ne_nil _ hne]
  exact p.head?_of_mem_parts hfirst

/-- A path that is read with its columns and tables has a document that fits: the columns stand
behind the last slash, the tables above end where they were written to end, and so does the one with
the row filter. -/
theorem fitsBraces_of_read {q : SourcePath} (h : SourcePath.read (String.ofList p.chars) = .ok q)
    (hcolumns : q.columns = p.columns) (hlength : q.tables.length = p.above.length + 1) :
    FitsBraces p.document := by
  have hread : SourcePath.readTrimmed p.chars = .ok q := mapError_eq_ok.1 (p.read_eq.symm.trans h)
  obtain ⟨parts, list, hcut, htables, hlist⟩ :=
    columns_of_readTrimmed hread (by rw [hcolumns]; exact p.columns_ne_nil)
  have hpairs := mapM_eq_ok_iff.1 htables
  have hcount : parts.length = p.above.length + 1 := hpairs.length_eq.trans hlength
  have hsome : parts ≠ [] := List.ne_nil_of_length_eq_add_one hcount
  have hjoined : joinAll '/' (parts ++ [list]) =
      joinAll '/' (p.parts ++ [columnChars p.columns]) := by
    rw [joinAll_of_segments hcut, chars, pathParts, if_neg p.columns_ne_nil]
  rw [joinAll_append hsome (by simp), joinAll_append (by simp [RowFilterForm.parts]) (by simp)]
    at hjoined
  have hslash : '/' ∉ columnChars p.columns :=
    not_mem_of_readColumns (readColumns_columnChars p.isName_columns p.columns_ne_nil)
  -- both are cut into equally many segments, so they are the same ones
  have hparts : parts = p.above.map SegmentForm.chars ++ [p.last] :=
    eq_append_of_joinAll (fun part hpart => (SegmentForm.of_mem_chars hpart).2.2)
      (fun part hpart => isSegment_of_mem hcut part (List.mem_append_left _ hpart))
      (by simpa using hcount) (append_inj_of_not_mem (not_mem_of_readColumns hlist) hslash hjoined)
  have hlast : p.last ∈ parts := by simp [hparts]
  obtain ⟨s, -, hs⟩ := exists_left_of_forall₂ hpairs.flip hlast
  have hbraces : p.document.foldlM braceBehind 0 = some 0 :=
    foldlM_of_read_filteredChars p.isName_join p.isName_name p.reads_document hs
  exact fitsBraces_iff.2 ⟨hbraces,
    (isSegment_filteredChars_iff p.isName_join p.isName_name).1
      (isSegment_of_mem hcut _ (List.mem_append_left _ hlast))⟩

/-- A row filter is kept exactly if the brackets of its document pair up for both scans, and then
all tables are read as they are written. They do if no bracket stands in a string, whatever else
the strings of the filter hold. -/
theorem isKept_iff : (p.IsKept ↔ FitsBraces p.document) ∧
    (FitsBraces p.document → ∃ q, SourcePath.read (String.ofList p.chars) = .ok q ∧
      q.tables = p.tables ∧ q.columns = p.columns) ∧
    ((∀ c ∈ Json.quotedChars p.document, Json.isBracket c = false) → FitsBraces p.document) := by
  refine ⟨⟨fun ⟨q, hread, _, hcolumns, hlength⟩ => p.fitsBraces_of_read hread hcolumns hlength,
    fun h => ?_⟩, p.read_chars, fun h => ?_⟩
  · obtain ⟨q, hread, htables, hcolumns⟩ := p.read_chars h
    exact ⟨q, hread, by simp [htables, tables], hcolumns, by simp [htables, tables]⟩
  · obtain ⟨document, hdocument, -⟩ := Option.bind_eq_some_iff.1 p.reads_document
    exact fitsBraces_of_quotedChars hdocument h

/-- A comparison with a text as it is written, without escapes. -/
def kindText (literal : String) : String :=
  "\x7b\"op\":\"compare\",\"cmp\":\"eq\",\"left\":\x7b\"property\":\"kind\"\x7d," ++
    "\"right\":\x7b\"literal\":\"" ++ literal ++ "\"\x7d\x7d"

/-- A comparison with a text as a document. -/
def kindJson (literal : String) : Json :=
  .object [("op", .string "compare"), ("cmp", .string "eq"),
    ("left", .object [("property", .string "kind")]),
    ("right", .object [("literal", .string literal)])]

/-- A comparison with a text. -/
def kindFilter (literal : String) : Filter :=
  .test (.compare .eq (.property "kind") (.literal (.text literal)))

theorem ofJson?_kindJson (literal : String) :
    Filter.ofJson? (kindJson literal) = some (kindFilter literal) := by
  rfl

/-- The comparison is read from its text if that is how the document is written. -/
theorem ofChars?_kindText (literal : String) (h : (kindJson literal).compact = kindText literal) :
    Json.ofChars? (kindText literal).toList = some (kindJson literal) := by
  have hwritable : (kindJson literal).IsWritable :=
    ⟨trivial, trivial, ⟨trivial, trivial⟩, ⟨trivial, trivial⟩, trivial⟩
  have hdepth : 0 + (kindJson literal).depth ≤ Json.depthLimit := by
    show 2 ≤ Json.depthLimit
    decide
  have hread := Json.parse?_compact hwritable
  rwa [Json.cut_eq_self hdepth, h] at hread

/-- The names of the parcels of one kind. -/
def ofKind (literal : String)
    (h : Json.ofChars? (kindText literal).toList = some (kindJson literal)) : RowFilterForm where
  above := []
  name := "parcel"
  join := none
  document := (kindText literal).toList
  filter := kindFilter literal
  columns := ["name"]
  isName_name := by decide
  isName_join := by simp
  reads_document := by rw [h, Option.bind_some, ofJson?_kindJson]
  isName_columns := by decide
  columns_ne_nil := by simp

theorem chars_ofKind {literal : String}
    (h : Json.ofChars? (kindText literal).toList = some (kindJson literal)) :
    (ofKind literal h).chars =
      joinAll '/' [filteredChars none "parcel" (kindText literal).toList, "name".toList] := rfl

/-- A slash in a string of the filter is no end of the table. -/
theorem isKept_iff_slash : ∃ p : RowFilterForm,
    String.ofList p.chars = "parcel\x7bfilter=" ++ kindText "a/b" ++ "\x7d/name" ∧
      p.filter = kindFilter "a/b" ∧ FitsBraces p.document ∧ p.IsKept := by
  have hread := ofChars?_kindText "a/b" (by decide +kernel)
  have hfits : FitsBraces (kindText "a/b").toList := by decide +kernel
  refine ⟨ofKind "a/b" hread, ?_, rfl, hfits, (isKept_iff _).1.2 hfits⟩
  rw [chars_ofKind]
  decide +kernel

/-- A brace in a string of the filter is taken for the end of the flag. -/
theorem not_isKept_brace : ∃ p : RowFilterForm,
    String.ofList p.chars = "parcel\x7bfilter=" ++ kindText "\x7d" ++ "\x7d/name" ∧
      p.filter = kindFilter "\x7d" ∧ ¬ p.IsKept := by
  have hread := ofChars?_kindText "\x7d" (by decide +kernel)
  have hfits : ¬ FitsBraces (kindText "\x7d").toList := by decide +kernel
  refine ⟨ofKind "\x7d" hread, ?_, rfl, fun ⟨_, hq, _, hcolumns, hlength⟩ =>
    hfits (fitsBraces_of_read _ hq hcolumns hlength)⟩
  rw [chars_ofKind]
  decide +kernel

end RowFilterForm

end FeatureStore
