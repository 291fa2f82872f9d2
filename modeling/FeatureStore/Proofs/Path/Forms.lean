import FeatureStore.Proofs.Path.Scanning
import FeatureStore.Proofs.Table.Names

/-!
# Writing source paths

A source path is put together from what it says: for each table its name, its join and the flags
that differ from their defaults (`TableForm`), then columns. The flags of a table stand in braces,
in any order and any number to a pair of braces (`SegmentForm`), so one pair for each and one pair
for all are both allowed. A path that ends with a table below the root needs a join or a flag there,
or else its last segment would list a column (`PathForm`). Reading undoes writing, and what was read
is read again from its own text (`SourcePath.read_undoes_writing`).
-/

set_option autoImplicit false

namespace FeatureStore

/-- A fold whose steps all succeed. -/
theorem foldlM_eq_ok_foldl {ε α β : Type} {f : β → α → Except ε β} {g : β → α → β} :
    ∀ {l : List α} {b : β}, (∀ b, ∀ a ∈ l, f b a = .ok (g b a)) → l.foldlM f b = .ok (l.foldl g b)
  | [], _, _ => rfl
  | a :: l, b, h => by
    rw [List.foldlM_cons, h b a List.mem_cons_self]
    exact foldlM_eq_ok_foldl fun b c hc => h b c (List.mem_cons_of_mem _ hc)

/-! ## Flags -/

/-- A flag that differs from its default. -/
inductive Flag where
  | sortKey (column : String)
  | primaryKey (column : String)
  /-- The sort key does not tell rows apart. -/
  | sharedSortKey
  | leftJoin
  deriving DecidableEq

namespace Flag

/-- What stands in front of the equals sign. -/
def key : Flag → List Char
  | .sortKey _ => "sortKey".toList
  | .primaryKey _ => "primaryKey".toList
  | .sharedSortKey => "sortKeyUnique".toList
  | .leftJoin => "joinType".toList

/-- What stands behind the equals sign. -/
def value : Flag → List Char
  | .sortKey column => column.toList
  | .primaryKey column => column.toList
  | .sharedSortKey => "false".toList
  | .leftJoin => "LEFT".toList

/-- A flag as it is written. -/
def chars (f : Flag) : List Char := f.key ++ '=' :: f.value

/-- What a flag makes of a table. -/
def apply (s : TableSegment) : Flag → TableSegment
  | .sortKey column => { s with ownSortKey := some column }
  | .primaryKey column => { s with ownPrimaryKey := some column }
  | .sharedSortKey => { s with sortKeyUnique := false }
  | .leftJoin => { s with joinKind := .left }

/-- The column in a flag is a name. -/
def HasNames (f : Flag) : Prop := isIdentifier f.value = true

/-- Flags in one pair of braces. -/
def group (flags : List Flag) : List Char := joinAll ',' (flags.map chars)

theorem isIdentifier_key : ∀ f : Flag, isIdentifier f.key = true
  | .sortKey _ => show isIdentifier "sortKey".toList = true by decide
  | .primaryKey _ => show isIdentifier "primaryKey".toList = true by decide
  | .sharedSortKey => by decide
  | .leftJoin => by decide

theorem not_mem_chars {f : Flag} (hf : f.HasNames) {mark : Char}
    (hmark : isIdentifierChar mark = false) (hequals : mark ≠ '=') : mark ∉ f.chars := by
  rw [chars, List.mem_append, List.mem_cons]
  rintro (h | rfl | h)
  · exact not_mem_of_isIdentifier f.isIdentifier_key hmark h
  · exact hequals rfl
  · exact not_mem_of_isIdentifier hf hmark h

/-- A flag that is written is read. -/
theorem applyFlag_chars {f : Flag} (hf : f.HasNames) (s : TableSegment) :
    TableSegment.applyFlag s f.chars = .ok (f.apply s) := by
  have hcut : cutAt '=' f.chars = some (f.key, f.value) :=
    cutAt_append (not_mem_of_isIdentifier f.isIdentifier_key (by decide))
  have hvalue : trimChars f.value = f.value := trimChars_name hf
  rw [TableSegment.applyFlag, hcut]
  dsimp only
  rw [hvalue]
  cases f with
  | sortKey column =>
    exact congrArg (fun c => Except.ok { s with ownSortKey := some c }) String.ofList_toList
  | primaryKey column =>
    exact congrArg (fun c => Except.ok { s with ownPrimaryKey := some c }) String.ofList_toList
  | sharedSortKey => rfl
  | leftJoin => rfl

/-- The flags of one pair of braces are read in turn. -/
theorem applyGroup_group {flags : List Flag} (hne : flags ≠ []) (hflags : ∀ f ∈ flags, f.HasNames)
    (s : TableSegment) : TableSegment.applyGroup s (group flags) = .ok (flags.foldl apply s) := by
  have hnone : afterStart? "filter=".toList (group flags) = none := by
    obtain ⟨first, rest, rfl⟩ := List.exists_cons_of_ne_nil hne
    obtain ⟨more, hmore⟩ := exists_joinAll_cons ',' first.chars (rest.map chars)
    rw [group, List.map_cons, hmore]
    cases first <;> rfl
  have hsplit : splitAll ',' (group flags) = flags.map chars :=
    splitAll_joinAll (by simpa using hne) fun part hpart => by
      obtain ⟨f, hf, rfl⟩ := List.mem_map.1 hpart
      exact not_mem_chars (hflags f hf) (by decide) (by decide)
  rw [TableSegment.applyGroup, hnone]
  dsimp only
  rw [hsplit, List.foldlM_map]
  exact foldlM_eq_ok_foldl fun t f hf => applyFlag_chars (hflags f hf) t

end Flag

/-! ## Tables -/

/-- What a segment without a row filter says of a table. -/
structure TableForm where
  name : String
  join : Option JoinKeys
  sortKey : Option String
  primaryKey : Option String
  sortKeyUnique : Bool
  joinKind : JoinKind
  isName_name : IsName name
  isName_join : ∀ keys ∈ join, IsName keys.sourceField ∧ IsName keys.targetField
  isName_sortKey : ∀ key ∈ sortKey, IsName key
  isName_primaryKey : ∀ key ∈ primaryKey, IsName key

/-- The flags that differ from their defaults. -/
def TableForm.flags (t : TableForm) : List Flag :=
  (t.sortKey.map Flag.sortKey).toList ++ (t.primaryKey.map Flag.primaryKey).toList ++
    (if t.sortKeyUnique then [] else [.sharedSortKey]) ++
    (if t.joinKind = .left then [.leftJoin] else [])

/-- A table as it is written: its flags in some order, some of them to each pair of braces. -/
structure SegmentForm extends TableForm where
  groups : List (List Flag)
  groups_perm : groups.flatten.Perm toTableForm.flags
  groups_ne_nil : ∀ group ∈ groups, group ≠ []

/-- A join as it is written. -/
def joinChars : Option JoinKeys → List Char
  | none => []
  | some keys => '[' :: keys.sourceField.toList ++ '=' :: keys.targetField.toList ++ [']']

/-- A text in braces. -/
def inBraces (content : List Char) : List Char := '\x7b' :: content ++ ['\x7d']

/-- A segment as it is written, with the contents of its braces. -/
def segmentChars (join : Option JoinKeys) (name : String) (contents : List (List Char)) :
    List Char := joinChars join ++ (name.toList ++ contents.flatMap inBraces)

namespace TableForm

variable {t : TableForm}

/-- A pair of braces for each flag. -/
def separate (t : TableForm) : SegmentForm where
  toTableForm := t
  groups := t.flags.map ([·])
  groups_perm := by rw [← List.flatMap_def, List.flatMap_singleton']
  groups_ne_nil := by simp

/-- One pair of braces for all flags, if there are any. -/
def together (t : TableForm) : SegmentForm where
  toTableForm := t
  groups := if t.flags = [] then [] else [t.flags]
  groups_perm := by
    split
    · rename_i hnone
      simp [hnone]
    · simp
  groups_ne_nil := by split <;> simp_all

/-- A flag is written where the table differs from the default. -/
theorem mem_flags {f : Flag} : f ∈ t.flags ↔
    match f with
    | .sortKey column => t.sortKey = some column
    | .primaryKey column => t.primaryKey = some column
    | .sharedSortKey => t.sortKeyUnique = false
    | .leftJoin => t.joinKind = .left := by
  cases f <;> simp [flags]

theorem hasNames_of_mem_flags {f : Flag} (hf : f ∈ t.flags) : f.HasNames := by
  rw [mem_flags] at hf
  cases f with
  | sortKey column => exact t.isName_sortKey column hf
  | primaryKey column => exact t.isName_primaryKey column hf
  | sharedSortKey => exact show isIdentifier "false".toList = true by decide
  | leftJoin => exact show isIdentifier "LEFT".toList = true by decide

/-- Different flags of a table change different things. -/
theorem apply_comm {f g : Flag} (hf : f ∈ t.flags) (hg : g ∈ t.flags) (s : TableSegment) :
    g.apply (f.apply s) = f.apply (g.apply s) := by
  rw [mem_flags] at hf hg
  cases f <;> cases g <;> simp_all [Flag.apply]

/-- A table as a segment. -/
def segment (t : TableForm) (raw : List Char) : TableSegment :=
  ⟨t.name, t.join, t.sortKey, t.primaryKey, t.sortKeyUnique, t.joinKind, none, String.ofList raw⟩

/-- The flags of a table say how it differs from one without. -/
theorem foldl_flags (t : TableForm) (raw : List Char) :
    t.flags.foldl Flag.apply (.plain t.name (String.ofList raw) t.join) = t.segment raw := by
  rcases t with ⟨name, join, sortKey, primaryKey, unique, kind, hname, hjoin, hsort, hprimary⟩
  cases sortKey <;> cases primaryKey <;> cases unique <;> cases kind <;> rfl

end TableForm

/-! ## Segments -/

namespace TableSegment

/-- A join that is written is read. -/
theorem readJoin?_joinChars {join : Option JoinKeys} {rest : List Char}
    (hjoin : ∀ keys ∈ join, IsName keys.sourceField ∧ IsName keys.targetField)
    (hrest : rest.head? ≠ some '[') : readJoin? (joinChars join ++ rest) = .ok (join, rest) := by
  cases join with
  | none =>
    rw [joinChars, List.nil_append, readJoin?.eq_def]
    split
    · simp at hrest
    · rfl
  | some keys =>
    obtain ⟨hsource, htarget⟩ := hjoin keys rfl
    -- no name has a closing bracket, so the first one ends the join
    have hcut : cutAt ']'
        (keys.sourceField.toList ++ '=' :: keys.targetField.toList ++ ']' :: rest) =
          some (keys.sourceField.toList ++ '=' :: keys.targetField.toList, rest) := by
      refine cutAt_append fun hmem => ?_
      rcases List.mem_append.1 hmem with hmem | hmem
      · exact not_mem_of_isIdentifier hsource (by decide) hmem
      · rcases List.mem_cons.1 hmem with hmem | hmem
        · simp at hmem
        · exact not_mem_of_isIdentifier htarget (by decide) hmem
    have hequals : cutAt '=' (keys.sourceField.toList ++ '=' :: keys.targetField.toList) =
        some (keys.sourceField.toList, keys.targetField.toList) :=
      cutAt_append (not_mem_of_isIdentifier hsource (by decide))
    have hchars : joinChars (some keys) ++ rest =
        '[' :: (keys.sourceField.toList ++ '=' :: keys.targetField.toList ++ ']' :: rest) := by
      simp [joinChars]
    rw [hchars, readJoin?]
    simp only [hcut, hequals, trimChars_name hsource, trimChars_name htarget, String.ofList_toList]
    rw [if_pos (by rw [Bool.and_eq_true]; exact ⟨hsource, htarget⟩)]

theorem flagGroups_cons {content behind rest : List Char}
    (h : closeBrace? 0 rest = some (content, behind)) :
    flagGroups ('\x7b' :: rest) = (content :: (flagGroups behind).1, (flagGroups behind).2) := by
  rw [flagGroups.eq_def]
  simp only [if_true]
  split
  · rename_i hnone
    rw [h] at hnone
    simp at hnone
  · rename_i hsome
    rw [h] at hsome
    obtain ⟨rfl, rfl⟩ := Prod.mk.inj (Option.some.inj hsome)
    rfl

theorem flagGroups_unclosed {rest : List Char} (h : closeBrace? 0 rest = none) :
    flagGroups ('\x7b' :: rest) = ([], false) := by
  rw [flagGroups.eq_def]
  simp only [if_true]
  split
  · rfl
  · rename_i hsome
    rw [h] at hsome
    simp at hsome

/-- Texts in which braces pair up are told from each other by the braces around them. -/
theorem flagGroups_flatMap : ∀ {contents : List (List Char)},
    (∀ content ∈ contents, content.foldlM braceBehind 0 = some 0) →
      flagGroups (contents.flatMap inBraces) = (contents, true)
  | [], _ => by simp [flagGroups]
  | content :: contents, h => by
    obtain ⟨hcontent, hcontents⟩ := List.forall_mem_cons.1 h
    have hclose : closeBrace? 0 (content ++ '\x7d' :: contents.flatMap inBraces) =
        some (content, contents.flatMap inBraces) := closeBrace?_eq_some_iff.2 ⟨rfl, hcontent⟩
    have hchars : (content :: contents).flatMap inBraces =
        '\x7b' :: (content ++ '\x7d' :: contents.flatMap inBraces) := by
      simp [inBraces]
    rw [hchars, flagGroups_cons hclose, flagGroups_flatMap hcontents]

/-- A segment is read in parts: its join, its name, and the contents of its braces. -/
theorem read_segmentChars {join : Option JoinKeys} {name : String} {contents : List (List Char)}
    (hjoin : ∀ keys ∈ join, IsName keys.sourceField ∧ IsName keys.targetField)
    (hname : IsName name) {raw : List Char} (hraw : raw = segmentChars join name contents) :
    TableSegment.read raw =
      (flagGroups (contents.flatMap inBraces)).1.foldlM applyGroup
          (plain name (String.ofList raw) join) >>= fun s =>
        if (flagGroups (contents.flatMap inBraces)).2 then .ok s
        else .error (.unclosedFlags (String.ofList raw)) := by
  obtain ⟨hne, hall⟩ := isIdentifier_iff.1 hname
  have hhead : (name.toList ++ contents.flatMap inBraces).head? ≠ some '[' := by
    obtain ⟨c, rest, hc⟩ := List.exists_cons_of_ne_nil hne
    rw [hc]
    simpa using ne_of_isIdentifierChar (hall c (by simp [hc]))
      (show isIdentifierChar '[' = false by decide)
  have hread : readJoin? raw = .ok (join, name.toList ++ contents.flatMap inBraces) := by
    rw [hraw]
    exact readJoin?_joinChars hjoin hhead
  -- the name ends at the first brace
  have htake : (name.toList ++ contents.flatMap inBraces).takeWhile (· != '\x7b') =
      name.toList := by
    rw [List.takeWhile_append_of_pos fun c hc => by
      simpa using ne_of_isIdentifierChar (hall c hc)
        (show isIdentifierChar '\x7b' = false by decide)]
    cases contents <;> simp [inBraces]
  have hidentifier : isIdentifier name.toList = true := hname
  unfold TableSegment.read
  simp only [hread, htake, List.drop_left, hidentifier, String.ofList_toList, bind, Except.bind]
  cases (flagGroups (contents.flatMap inBraces)).1.foldlM applyGroup
    (plain name (String.ofList raw) join) <;> rfl

end TableSegment

section Segments

variable {join : Option JoinKeys} {name : String} {contents : List (List Char)}

theorem isLevel_joinChars
    (hjoin : ∀ keys ∈ join, IsName keys.sourceField ∧ IsName keys.targetField) :
    IsLevel 0 (joinChars join) := by
  cases join with
  | none => rfl
  | some keys =>
    obtain ⟨hsource, htarget⟩ := hjoin keys rfl
    have hinside : IsLevel 1 (keys.sourceField.toList ++ (['='] ++ keys.targetField.toList)) :=
      (isLevel_name hsource).append (.append (by decide) (isLevel_name htarget))
    simpa [joinChars] using hinside.enclosed '[' ']' (by decide) (by decide)

/-- A segment is one if what stands in its braces is level there. -/
theorem isSegment_segmentChars
    (hjoin : ∀ keys ∈ join, IsName keys.sourceField ∧ IsName keys.targetField)
    (hname : IsName name) (hcontents : ∀ content ∈ contents, IsLevel 1 content) :
    IsSegment (segmentChars join name contents) :=
  isSegment_iff.2 ((isLevel_joinChars hjoin).append ((isLevel_name hname).append
    (.flatMap fun content hcontent =>
      (hcontents content hcontent).enclosed _ _ (by decide) (by decide))))

theorem segmentChars_ne_nil (hname : IsName name) : segmentChars join name contents ≠ [] := by
  obtain ⟨hne, -⟩ := isIdentifier_iff.1 hname
  simp [segmentChars, hne]

/-- A segment begins with a bracket or a name. -/
theorem head?_segmentChars (hname : IsName name) : ∀ c ∈ (segmentChars join name contents).head?,
    c = '[' ∨ isIdentifierChar c = true := by
  obtain ⟨hne, hall⟩ := isIdentifier_iff.1 hname
  intro c hc
  cases join with
  | none =>
    rw [segmentChars, joinChars, List.nil_append, List.head?_append_of_ne_nil _ hne] at hc
    exact .inr (hall c (List.mem_of_mem_head? hc))
  | some keys =>
    obtain rfl : '[' = c := by simpa [segmentChars, joinChars] using hc
    exact .inl rfl

/-- A segment ends with a name or a brace. -/
theorem getLast?_segmentChars (hname : IsName name) :
    ∀ c ∈ (segmentChars join name contents).getLast?, c = '\x7d' ∨ isIdentifierChar c = true := by
  obtain ⟨hne, hall⟩ := isIdentifier_iff.1 hname
  intro c hc
  rcases List.eq_nil_or_concat contents with rfl | ⟨front, content, rfl⟩
  · rw [segmentChars, List.flatMap_nil, List.append_nil, List.getLast?_append_of_ne_nil _ hne] at hc
    exact .inr (hall c (List.mem_of_mem_getLast? hc))
  · have hends : segmentChars join name (front ++ [content]) =
        (joinChars join ++ name.toList ++ front.flatMap inBraces ++ '\x7b' :: content) ++
          ['\x7d'] := by
      simp [segmentChars, inBraces]
    rw [List.concat_eq_append, hends, List.getLast?_concat] at hc
    exact .inl (Option.some.inj hc).symm

theorem isTrimmed_segmentChars (hname : IsName name) :
    IsTrimmed (segmentChars join name contents) := by
  constructor
  · intro c hc
    rcases head?_segmentChars hname c hc with rfl | hc
    · decide
    · exact isBlank_of_isIdentifierChar hc
  · intro c hc
    rcases getLast?_segmentChars hname c hc with rfl | hc
    · decide
    · exact isBlank_of_isIdentifierChar hc

end Segments

namespace SegmentForm

variable (t : SegmentForm)

/-- A table as it is written. -/
def chars : List Char := segmentChars t.join t.name (t.groups.map Flag.group)

theorem hasNames_of_mem_groups {group : List Flag} (hgroup : group ∈ t.groups) {f : Flag}
    (hf : f ∈ group) : f.HasNames :=
  TableForm.hasNames_of_mem_flags
    (t.groups_perm.mem_iff.1 (List.mem_flatten.2 ⟨group, hgroup, hf⟩))

/-- A text of flags has no marks but equals signs and commas. -/
theorem not_mem_group {content : List Char} (hcontent : content ∈ t.groups.map Flag.group)
    {mark : Char} (hmark : isIdentifierChar mark = false) (hequals : mark ≠ '=')
    (hcomma : mark ≠ ',') : mark ∉ content := by
  obtain ⟨group, hgroup, rfl⟩ := List.mem_map.1 hcontent
  intro hmem
  rcases mem_joinAll hmem with rfl | ⟨part, hpart, hmem⟩
  · exact hcomma rfl
  · obtain ⟨f, hf, rfl⟩ := List.mem_map.1 hpart
    exact Flag.not_mem_chars (t.hasNames_of_mem_groups hgroup hf) hmark hequals hmem

theorem foldlM_braceBehind {content : List Char} (hcontent : content ∈ t.groups.map Flag.group) :
    content.foldlM braceBehind 0 = some 0 := by
  refine foldlM_braceBehind_plain fun c hc => ⟨?_, ?_⟩
  · rintro rfl
    exact t.not_mem_group hcontent (by decide) (by decide) (by decide) hc
  · rintro rfl
    exact t.not_mem_group hcontent (by decide) (by decide) (by decide) hc

theorem isLevel_group {content : List Char} (hcontent : content ∈ t.groups.map Flag.group) :
    IsLevel 1 content := by
  refine isLevel_plain fun c hc => ?_
  have hne : ∀ mark, isIdentifierChar mark = false → mark ≠ '=' → mark ≠ ',' → c ≠ mark := by
    rintro mark hmark hequals hcomma rfl
    exact t.not_mem_group hcontent hmark hequals hcomma hc
  simp [isPathMark, isOpening, isClosing, hne '[' (by decide) (by decide) (by decide),
    hne ']' (by decide) (by decide) (by decide), hne '\x7b' (by decide) (by decide) (by decide),
    hne '\x7d' (by decide) (by decide) (by decide), hne '/' (by decide) (by decide) (by decide)]

/-- Groups of flags are read in turn. -/
theorem foldlM_applyGroup (s : TableSegment) :
    (t.groups.map Flag.group).foldlM TableSegment.applyGroup s =
      .ok (t.groups.flatten.foldl Flag.apply s) := by
  rw [List.foldlM_map, List.foldl_flatten]
  exact foldlM_eq_ok_foldl fun s group hgroup => Flag.applyGroup_group
    (t.groups_ne_nil group hgroup) (fun f hf => t.hasNames_of_mem_groups hgroup hf) s

/-- A table that is written is read. -/
theorem read_chars : TableSegment.read t.chars = .ok (t.segment t.chars) := by
  have hgroups : TableSegment.flagGroups ((t.groups.map Flag.group).flatMap inBraces) =
      (t.groups.map Flag.group, true) :=
    TableSegment.flagGroups_flatMap fun content hcontent => t.foldlM_braceBehind hcontent
  -- flags change different things, so they may stand in any order
  have hflags : t.groups.flatten.foldl Flag.apply (.plain t.name (String.ofList t.chars) t.join) =
      t.segment t.chars := by
    rw [← t.foldl_flags]
    refine t.groups_perm.foldl_eq' (fun f hf g hg s => ?_) _
    exact TableForm.apply_comm (t.groups_perm.mem_iff.1 hf) (t.groups_perm.mem_iff.1 hg) s
  rw [TableSegment.read_segmentChars t.isName_join t.isName_name (show t.chars = _ from rfl),
    hgroups]
  dsimp only
  rw [t.foldlM_applyGroup, hflags]
  rfl

/-- A join or a flag tells a table from a list of columns. -/
theorem isColumnList_chars (h : t.join.isSome ∨ t.flags ≠ []) :
    SourcePath.isColumnList t.chars = false := by
  rw [SourcePath.isColumnList, Bool.and_eq_false_iff]
  rcases h with hjoin | hflags
  · obtain ⟨keys, hkeys⟩ := Option.isSome_iff_exists.1 hjoin
    left
    simp [chars, segmentChars, hkeys, joinChars]
  · have hgroups : t.groups ≠ [] := by
      rintro hnil
      have hperm := t.groups_perm
      rw [hnil] at hperm
      exact hflags (List.nil_perm.1 hperm)
    obtain ⟨group, rest, hcons⟩ := List.exists_cons_of_ne_nil hgroups
    right
    simp [chars, segmentChars, hcons, inBraces]

theorem isSegment_chars : IsSegment t.chars :=
  isSegment_segmentChars t.isName_join t.isName_name fun _ hcontent => t.isLevel_group hcontent

/-- Tables that are written are parts of a path. -/
theorem of_mem_chars {forms : List SegmentForm} {part : List Char}
    (h : part ∈ forms.map SegmentForm.chars) : part ≠ [] ∧ IsTrimmed part ∧ IsSegment part := by
  obtain ⟨t, -, rfl⟩ := List.mem_map.1 h
  exact ⟨segmentChars_ne_nil t.isName_name, isTrimmed_segmentChars t.isName_name,
    t.isSegment_chars⟩

/-- Tables that are written are read one by one. -/
theorem mapM_read_chars (forms : List SegmentForm) :
    (forms.map SegmentForm.chars).mapM TableSegment.read =
      .ok (forms.map fun t => t.segment t.chars) := by
  rw [List.mapM_map]
  exact mapM_eq_ok_map fun t _ => t.read_chars

end SegmentForm

/-! ## Paths -/

/-- Columns as they are written. -/
def columnChars (columns : List String) : List Char := joinAll ':' (columns.map String.toList)

/-- The segments of a path: its tables, and its columns if there are any. -/
def pathParts (tables : List (List Char)) (columns : List String) : List (List Char) :=
  tables ++ if columns = [] then [] else [columnChars columns]

section Columns

variable {columns : List String}

theorem mem_columnChars (hcolumns : ∀ column ∈ columns, IsName column) {c : Char}
    (hc : c ∈ columnChars columns) : c = ':' ∨ isIdentifierChar c = true := by
  rcases mem_joinAll hc with rfl | ⟨part, hpart, hc⟩
  · exact .inl rfl
  · obtain ⟨column, hcolumn, rfl⟩ := List.mem_map.1 hpart
    exact .inr ((isIdentifier_iff.1 (hcolumns column hcolumn)).2 c hc)

theorem columnChars_ne_nil (hcolumns : ∀ column ∈ columns, IsName column) (hne : columns ≠ []) :
    columnChars columns ≠ [] := by
  obtain ⟨first, rest, rfl⟩ := List.exists_cons_of_ne_nil hne
  exact joinAll_ne_nil (isIdentifier_iff.1 (hcolumns first List.mem_cons_self)).1

theorem isTrimmed_columnChars (hcolumns : ∀ column ∈ columns, IsName column) :
    IsTrimmed (columnChars columns) :=
  isTrimmed_joinAll fun part hpart => by
    obtain ⟨column, hcolumn, rfl⟩ := List.mem_map.1 hpart
    have hname := hcolumns column hcolumn
    exact ⟨(isIdentifier_iff.1 hname).1, isTrimmed_name hname⟩

theorem isSegment_columnChars (hcolumns : ∀ column ∈ columns, IsName column) :
    IsSegment (columnChars columns) :=
  isSegment_iff.2 (foldlM_depthBehind_plain fun c hc => by
    rcases mem_columnChars hcolumns hc with rfl | hname
    · decide
    · exact isPathMark_of_isIdentifierChar hname)

theorem isColumnList_columnChars (hcolumns : ∀ column ∈ columns, IsName column) :
    SourcePath.isColumnList (columnChars columns) = true := by
  have hnot : ∀ mark, isIdentifierChar mark = false → mark ≠ ':' → mark ∉ columnChars columns := by
    intro mark hmark hcolon hmem
    rcases mem_columnChars hcolumns hmem with rfl | hname
    · exact hcolon rfl
    · exact ne_of_isIdentifierChar hname hmark rfl
  rw [SourcePath.isColumnList, Bool.and_eq_true, bne_iff_ne, Bool.not_eq_true',
    List.contains_eq_mem, decide_eq_false_iff_not]
  exact ⟨fun hhead => hnot '[' (by decide) (by decide) (List.mem_of_mem_head? hhead),
    hnot '\x7b' (by decide) (by decide)⟩

/-- Columns that are written are read. -/
theorem readColumns_columnChars (hcolumns : ∀ column ∈ columns, IsName column)
    (hne : columns ≠ []) : SourcePath.readColumns (columnChars columns) = .ok columns := by
  have hsplit : splitAll ':' (columnChars columns) = columns.map String.toList :=
    splitAll_joinAll (by simpa using hne) fun part hpart => by
      obtain ⟨column, hcolumn, rfl⟩ := List.mem_map.1 hpart
      exact not_mem_of_isIdentifier (hcolumns column hcolumn) (by decide)
  have htrim : (columns.map String.toList).map trimChars = columns.map String.toList := by
    rw [List.map_map]
    exact List.map_congr_left fun column hcolumn => trimChars_name (hcolumns column hcolumn)
  have hfind : (columns.map String.toList).find? (fun name => !isIdentifier name) = none := by
    rw [List.find?_eq_none]
    intro part hpart
    obtain ⟨column, hcolumn, rfl⟩ := List.mem_map.1 hpart
    have hname : isIdentifier column.toList = true := hcolumns column hcolumn
    simp [hname]
  rw [SourcePath.readColumns, hsplit, htrim, hfind]
  simp [Function.comp_def, String.ofList_toList]

end Columns

namespace SourcePath

variable {first : List Char} {others : List (List Char)} {columns : List String}

/-- The tables of a path are told from its columns. -/
theorem partition_pathParts (hcolumns : ∀ column ∈ columns, IsName column)
    (hmarked : columns = [] → ∀ last ∈ others.getLast?, isColumnList last = false) :
    partition (pathParts (first :: others) columns) =
      (first :: others, if columns = [] then none else some (columnChars columns)) := by
  rw [pathParts, partition]
  by_cases hnone : columns = []
  · rw [if_pos hnone, if_pos hnone, List.append_nil, List.getLast?_cons]
    dsimp only
    rw [if_neg]
    cases hlast : others.getLast? with
    | none => simp [List.getLast?_eq_none_iff.1 hlast]
    | some last => simp [hmarked hnone last hlast]
  · rw [if_neg hnone, if_neg hnone, List.getLast?_concat, List.dropLast_concat]
    dsimp only
    rw [if_pos]
    simp [isColumnList_columnChars hcolumns]

/-- A text without blanks around it and slashes in front is read as it is. -/
theorem read_ofList {raw : List Char} (htrimmed : IsTrimmed raw) (hslash : raw.head? ≠ some '/')
    (hne : raw ≠ []) : SourcePath.read (String.ofList raw) =
      (readTrimmed raw).mapError (Error.mapping (String.ofList raw)) := by
  have hdrop : dropSlashes raw = raw := dropWhile_eq_self fun c hc => by
    rw [Option.mem_def] at hc
    simpa [hc] using hslash
  rw [SourcePath.read]
  simp only [String.toList_ofList, trimChars_of_isTrimmed htrimmed, hdrop]
  rw [if_neg (by simpa using hne)]

/-- A path is read in parts: each of its tables, and its columns. -/
theorem read_pathParts {root : TableSegment} {nested : List TableSegment}
    (hparts : ∀ part ∈ first :: others, part ≠ [] ∧ IsTrimmed part ∧ IsSegment part)
    (hcolumns : ∀ column ∈ columns, IsName column)
    (hmarked : columns = [] → ∀ last ∈ others.getLast?, isColumnList last = false)
    (htables : (first :: others).mapM TableSegment.read = .ok (root :: nested)) {text : List Char}
    (htext : text = joinAll '/' (pathParts (first :: others) columns)) :
    SourcePath.read (String.ofList text) = .ok ⟨String.ofList text, root, nested, columns⟩ := by
  -- the list of columns is one more part, if there is one
  have hall : ∀ part ∈ pathParts (first :: others) columns,
      part ≠ [] ∧ IsTrimmed part ∧ IsSegment part := by
    rw [pathParts]
    refine List.forall_mem_append.2 ⟨hparts, ?_⟩
    split_ifs with hnone
    · simp
    · exact List.forall_mem_singleton.2 ⟨columnChars_ne_nil hcolumns hnone,
        isTrimmed_columnChars hcolumns, isSegment_columnChars hcolumns⟩
  obtain ⟨hfirst, -, hsegment⟩ := hparts first List.mem_cons_self
  obtain ⟨more, hmore⟩ : ∃ more, pathParts (first :: others) columns = first :: more := ⟨_, rfl⟩
  have hcut : segments text = .ok (pathParts (first :: others) columns) := by
    rw [htext]
    exact segments_joinAll (by simp [hmore]) fun part hpart => (hall part hpart).2.2
  have hempty : (pathParts (first :: others) columns).any List.isEmpty = false := by
    rw [List.any_eq_false]
    intro part hpart
    simpa using (hall part hpart).1
  have hread : readTrimmed text = .ok ⟨String.ofList text, root, nested, columns⟩ := by
    unfold readTrimmed
    simp only [hcut, hempty, partition_pathParts hcolumns hmarked, htables, bind, Except.bind]
    by_cases hnone : columns = []
    · simp [hnone, pure, Except.pure]
    · simp [hnone, readColumns_columnChars hcolumns hnone, pure, Except.pure]
  have htrimmed : IsTrimmed text := by
    rw [htext]
    exact isTrimmed_joinAll fun part hpart => ⟨(hall part hpart).1, (hall part hpart).2.1⟩
  have hslash : text.head? ≠ some '/' := by
    obtain ⟨behind, hbehind⟩ := exists_joinAll_cons '/' first more
    rw [htext, hmore, hbehind, List.head?_append_of_ne_nil _ hfirst]
    exact hsegment.head?_ne
  rw [read_ofList htrimmed hslash (by rw [htext, hmore]; exact joinAll_ne_nil hfirst), hread]
  rfl

end SourcePath

theorem intercalate_ofList : ∀ parts : List (List Char),
    "/".intercalate (parts.map String.ofList) = String.ofList (joinAll '/' parts)
  | [] => rfl
  | [part] => String.intercalate_singleton
  | part :: next :: parts => by
    have hjoin : joinAll '/' (part :: next :: parts) =
        part ++ "/".toList ++ joinAll '/' (next :: parts) := by
      rw [List.append_assoc]
      rfl
    rw [List.map_cons, List.map_cons, String.intercalate_cons_cons, ← List.map_cons,
      intercalate_ofList (next :: parts), hjoin]
    simp [String.ofList_append, String.append_assoc]

/-- A path as it is written. -/
structure PathForm where
  root : SegmentForm
  /-- The tables below the root. -/
  nested : List SegmentForm
  columns : List String
  isName_columns : ∀ column ∈ columns, IsName column
  /-- The last of several tables is not taken for a list of columns. -/
  marked : columns = [] → ∀ last ∈ nested.getLast?, last.join.isSome ∨ last.flags ≠ []

namespace PathForm

variable (p : PathForm)

/-- All tables, the root first. -/
def tables : List SegmentForm := p.root :: p.nested

/-- The text of the path. -/
def chars : List Char := joinAll '/' (pathParts (p.tables.map SegmentForm.chars) p.columns)

/-- What the path says. -/
def path : SourcePath :=
  ⟨String.ofList p.chars, p.root.segment p.root.chars, p.nested.map fun t => t.segment t.chars,
    p.columns⟩

/-- The part of the path that names tables. -/
theorem tablePath_path :
    p.path.tablePath = String.ofList (joinAll '/' (p.tables.map SegmentForm.chars)) := by
  have hraws : p.path.tables.map TableSegment.raw =
      (p.tables.map SegmentForm.chars).map String.ofList := by
    simp [path, SourcePath.tables, tables, TableForm.segment]
  rw [SourcePath.tablePath, hraws]
  exact intercalate_ofList _

/-- A path that is written is read. -/
theorem read_chars : SourcePath.read (String.ofList p.chars) = .ok p.path := by
  have hparts : ∀ part ∈ p.root.chars :: p.nested.map SegmentForm.chars,
      part ≠ [] ∧ IsTrimmed part ∧ IsSegment part :=
    fun part (hpart : part ∈ p.tables.map SegmentForm.chars) => SegmentForm.of_mem_chars hpart
  have hmarked : p.columns = [] → ∀ last ∈ (p.nested.map SegmentForm.chars).getLast?,
      SourcePath.isColumnList last = false := by
    intro hnone last hlast
    rw [List.getLast?_map, Option.mem_def, Option.map_eq_some_iff] at hlast
    obtain ⟨t, ht, rfl⟩ := hlast
    exact t.isColumnList_chars (p.marked hnone t ht)
  have htables : (p.root.chars :: p.nested.map SegmentForm.chars).mapM TableSegment.read =
      .ok (p.root.segment p.root.chars :: p.nested.map fun t => t.segment t.chars) :=
    SegmentForm.mapM_read_chars p.tables
  exact SourcePath.read_pathParts hparts p.isName_columns hmarked htables rfl

end PathForm

/-! ## Reading again -/

namespace SourcePath

/-- The first part always names a table. -/
theorem partition_cons (first : List Char) (others : List (List Char)) :
    ∃ more, (partition (first :: others)).1 = first :: more := by
  rw [partition, List.getLast?_cons]
  dsimp only
  split_ifs with h
  · cases others with
    | nil => simp at h
    | cons next others => exact ⟨_, List.dropLast_cons_of_ne_nil (by simp)⟩
  · exact ⟨others, rfl⟩

/-- A segment that was read has no blank in front. -/
theorem head?_of_read {raw : List Char} {s : TableSegment} (h : TableSegment.read raw = .ok s) :
    ∀ c ∈ raw.head?, isBlank c = false := by
  intro c hc
  obtain ⟨rest, rfl⟩ : ∃ rest, raw = c :: rest := List.head?_eq_some_iff.1 hc
  by_cases hjoin : c = '['
  · rw [hjoin]
    decide
  · have hread : TableSegment.readJoin? (joinChars none ++ c :: rest) = .ok (none, c :: rest) :=
      TableSegment.readJoin?_joinChars (by simp) (by simpa using hjoin)
    obtain ⟨join, behind, hparts, hname, -⟩ := TableSegment.head_of_read h
    obtain ⟨-, rfl⟩ := Prod.mk.inj (Except.ok.inj (hread.symm.trans hparts))
    -- the name is not empty, so it begins with the segment
    rw [isIdentifier_iff, List.takeWhile_cons] at hname
    obtain ⟨hne, hall⟩ := hname
    split at hne
    · rename_i hbrace
      rw [if_pos hbrace] at hall
      exact isBlank_of_isIdentifierChar (hall c List.mem_cons_self)
    · exact absurd rfl hne

theorem head?_of_readTrimmed {raw : List Char} {p : SourcePath} (h : readTrimmed raw = .ok p) :
    ∀ c ∈ raw.head?, isBlank c = false := by
  obtain ⟨all, hall, hne, htables, -⟩ := parts_of_readTrimmed h
  obtain ⟨first, others, rfl⟩ := List.exists_cons_of_ne_nil (segmentsFrom_ne_nil hall)
  obtain ⟨more, hmore⟩ := partition_cons first others
  rw [hmore, List.mapM_cons] at htables
  obtain ⟨s, hs, -⟩ := bind_eq_ok.1 htables
  -- the path begins with its first segment
  have hfirst : raw.head? = first.head? := by
    rcases (segmentsFrom_first hall).2 with ⟨-, rfl⟩ | ⟨rest, rfl, -⟩
    · rfl
    · exact List.head?_append_of_ne_nil _ (hne first List.mem_cons_self)
  rw [hfirst]
  exact head?_of_read hs

/-- A path that was read is read again from its own text. -/
theorem read_raw {text : String} {p : SourcePath} (h : SourcePath.read text = .ok p) :
    SourcePath.read p.raw = .ok p := by
  obtain ⟨hsome, hread⟩ := readTrimmed_of_read h
  obtain ⟨-, -, -, -, -, hraw⟩ := parts_of_readTrimmed hread
  have hslash : (dropSlashes (trimChars text.toList)).head? ≠ some '/' := by
    intro hhead
    simpa using head?_dropWhile _ _ _ hhead
  -- what is left of the trimmed text ends as it did
  have hend : ∀ c ∈ (dropSlashes (trimChars text.toList)).getLast?, isBlank c = false := by
    intro c hc
    obtain ⟨front, hfront⟩ : dropSlashes (trimChars text.toList) <:+ trimChars text.toList :=
      List.dropWhile_suffix _
    refine getLast?_trimChars text.toList c ?_
    rw [← hfront, List.getLast?_append_of_ne_nil _ hsome]
    exact hc
  rw [hraw, read_ofList ⟨head?_of_readTrimmed hread, hend⟩ hslash hsome, hread]
  rfl

/-- Reading undoes writing: a written path is read as the tables and columns that it was written
for, each table with its own text, and the whole text and the part that names tables are kept. A
path that was read is read again from its own text, and it names a table: of the segments of a text
the first one always does. -/
theorem read_undoes_writing :
    (∀ p : PathForm, ∃ q, SourcePath.read (String.ofList p.chars) = .ok q ∧
      q.tables = p.tables.map (fun t => t.segment t.chars) ∧ q.columns = p.columns ∧
      q.raw = String.ofList p.chars ∧
      q.tablePath = String.ofList (joinAll '/' (p.tables.map SegmentForm.chars))) ∧
    (∀ text q, SourcePath.read text = .ok q → SourcePath.read q.raw = .ok q ∧ q.tables ≠ []) ∧
    ∀ text all, segments text = .ok all → (partition all).1 ≠ [] := by
  refine ⟨fun p => ⟨p.path, p.read_chars, rfl, rfl, rfl, p.tablePath_path⟩, fun text q h => ?_,
    fun text all h => ?_⟩
  · exact ⟨read_raw h, by simp [tables]⟩
  · obtain ⟨first, others, rfl⟩ := List.exists_cons_of_ne_nil (segmentsFrom_ne_nil h)
    obtain ⟨more, hmore⟩ := partition_cons first others
    simp [hmore]

/-- A path of two tables, the flags of the first in one pair of braces and those of the second in
two. -/
theorem read_undoes_writing_address :
    ∃ (p : PathForm) (q : SourcePath), String.ofList p.chars =
        "parcel\x7bsortKey=objid,primaryKey=pk\x7d/[id=parcel_id]address" ++
          "\x7bsortKeyUnique=false\x7d\x7bjoinType=LEFT\x7d/street:city" ∧
      SourcePath.read (String.ofList p.chars) = .ok q ∧
      q.tables.map TableSegment.name = ["parcel", "address"] ∧
      q.columns = ["street", "city"] ∧ SourcePath.read q.raw = .ok q ∧ q.tables ≠ [] ∧
      (partition ["parcel".toList, "name".toList]).1 ≠ [] := by
  let parcel : TableForm := ⟨"parcel", none, some "objid", some "pk", true, .inner, by decide,
    by simp, by decide, by decide⟩
  let address : TableForm := ⟨"address", some ⟨"id", "parcel_id"⟩, none, none, false, .left,
    by decide, by decide, by simp, by simp⟩
  obtain ⟨hwritten, hagain, hnamed⟩ := read_undoes_writing
  let p : PathForm := ⟨parcel.together, [address.separate], ["street", "city"], by decide, by simp⟩
  obtain ⟨q, hread, htables, hcolumns, -, -⟩ := hwritten p
  refine ⟨p, q, by decide +kernel, hread, ?_, hcolumns, (hagain _ q hread).1, (hagain _ q hread).2,
    hnamed "parcel/name".toList _ (by rfl)⟩
  rw [htables]
  rfl

end SourcePath

end FeatureStore
