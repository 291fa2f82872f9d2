import FeatureStore.Path.Reading
import FeatureStore.Proofs.Outcomes

/-!
# Segments and the paths they make

A text that is a single segment (`IsSegment`) has no slash outside its brackets. The segments that a
text is cut into are single segments (`isSegment_of_mem`), and single segments joined with slashes
are cut into the same segments again (`segments_joinAll`), so a path made of segments tells them
(`joinAll_injective`). The tables of a source path that was read are what their own texts read as
(`SourcePath.isWritten_of_read`).
-/

set_option autoImplicit false

namespace FeatureStore

/-- The text is one segment. -/
def IsSegment (cs : List Char) : Prop := segments cs = .ok [cs]

/-! ## Cutting and joining -/

theorem consFirst_ne_nil (c : Char) (parts : List (List Char)) : consFirst c parts ≠ [] := by
  cases parts with
  | nil => simp [consFirst]
  | cons part rest => simp [consFirst]

/-- What a character that stands inside a segment does to the depth of brackets; none if it closes
a bracket that is not open or ends the segment. -/
def depthBehind (depth : Nat) (c : Char) : Option Nat :=
  if isOpening c then some (depth + 1)
  else if isClosing c then
    match depth with
    | 0 => none
    | outer + 1 => some outer
  else if c = '/' ∧ depth = 0 then none
  else some depth

/-- A character is cut as the depth behind it says: it belongs to the first segment of the text
behind it, or there is no such depth, and only a slash ends a segment then. -/
theorem segmentsFrom_cons_eq (c : Char) (rest : List Char) (depth : Nat) :
    segmentsFrom depth (c :: rest) =
      match depthBehind depth c with
      | some inner => (segmentsFrom inner rest).map (consFirst c)
      | none =>
        if c = '/' ∧ depth = 0 then (segmentsFrom 0 rest).map ([] :: ·)
        else .error (.unbalanced c) := by
  -- both functions look for the marks in the same order
  rw [segmentsFrom.eq_def, depthBehind.eq_def]
  dsimp only
  split
  · rfl
  split
  · rename_i hclosing
    have hslash : c ≠ '/' := by
      rintro rfl
      exact absurd hclosing (by decide)
    cases depth with
    | zero => exact (if_neg fun h => hslash h.1).symm
    | succ outer => rfl
  split <;> rfl

/-- A character inside a segment belongs to the first segment of the text. -/
theorem segmentsFrom_cons {c : Char} {rest : List Char} {depth inner : Nat}
    (h : depthBehind depth c = some inner) :
    segmentsFrom depth (c :: rest) = (segmentsFrom inner rest).map (consFirst c) := by
  rw [segmentsFrom_cons_eq, h]

/-- A slash outside brackets ends a segment. -/
theorem segmentsFrom_slash (rest : List Char) :
    segmentsFrom 0 ('/' :: rest) = (segmentsFrom 0 rest).map ([] :: ·) :=
  segmentsFrom_cons_eq '/' rest 0

/-- A character that neither stands inside a segment nor ends it leaves nothing to cut. -/
theorem segmentsFrom_cases {c : Char} {rest : List Char} {depth : Nat} {parts : List (List Char)}
    (h : segmentsFrom depth (c :: rest) = .ok parts) :
    (∃ inner, depthBehind depth c = some inner) ∨ (c = '/' ∧ depth = 0) := by
  cases hbehind : depthBehind depth c with
  | some inner => exact Or.inl ⟨inner, rfl⟩
  | none =>
    rw [segmentsFrom_cons_eq, hbehind] at h
    dsimp only at h
    split at h
    · rename_i hslash
      exact Or.inr hslash
    · exact nomatch h

/-- A text is cut into at least one segment. -/
theorem segmentsFrom_ne_nil : ∀ {cs : List Char} {depth : Nat} {parts : List (List Char)},
    segmentsFrom depth cs = .ok parts → parts ≠ []
  | [], depth, parts, h => by
    rw [segmentsFrom] at h
    split at h
    · obtain rfl := Except.ok.inj h
      simp
    · simp at h
  | c :: rest, depth, parts, h => by
    rcases segmentsFrom_cases h with ⟨inner, hinner⟩ | ⟨rfl, rfl⟩
    · rw [segmentsFrom_cons hinner] at h
      obtain ⟨more, -, rfl⟩ := map_eq_ok.1 h
      exact consFirst_ne_nil c more
    · rw [segmentsFrom_slash] at h
      obtain ⟨more, -, rfl⟩ := map_eq_ok.1 h
      simp

/-- The first character of a text continues the first segment behind it, at the depth behind the
character, or it ends a segment without a character. -/
theorem segmentsFrom_cons_cases {c : Char} {rest : List Char} {depth : Nat}
    {parts : List (List Char)} (h : segmentsFrom depth (c :: rest) = .ok parts) :
    (∃ inner first more, depthBehind depth c = some inner ∧
        segmentsFrom inner rest = .ok (first :: more) ∧ parts = (c :: first) :: more) ∨
      c = '/' ∧ depth = 0 ∧ ∃ more, segmentsFrom 0 rest = .ok more ∧ parts = [] :: more := by
  rcases segmentsFrom_cases h with ⟨inner, hinner⟩ | ⟨rfl, rfl⟩
  · rw [segmentsFrom_cons hinner] at h
    obtain ⟨more, hmore, rfl⟩ := map_eq_ok.1 h
    obtain ⟨first, others, rfl⟩ := List.exists_cons_of_ne_nil (segmentsFrom_ne_nil hmore)
    exact Or.inl ⟨inner, first, others, hinner, hmore, rfl⟩
  · rw [segmentsFrom_slash] at h
    obtain ⟨more, hmore, rfl⟩ := map_eq_ok.1 h
    exact Or.inr ⟨rfl, rfl, more, hmore, rfl⟩

/-- A single segment in front of a slash is cut off. -/
theorem segmentsFrom_append {rest : List Char} {parts : List (List Char)}
    (hrest : segmentsFrom 0 rest = .ok parts) : ∀ {cs : List Char} {depth : Nat},
      segmentsFrom depth cs = .ok [cs] →
        segmentsFrom depth (cs ++ '/' :: rest) = .ok (cs :: parts)
  | [], depth, h => by
    rw [segmentsFrom] at h
    split at h
    · rename_i hd
      subst hd
      rw [List.nil_append, segmentsFrom_slash, hrest]
      rfl
    · simp at h
  | c :: cs, depth, h => by
    rcases segmentsFrom_cons_cases h with
      ⟨inner, first, more, hinner, hmore, hcs⟩ | ⟨-, -, more, -, hcs⟩
    · -- behind its first character, a single segment is one again, at another depth
      simp only [List.cons.injEq, true_and] at hcs
      obtain ⟨rfl, rfl⟩ := hcs
      rw [List.cons_append, segmentsFrom_cons hinner, segmentsFrom_append hrest hmore]
      rfl
    · -- a slash outside brackets would end the segment before its first character
      simp at hcs

/-- The first segment of a text is a single one, and the others are those of the text behind it. -/
theorem segmentsFrom_first : ∀ {cs : List Char} {depth : Nat} {part : List Char}
    {parts : List (List Char)}, segmentsFrom depth cs = .ok (part :: parts) →
      segmentsFrom depth part = .ok [part] ∧
        (parts = [] ∧ cs = part ∨
          ∃ rest, cs = part ++ '/' :: rest ∧ segmentsFrom 0 rest = .ok parts)
  | [], depth, part, parts, h => by
    have hcut := h
    rw [segmentsFrom] at h
    split at h
    · obtain ⟨rfl, rfl⟩ := List.cons.inj (Except.ok.inj h)
      exact ⟨hcut, Or.inl ⟨rfl, rfl⟩⟩
    · simp at h
  | c :: cs, depth, part, parts, h => by
    -- the first segment goes on with the character, or is empty in front of a slash
    rcases segmentsFrom_cons_cases h with
      ⟨inner, first, more, hinner, hmore, hcs⟩ | ⟨rfl, rfl, more, hmore, hcs⟩
    · obtain ⟨rfl, rfl⟩ := List.cons.inj hcs
      obtain ⟨hfirst, hbehind⟩ := segmentsFrom_first hmore
      refine ⟨?_, ?_⟩
      · rw [segmentsFrom_cons hinner, hfirst]
        rfl
      · rcases hbehind with ⟨rfl, rfl⟩ | ⟨rest, rfl, hrest⟩
        · exact Or.inl ⟨rfl, rfl⟩
        · exact Or.inr ⟨rest, rfl, hrest⟩
    · obtain ⟨rfl, rfl⟩ := List.cons.inj hcs
      exact ⟨rfl, Or.inr ⟨cs, rfl, hmore⟩⟩

/-- The segments that a text is cut into are single segments. -/
theorem isSegment_of_mem : ∀ {parts : List (List Char)} {cs : List Char},
    segments cs = .ok parts → ∀ part ∈ parts, IsSegment part
  | [], _, _, part, hpart => by simp at hpart
  | first :: parts, cs, h, part, hpart => by
    obtain ⟨hfirst, hbehind⟩ := segmentsFrom_first h
    rcases List.mem_cons.1 hpart with rfl | hpart
    · exact hfirst
    · rcases hbehind with ⟨rfl, -⟩ | ⟨rest, -, hrest⟩
      · simp at hpart
      · exact isSegment_of_mem hrest part hpart

/-- Single segments with slashes between them are cut into the same segments again. -/
theorem segments_joinAll : ∀ {parts : List (List Char)}, parts ≠ [] →
    (∀ part ∈ parts, IsSegment part) → segments (joinAll '/' parts) = .ok parts
  | [], hne, _ => absurd rfl hne
  | [part], _, h => h part List.mem_cons_self
  | part :: next :: parts, _, h => by
    have hrest : segments (joinAll '/' (next :: parts)) = .ok (next :: parts) :=
      segments_joinAll (by simp) fun p hp => h p (List.mem_cons_of_mem _ hp)
    exact segmentsFrom_append hrest (h part List.mem_cons_self)

/-- A path made of single segments tells them. -/
theorem joinAll_injective {ps qs : List (List Char)} (hp : ps ≠ []) (hq : qs ≠ [])
    (hps : ∀ p ∈ ps, IsSegment p) (hqs : ∀ q ∈ qs, IsSegment q)
    (h : joinAll '/' ps = joinAll '/' qs) : ps = qs := by
  -- cutting undoes joining
  have hcut := segments_joinAll hp hps
  rw [h, segments_joinAll hq hqs] at hcut
  exact (Except.ok.inj hcut).symm

theorem joinAll_append {sep : Char} : ∀ {ps qs : List (List Char)}, ps ≠ [] → qs ≠ [] →
    joinAll sep (ps ++ qs) = joinAll sep ps ++ sep :: joinAll sep qs
  | [], _, hp, _ => absurd rfl hp
  | [part], [], _, hq => absurd rfl hq
  | [part], q :: qs, _, _ => rfl
  | part :: next :: ps, qs, _, hq => by
    have ih : joinAll sep (next :: ps ++ qs) = joinAll sep (next :: ps) ++ sep :: joinAll sep qs :=
      joinAll_append (by simp) hq
    show part ++ sep :: joinAll sep (next :: ps ++ qs) = _
    rw [ih]
    simp [joinAll]

/-! ## Tables as written -/

/-- The table is what its own text reads as, and that text is a segment. -/
structure TableSegment.IsWritten (s : TableSegment) : Prop where
  reads : TableSegment.read s.raw.toList = .ok s
  isSegment : IsSegment s.raw.toList
  nonempty : s.raw.toList ≠ []

namespace TableSegment

/-- Tables with the same text are the same. -/
theorem IsWritten.eq_of_raw {s t : TableSegment} (hs : s.IsWritten) (ht : t.IsWritten)
    (h : s.raw = t.raw) : s = t := by
  have hread := hs.reads
  rw [h, ht.reads] at hread
  exact (Except.ok.inj hread).symm

/-- The segments have the same name, the same join and the same text. -/
structure SameHead (s next : TableSegment) : Prop where
  name : next.name = s.name
  join : next.join = s.join
  raw : next.raw = s.raw

theorem SameHead.trans {s t u : TableSegment} (h : SameHead s t) (hnext : SameHead t u) :
    SameHead s u :=
  ⟨hnext.name.trans h.name, hnext.join.trans h.join, hnext.raw.trans h.raw⟩

/-- A flag changes keys and the kind of join. -/
theorem sameHead_applyFlag {s next : TableSegment} {flag : List Char}
    (h : applyFlag s flag = .ok next) : SameHead s next := by
  unfold applyFlag at h
  split at h
  · simp at h
  · dsimp only at h
    split at h
    · rw [← Except.ok.inj h]
      exact ⟨rfl, rfl, rfl⟩
    · rw [← Except.ok.inj h]
      exact ⟨rfl, rfl, rfl⟩
    · split at h
      · rw [← Except.ok.inj h]
        exact ⟨rfl, rfl, rfl⟩
      · rw [← Except.ok.inj h]
        exact ⟨rfl, rfl, rfl⟩
      · simp at h
    · split at h
      · rw [← Except.ok.inj h]
        exact ⟨rfl, rfl, rfl⟩
      · simp at h
    · simp at h

/-- A group of flags, or a row filter, changes neither the name of a segment nor its join. -/
theorem sameHead_applyGroup {s next : TableSegment} {content : List Char}
    (h : applyGroup s content = .ok next) : SameHead s next := by
  unfold applyGroup at h
  split at h
  · split at h
    · rw [← Except.ok.inj h]
      exact ⟨rfl, rfl, rfl⟩
    · simp at h
  · exact foldlM_induction (SameHead s) ⟨rfl, rfl, rfl⟩
      (fun _ _ _ _ ht hu => ht.trans (sameHead_applyFlag hu)) h

/-- A segment that was read has the join in front of its name, an identifier as its name, and its
whole text. -/
theorem head_of_read {raw : List Char} {s : TableSegment} (h : TableSegment.read raw = .ok s) :
    ∃ join rest, readJoin? raw = .ok (join, rest) ∧
      isIdentifier (rest.takeWhile (· != '\x7b')) = true ∧
      SameHead (plain (String.ofList (rest.takeWhile (· != '\x7b'))) (String.ofList raw) join)
        s := by
  unfold TableSegment.read at h
  obtain ⟨⟨join, rest⟩, hjoin, h⟩ := bind_eq_ok.1 h
  dsimp only at h
  split at h
  · obtain ⟨_, hthrow, -⟩ := bind_eq_ok.1 h
    exact absurd hthrow throw_ne_ok
  · rename_i hname
    obtain ⟨segment, hsegment, h⟩ := bind_eq_ok.1 h
    split at h
    · rw [← pure_eq_ok.1 h]
      refine ⟨join, rest, hjoin, by simpa using hname, ?_⟩
      exact foldlM_induction (SameHead _) ⟨rfl, rfl, rfl⟩
        (fun _ _ _ _ ht hu => ht.trans (sameHead_applyGroup hu)) hsegment
    · exact absurd h throw_ne_ok

/-- Flags leave the text of a segment as it was read. -/
theorem raw_of_read {raw : List Char} {s : TableSegment} (h : TableSegment.read raw = .ok s) :
    s.raw = String.ofList raw := by
  obtain ⟨join, rest, -, -, hhead⟩ := head_of_read h
  exact hhead.raw

end TableSegment

namespace SourcePath

/-- The tables of a path are what their own texts read as. -/
def IsWritten (p : SourcePath) : Prop := ∀ s ∈ p.tables, s.IsWritten

/-- The parts that name tables are segments of the path. -/
theorem mem_of_mem_partition {all : List (List Char)} {part : List Char}
    (h : part ∈ (partition all).1) : part ∈ all := by
  unfold partition at h
  split at h
  · split at h
    · exact List.mem_of_mem_dropLast h
    · exact h
  · exact h

/-- What is read of a path: its segments, none of which is empty, the tables that they name, the
columns that the last one may list, and the text itself. -/
theorem parts_of_readTrimmed {raw : List Char} {p : SourcePath} (h : readTrimmed raw = .ok p) :
    ∃ all, segments raw = .ok all ∧ (∀ part ∈ all, part ≠ []) ∧
      (partition all).1.mapM TableSegment.read = .ok p.tables ∧
      (partition all).2.elim (.ok []) readColumns = .ok p.columns ∧ p.raw = String.ofList raw := by
  unfold readTrimmed at h
  obtain ⟨all, hall, h⟩ := bind_eq_ok.1 h
  dsimp only at h
  split at h
  · obtain ⟨_, hthrow, -⟩ := bind_eq_ok.1 h
    exact absurd hthrow throw_ne_ok
  · rename_i hempty
    refine ⟨all, hall, fun part hpart hnil => hempty ?_, ?_⟩
    · exact List.any_eq_true.2 ⟨part, hpart, by rw [hnil]; rfl⟩
    · obtain ⟨tables, htables, h⟩ := bind_eq_ok.1 h
      rw [htables]
      -- the columns are read on one branch only; what follows them is the same on both
      split at h <;> rename_i hlist <;> rw [hlist] <;>
        obtain ⟨columns, hcolumns, h⟩ := bind_eq_ok.1 h <;> split at h
      · rw [← pure_eq_ok.1 h]
        exact ⟨rfl, hcolumns, rfl⟩
      · exact absurd h throw_ne_ok
      · rw [← pure_eq_ok.1 h]
        exact ⟨rfl, hcolumns, rfl⟩
      · exact absurd h throw_ne_ok

/-- A path is read without the blanks around it and the slashes in front, if anything is left. -/
theorem readTrimmed_of_read {text : String} {p : SourcePath} (h : SourcePath.read text = .ok p) :
    dropSlashes (trimChars text.toList) ≠ [] ∧
      readTrimmed (dropSlashes (trimChars text.toList)) = .ok p := by
  unfold SourcePath.read at h
  dsimp only at h
  split at h
  · simp at h
  · rename_i hne
    exact ⟨by simpa using hne, mapError_eq_ok.1 h⟩

/-- The tables of a path that was read are as they were written. -/
theorem isWritten_of_read {text : String} {p : SourcePath} (h : SourcePath.read text = .ok p) :
    p.IsWritten := by
  obtain ⟨all, hall, hne, htables, -⟩ := parts_of_readTrimmed (readTrimmed_of_read h).2
  intro s hs
  obtain ⟨part, hpart, hread⟩ := exists_of_mapM_eq_ok htables hs
  have hmem := mem_of_mem_partition hpart
  have hraw := TableSegment.raw_of_read hread
  refine ⟨?_, ?_, ?_⟩ <;> rw [hraw, String.toList_ofList]
  · exact hread
  · exact isSegment_of_mem hall part hmem
  · exact hne part hmem

end SourcePath

/-- A segment does not begin with a slash. -/
theorem IsSegment.head?_ne {cs : List Char} (h : IsSegment cs) : cs.head? ≠ some '/' := by
  intro hhead
  match cs, hhead with
  | c :: rest, hhead =>
    obtain rfl : c = '/' := by simpa using hhead
    rw [IsSegment, segments, segmentsFrom_slash] at h
    obtain ⟨more, -, hmore⟩ := map_eq_ok.1 h
    simp at hmore

/-- A path made of segments has no slash in front. -/
theorem dropSlashes_joinAll {part : List Char} (rest : List (List Char)) (hpart : IsSegment part)
    (hne : part ≠ []) : dropSlashes (joinAll '/' (part :: rest)) = joinAll '/' (part :: rest) := by
  obtain ⟨c, cs, rfl⟩ := List.exists_cons_of_ne_nil hne
  have hc : (c == '/') = false := by simpa using hpart.head?_ne
  obtain ⟨more, hmore⟩ : ∃ more, joinAll '/' ((c :: cs) :: rest) = c :: more := by
    cases rest with
    | nil => exact ⟨cs, rfl⟩
    | cons next rest => exact ⟨_, rfl⟩
  rw [hmore, dropSlashes, List.dropWhile_cons, hc, if_neg (by simp)]

end FeatureStore
