import FeatureStore.Proofs.Path.Joined
import FeatureStore.Table.Derivation

/-!
# The trie of steps

What `Trie.insert` keeps. A step that comes from tables as they were written is known by its key
(`Step.IsSound.eq_of_key`). The keys of siblings differ, and nothing lies below a junction that is a
table by itself, because a junction is such a table only at the end of a path (`ProperSteps`). These
facts together are `Trie.IsSound`; they hold of every trie made of written paths
(`Trie.isSound_insert`). In a sound trie, the segments on the way to a place tell the place
(`Trie.nodup_trails`): a junction taken by itself and the same junction taken together with the
table behind it are told apart by what follows them.
-/

set_option autoImplicit false

namespace FeatureStore

/-- A member of a list is found by what tells the members apart. -/
theorem find?_of_nodup_map {α β : Type} [DecidableEq β] {f : α → β} {l : List α}
    (h : (l.map f).Nodup) {a : α} (ha : a ∈ l) : l.find? (fun b => f b = f a) = some a := by
  cases hfound : l.find? fun b => f b = f a with
  | none =>
    have hnot := List.find?_eq_none.1 hfound a ha
    simp at hnot
  | some b =>
    have hb : f b = f a := by simpa using List.find?_some hfound
    rw [List.inj_on_of_nodup_map h (List.mem_of_find?_eq_some hfound) ha hb]

/-- Lists of written tables with the same texts are the same. -/
theorem TableSegment.eq_of_raws : ∀ {ss ts : List TableSegment}, (∀ s ∈ ss, s.IsWritten) →
    (∀ t ∈ ts, t.IsWritten) →
    (ss.map fun s => s.raw.toList) = (ts.map fun t => t.raw.toList) → ss = ts
  | [], [], _, _, _ => rfl
  | [], _ :: _, _, _, h => by simp at h
  | _ :: _, [], _, _, h => by simp at h
  | s :: ss, t :: ts, hs, ht, h => by
    obtain ⟨hraw, hrest⟩ := List.cons.inj h
    obtain ⟨hwritten, hs⟩ := List.forall_mem_cons.1 hs
    obtain ⟨hwritten', ht⟩ := List.forall_mem_cons.1 ht
    rw [hwritten.eq_of_raw hwritten' (String.toList_inj.1 hraw), eq_of_raws hs ht hrest]

/-! ## Steps -/

namespace Step

/-- The tables that a step consists of. -/
def segments (s : Step) : List TableSegment := s.junction.toList ++ [s.segment]

/-- The texts that a step consists of. -/
def raws (s : Step) : List (List Char) := s.segments.map fun t => t.raw.toList

/-- The step leads to a junction that is a table by itself. -/
def isDeadEnd (s : Step) : Bool := s.junction.isNone && s.segment.isJunction

/-- The step comes from tables as they were written. -/
structure IsSound (s : Step) : Prop where
  key_eq : s.key.toList = joinAll '/' s.raws
  written : ∀ t ∈ s.segments, t.IsWritten
  join_isSome : s.segment.join.isSome = true
  junction_is : ∀ j ∈ s.junction, j.isJunction = true ∧ j.join.isSome = true

theorem raws_ne_nil (s : Step) : s.raws ≠ [] := by
  simp [raws, segments]

/-- A step leads from a path to that of its tables behind those above. -/
theorem IsSound.toList_append {s : Step} (h : s.IsSound) {path : String} {above : List (List Char)}
    (hne : above ≠ []) (hpath : path.toList = joinAll '/' above) :
    (path ++ "/" ++ s.key).toList = joinAll '/' (above ++ s.raws) := by
  rw [joinAll_append hne s.raws_ne_nil, ← h.key_eq, ← hpath]
  simp [String.toList_append]

namespace IsSound

variable {s t : Step}

theorem isSegment (h : s.IsSound) : ∀ part ∈ s.raws, IsSegment part := by
  intro part hpart
  obtain ⟨seg, hseg, rfl⟩ := List.mem_map.1 hpart
  exact (h.written seg hseg).isSegment

/-- A step is known by its key. -/
theorem eq_of_key (hs : s.IsSound) (ht : t.IsSound) (h : s.key = t.key) : s = t := by
  have hraws : s.raws = t.raws := by
    refine joinAll_injective s.raws_ne_nil t.raws_ne_nil hs.isSegment ht.isSegment ?_
    rw [← hs.key_eq, ← ht.key_eq, h]
  have hsegments := TableSegment.eq_of_raws hs.written ht.written hraws
  -- the number of tables tells whether there is a junction
  rcases s with ⟨key, segment, junction⟩
  rcases t with ⟨key', segment', junction'⟩
  simp only at h
  cases junction <;> cases junction' <;> simp [segments] at hsegments
  · rw [h, hsegments]
  · rw [h, hsegments.1, hsegments.2]

end IsSound

/-- A table is reached by its own join. -/
theorem isSound_direct {segment : TableSegment} (hwritten : segment.IsWritten)
    (hjoin : ¬ segment.join.isNone = true) : IsSound ⟨segment.raw, segment, none⟩ where
  key_eq := rfl
  written := by simpa [segments] using hwritten
  join_isSome := by rwa [← Option.not_isNone, Bool.not_eq_true', ← Bool.not_eq_true]
  junction_is := by simp

/-- A table behind a junction is reached by the joins of both. -/
theorem isSound_behind {segment target : TableSegment} (hwritten : segment.IsWritten)
    (htarget : target.IsWritten) (hjunction : segment.isJunction = true)
    (hjoin : ¬ segment.join.isNone = true) (hbehind : ¬ target.join.isNone = true) :
    IsSound ⟨segment.raw ++ "/" ++ target.raw, target, some segment⟩ where
  key_eq := by simp [raws, segments, joinAll, String.toList_append]
  written := by simpa [segments] using ⟨hwritten, htarget⟩
  join_isSome := by rwa [← Option.not_isNone, Bool.not_eq_true', ← Bool.not_eq_true]
  junction_is := by
    rintro j ⟨⟩
    exact ⟨hjunction, by rwa [← Option.not_isNone, Bool.not_eq_true', ← Bool.not_eq_true]⟩

end Step

/-- Steps in a row that come from tables as they were written; a junction by itself is the last. -/
def ProperSteps : List Step → Prop
  | [] => True
  | s :: rest => s.IsSound ∧ (s.isDeadEnd = true → rest = []) ∧ ProperSteps rest

/-- How the tables below the root are taken as steps. -/
inductive StepsAlong : List TableSegment → List Step → Prop
  | nil : StepsAlong [] []
  /-- The last table is a step of its own, whether it is a junction or not. -/
  | last {segment : TableSegment} : ¬ segment.join.isNone = true →
      StepsAlong [segment] [⟨segment.raw, segment, none⟩]
  /-- A table that is no junction is a step of its own. -/
  | direct {segment target : TableSegment} {others : List TableSegment} {steps : List Step} :
      ¬ segment.join.isNone = true → segment.isJunction = false →
      StepsAlong (target :: others) steps →
      StepsAlong (segment :: target :: others) (⟨segment.raw, segment, none⟩ :: steps)
  /-- A junction makes one step with the table behind it. -/
  | behind {segment target : TableSegment} {others : List TableSegment} {steps : List Step} :
      ¬ segment.join.isNone = true → segment.isJunction = true → ¬ target.join.isNone = true →
      ¬ segment.filter.isSome = true → StepsAlong others steps →
      StepsAlong (segment :: target :: others)
        (⟨segment.raw ++ "/" ++ target.raw, target, some segment⟩ :: steps)

theorem stepsAlong_of_stepsOf : ∀ {segs : List TableSegment} {steps : List Step},
    stepsOf segs = .ok steps → StepsAlong segs steps
  | [], steps, h => by
    obtain rfl := Except.ok.inj h
    exact .nil
  | [segment], steps, h => by
    rw [stepsOf] at h
    split at h
    · simp at h
    · rename_i hjoin
      obtain rfl := Except.ok.inj h
      exact .last hjoin
  | segment :: target :: others, steps, h => by
    rw [stepsOf] at h
    split at h
    · simp at h
    · rename_i hjoin
      split at h
      · rename_i hplain
        obtain ⟨rest, hsteps, rfl⟩ := map_eq_ok.1 h
        exact .direct hjoin (by simpa using hplain) (stepsAlong_of_stepsOf hsteps)
      · rename_i hjunction
        split at h
        · simp at h
        · rename_i htarget
          split at h
          · simp at h
          · rename_i hfilter
            obtain ⟨rest, hsteps, rfl⟩ := map_eq_ok.1 h
            exact .behind hjoin (by simpa using hjunction) htarget hfilter
              (stepsAlong_of_stepsOf hsteps)

namespace StepsAlong

variable {segs : List TableSegment} {steps : List Step}

/-- Steps go through the tables that they were made of. -/
theorem flatMap_segments (h : StepsAlong segs steps) : steps.flatMap Step.segments = segs := by
  induction h with
  | nil => rfl
  | last _ => rfl
  | direct _ _ _ ih =>
    rw [List.flatMap_cons, ih]
    rfl
  | behind _ _ _ _ _ ih =>
    rw [List.flatMap_cons, ih]
    rfl

/-- The steps along tables as they were written. -/
theorem properSteps (h : StepsAlong segs steps) (hwritten : ∀ s ∈ segs, s.IsWritten) :
    ProperSteps steps := by
  induction h with
  | nil => trivial
  | last hjoin =>
    have hsound := Step.isSound_direct (hwritten _ List.mem_cons_self) hjoin
    exact ⟨hsound, fun _ => rfl, trivial⟩
  | direct hjoin hplain _ ih =>
    obtain ⟨hsegment, hrest⟩ := List.forall_mem_cons.1 hwritten
    refine ⟨Step.isSound_direct hsegment hjoin, fun hdead => ?_, ih hrest⟩
    -- the table is no junction, so the step does not end the path
    simp [Step.isDeadEnd, hplain] at hdead
  | behind hjoin hjunction htarget _ _ ih =>
    obtain ⟨hsegment, hrest⟩ := List.forall_mem_cons.1 hwritten
    obtain ⟨hbehind, hothers⟩ := List.forall_mem_cons.1 hrest
    have hsound := Step.isSound_behind hsegment hbehind hjunction hjoin htarget
    refine ⟨hsound, fun hdead => ?_, ih hothers⟩
    simp [Step.isDeadEnd] at hdead

end StepsAlong

/-! ## Sound tries -/

namespace Trie

/-- The key of the step that leads to a trie. -/
def key (t : Trie) : String := t.entry.step.key

/-- Siblings have different keys and sound steps, and below a junction by itself lies nothing. -/
inductive IsSound : Trie → Prop
  | node {entry : TrieEntry} {children : List Trie} :
      (∀ c ∈ children, IsSound c) → (children.map key).Nodup →
      (∀ c ∈ children, c.entry.step.IsSound ∧ (c.entry.step.isDeadEnd = true → c.children = [])) →
      IsSound (.node entry children)

/-- What a change of the trie with a key does: the first one with the key is changed, or a new one
is changed and put at the end. -/
theorem updateAt_cases (name : String) (new : Trie) (change : Trie → Trie) : ∀ l : List Trie,
    (∃ pre t post, l = pre ++ t :: post ∧ t.key = name ∧ (∀ u ∈ pre, u.key ≠ name) ∧
      updateAt name new change l = pre ++ change t :: post) ∨
    ((∀ u ∈ l, u.key ≠ name) ∧ updateAt name new change l = l ++ [change new])
  | [] => Or.inr ⟨by simp, rfl⟩
  | t :: rest => by
    by_cases h : t.key = name
    · refine Or.inl ⟨[], t, rest, rfl, h, by simp, ?_⟩
      rw [updateAt, if_pos (show t.entry.step.key = name from h)]
      rfl
    · have hne : updateAt name new change (t :: rest) = t :: updateAt name new change rest := by
        rw [updateAt, if_neg (show ¬ t.entry.step.key = name from h)]
      rcases updateAt_cases name new change rest with ⟨pre, u, post, hl, hk, hpre, hu⟩ | ⟨hall, hu⟩
      · refine Or.inl ⟨t :: pre, u, post, by rw [hl, List.cons_append], hk, ?_, ?_⟩
        · intro v hv
          rcases List.mem_cons.1 hv with rfl | hv
          · exact h
          · exact hpre v hv
        · rw [hne, hu, List.cons_append]
      · refine Or.inr ⟨?_, by rw [hne, hu, List.cons_append]⟩
        intro v hv
        rcases List.mem_cons.1 hv with rfl | hv
        · exact h
        · exact hall v hv

theorem isSound_leaf (step : Step) (origin : String) : (leaf step origin).IsSound :=
  .node (by simp) (by simp) (by simp)

/-- Adding columns changes neither the step that leads to a trie nor what is known of its tries. -/
theorem step_insert (origin : String) (columns : List Column) (steps : List Step) (t : Trie) :
    (t.insert origin columns steps).entry.step = t.entry.step := by
  rcases t with ⟨entry, children⟩
  cases steps with
  | nil => rfl
  | cons step rest => rfl

theorem children_insert_nil (origin : String) (columns : List Column) (t : Trie) :
    (t.insert origin columns []).children = t.children := by
  rcases t with ⟨entry, children⟩
  rfl

/-- What stands in a list behind a change: a trie from before, or the changed one. -/
theorem mem_updateAt {name : String} {new c : Trie} {change : Trie → Trie} {l : List Trie}
    (h : c ∈ updateAt name new change l) :
    c ∈ l ∨ ∃ t, (t ∈ l ∧ t.key = name ∨ t = new) ∧ c = change t := by
  rcases updateAt_cases name new change l with ⟨pre, t, post, rfl, hkey, -, hupdate⟩ | ⟨-, hupdate⟩
  · rw [hupdate] at h
    rcases List.mem_append.1 h with h | h
    · exact Or.inl (List.mem_append_left _ h)
    · rcases List.mem_cons.1 h with h | h
      · exact Or.inr ⟨t, Or.inl ⟨by simp, hkey⟩, h⟩
      · exact Or.inl (List.mem_append_right _ (List.mem_cons_of_mem _ h))
  · rw [hupdate] at h
    rcases List.mem_append.1 h with h | h
    · exact Or.inl h
    · exact Or.inr ⟨new, Or.inr rfl, List.mem_singleton.1 h⟩

/-- A change that keeps the key of a trie keeps all keys different. -/
theorem nodup_updateAt {name : String} {new : Trie} {change : Trie → Trie} {l : List Trie}
    (hnew : new.key = name) (hchange : ∀ t, (change t).key = t.key) (h : (l.map key).Nodup) :
    ((updateAt name new change l).map key).Nodup := by
  rcases updateAt_cases name new change l with
    ⟨pre, t, post, rfl, -, -, hupdate⟩ | ⟨hother, hupdate⟩
  · rw [hupdate]
    simpa [hchange] using h
  · rw [hupdate, List.map_append, List.map_singleton, hchange, hnew, List.nodup_append]
    refine ⟨h, by simp, ?_⟩
    intro a ha b hb
    obtain ⟨u, hu, rfl⟩ := List.mem_map.1 ha
    rw [List.mem_singleton.1 hb]
    exact hother u hu

/-- Adding a path to a sound trie keeps it sound. -/
theorem isSound_insert (origin : String) (columns : List Column) :
    ∀ (steps : List Step) (t : Trie), ProperSteps steps → t.IsSound →
      (t.insert origin columns steps).IsSound
  | [], .node entry children, _, .node hsub hkeys hsteps => .node hsub hkeys hsteps
  | step :: rest, .node entry children, ⟨hstep, hdead, hrest⟩, .node hsub hkeys hsteps => by
    show IsSound (.node entry
      (updateAt step.key (leaf step origin) (insert origin columns rest) children))
    -- the path goes on in the trie that its first step leads to, which may be a new one
    have hnext : ∀ t, (t ∈ children ∧ t.key = step.key ∨ t = leaf step origin) →
        t.IsSound ∧ t.entry.step = step ∧ (step.isDeadEnd = true → t.children = []) := by
      rintro t (⟨ht, hkey⟩ | rfl)
      · have hsame : t.entry.step = step := (hsteps t ht).1.eq_of_key hstep hkey
        rw [← hsame]
        exact ⟨hsub t ht, rfl, (hsteps t ht).2⟩
      · exact ⟨isSound_leaf step origin, rfl, fun _ => rfl⟩
    refine .node (fun c hc => ?_) (nodup_updateAt rfl (fun t => ?_) hkeys) (fun c hc => ?_)
    · rcases mem_updateAt hc with hc | ⟨t, ht, rfl⟩
      · exact hsub c hc
      · exact isSound_insert origin columns rest t hrest (hnext t ht).1
    · rw [key, step_insert, key]
    · rcases mem_updateAt hc with hc | ⟨t, ht, rfl⟩
      · exact hsteps c hc
      · obtain ⟨-, hsame, hnone⟩ := hnext t ht
        rw [step_insert, hsame]
        refine ⟨hstep, fun hd => ?_⟩
        rw [hdead hd, children_insert_nil]
        exact hnone hd

/-! ## Trails -/

mutual
/-- For every place of a trie in pre-order the texts on the way to it; those on the way to the top
are `above`. -/
def trails (above : List (List Char)) : Trie → List (List (List Char))
  | .node _ children => above :: trailsOfList above children

/-- The trails of the tries below a place. -/
def trailsOfList (above : List (List Char)) : List Trie → List (List (List Char))
  | [] => []
  | t :: rest => t.trails (above ++ t.entry.step.raws) ++ trailsOfList above rest
end

mutual
/-- A trail goes on from the way to the top. -/
theorem prefix_of_mem_trails {above trail : List (List Char)} : ∀ {t : Trie},
    trail ∈ t.trails above → above <+: trail
  | .node entry children, h => by
    rw [trails] at h
    rcases List.mem_cons.1 h with rfl | h
    · exact List.prefix_rfl
    · obtain ⟨c, -, hc⟩ := prefix_of_mem_trailsOfList h
      exact (List.prefix_append above _).trans hc

theorem prefix_of_mem_trailsOfList {above trail : List (List Char)} : ∀ {l : List Trie},
    trail ∈ trailsOfList above l → ∃ c ∈ l, above ++ c.entry.step.raws <+: trail
  | [], h => by simp [trailsOfList] at h
  | t :: rest, h => by
    rw [trailsOfList] at h
    rcases List.mem_append.1 h with h | h
    · exact ⟨t, List.mem_cons_self, prefix_of_mem_trails h⟩
    · obtain ⟨c, hc, hp⟩ := prefix_of_mem_trailsOfList h
      exact ⟨c, List.mem_cons_of_mem _ hc, hp⟩
end

theorem mem_trailsOfList {above trail : List (List Char)} {l : List Trie} :
    trail ∈ trailsOfList above l ↔ ∃ c ∈ l, trail ∈ c.trails (above ++ c.entry.step.raws) := by
  induction l with
  | nil => simp [trailsOfList]
  | cons t rest ih => simp [trailsOfList, ih]

/-- A place without anything below it has one trail. -/
theorem trails_of_children_eq_nil {t : Trie} (h : t.children = []) (above : List (List Char)) :
    t.trails above = [above] := by
  rcases t with ⟨entry, children⟩
  obtain rfl : children = [] := h
  rfl

/-- Steps that consist of equally many tables and stand in front of the same trail are the same. -/
theorem key_eq_of_prefix {s t : Trie} {above trail : List (List Char)}
    (hs : s.entry.step.IsSound) (ht : t.entry.step.IsSound)
    (h1 : above ++ s.entry.step.raws <+: trail) (h2 : above ++ t.entry.step.raws <+: trail)
    (hlength : s.entry.step.raws.length = t.entry.step.raws.length) : s.key = t.key := by
  have hraws : above ++ s.entry.step.raws = above ++ t.entry.step.raws :=
    (List.prefix_of_prefix_length_le h1 h2 (by simp [hlength])).eq_of_length (by simp [hlength])
  refine String.toList_inj.1 ?_
  rw [key, key, hs.key_eq, ht.key_eq, List.append_cancel_left hraws]

/-- A step by itself whose table begins another step leads to a junction. -/
theorem isDeadEnd_of_prefix {s t : Trie} {above trail : List (List Char)} {j : TableSegment}
    (hs : s.entry.step.IsSound) (ht : t.entry.step.IsSound)
    (hnone : s.entry.step.junction = none) (hj : t.entry.step.junction = some j)
    (h1 : above ++ s.entry.step.raws <+: trail) (h2 : above ++ t.entry.step.raws <+: trail) :
    s.entry.step.isDeadEnd = true := by
  have hraws1 : s.entry.step.raws = [s.entry.step.segment.raw.toList] := by
    simp [Step.raws, Step.segments, hnone]
  have hraws2 : t.entry.step.raws = [j.raw.toList, t.entry.step.segment.raw.toList] := by
    simp [Step.raws, Step.segments, hj]
  obtain ⟨r1, hr1⟩ := h1
  obtain ⟨r2, hr2⟩ := h2
  have hraw : s.entry.step.segment.raw.toList = j.raw.toList := by
    rw [← hr2, hraws1, hraws2, List.append_assoc, List.append_assoc,
      List.append_cancel_left_eq] at hr1
    simp only [List.cons_append, List.nil_append, List.cons.injEq] at hr1
    exact hr1.1
  have hsame : s.entry.step.segment = j := by
    refine (hs.written _ ?_).eq_of_raw (ht.written j ?_) (String.toList_inj.1 hraw)
    · simp [Step.segments]
    · simp [Step.segments, hj]
  rw [Step.isDeadEnd, hnone, hsame, (ht.junction_is j hj).1]
  rfl

theorem length_raws_of_none {s : Step} (h : s.junction = none) : s.raws.length = 1 := by
  simp [Step.raws, Step.segments, h]

theorem length_raws_of_some {s : Step} {j : TableSegment} (h : s.junction = some j) :
    s.raws.length = 2 := by
  simp [Step.raws, Step.segments, h]

/-- A step by itself whose table begins another step is a junction, and its trail ends there. -/
theorem trails_disjoint_of_junction {s t : Trie} {above trail : List (List Char)}
    {j : TableSegment} (hs : s.entry.step.IsSound) (ht : t.entry.step.IsSound)
    (hnone : s.entry.step.junction = none) (hj : t.entry.step.junction = some j)
    (hdead : s.entry.step.isDeadEnd = true → s.children = [])
    (h1 : trail ∈ s.trails (above ++ s.entry.step.raws))
    (h2 : trail ∈ t.trails (above ++ t.entry.step.raws)) : False := by
  have hdeadEnd := isDeadEnd_of_prefix hs ht hnone hj (prefix_of_mem_trails h1)
    (prefix_of_mem_trails h2)
  -- so the trail of the first is too short for the second
  rw [trails_of_children_eq_nil (hdead hdeadEnd), List.mem_singleton] at h1
  have hlength := (prefix_of_mem_trails h2).length_le
  rw [h1, List.length_append, List.length_append, length_raws_of_none hnone,
    length_raws_of_some hj] at hlength
  omega

/-- Trails of siblings with different keys differ. -/
theorem trails_disjoint {s t : Trie} {above trail : List (List Char)}
    (hs : s.entry.step.IsSound) (ht : t.entry.step.IsSound) (hne : s.key ≠ t.key)
    (hsdead : s.entry.step.isDeadEnd = true → s.children = [])
    (htdead : t.entry.step.isDeadEnd = true → t.children = [])
    (h1 : trail ∈ s.trails (above ++ s.entry.step.raws))
    (h2 : trail ∈ t.trails (above ++ t.entry.step.raws)) : False := by
  have hsame := key_eq_of_prefix hs ht (prefix_of_mem_trails h1) (prefix_of_mem_trails h2)
  cases hjs : s.entry.step.junction with
  | none =>
    cases hjt : t.entry.step.junction with
    | none => exact hne (hsame (by simp [Step.raws, Step.segments, hjs, hjt]))
    | some j => exact trails_disjoint_of_junction hs ht hjs hjt hsdead h1 h2
  | some i =>
    cases hjt : t.entry.step.junction with
    | none => exact trails_disjoint_of_junction ht hs hjt hjs htdead h2 h1
    | some j => exact hne (hsame (by simp [Step.raws, Step.segments, hjs, hjt]))

mutual
/-- In a sound trie every place has a trail of its own. -/
theorem nodup_trails (above : List (List Char)) : ∀ {t : Trie}, t.IsSound → (t.trails above).Nodup
  | .node entry children, .node hsub hkeys hsteps => by
    rw [trails, List.nodup_cons]
    -- a trail below the top is longer than that of the top
    refine ⟨fun h => ?_, nodup_trailsOfList above hsub hkeys hsteps⟩
    obtain ⟨c, -, hc⟩ := prefix_of_mem_trailsOfList h
    have hlength := hc.length_le
    rw [List.length_append] at hlength
    have := List.length_pos_iff.2 c.entry.step.raws_ne_nil
    omega

theorem nodup_trailsOfList (above : List (List Char)) : ∀ {l : List Trie},
    (∀ c ∈ l, c.IsSound) → (l.map key).Nodup →
    (∀ c ∈ l, c.entry.step.IsSound ∧ (c.entry.step.isDeadEnd = true → c.children = [])) →
      (trailsOfList above l).Nodup
  | [], _, _, _ => by simp [trailsOfList]
  | t :: rest, hsub, hkeys, hsteps => by
    rw [List.map_cons, List.nodup_cons] at hkeys
    rw [trailsOfList, List.nodup_append]
    refine ⟨nodup_trails _ (hsub t List.mem_cons_self),
      nodup_trailsOfList above (fun c hc => hsub c (List.mem_cons_of_mem _ hc)) hkeys.2
        (fun c hc => hsteps c (List.mem_cons_of_mem _ hc)), ?_⟩
    intro a ha b hb hab
    subst hab
    obtain ⟨ht, htdead⟩ := hsteps t List.mem_cons_self
    obtain ⟨c, hc, hmem⟩ := mem_trailsOfList.1 hb
    obtain ⟨hcstep, hcdead⟩ := hsteps c (List.mem_cons_of_mem _ hc)
    refine trails_disjoint ht hcstep (fun heq => hkeys.1 ?_) htdead hcdead ha hmem
    rw [heq]
    exact List.mem_map_of_mem hc
end

end Trie

end FeatureStore
