import FeatureStore.Proofs.Write.Returned

/-!
# Runs and dry runs

The statements of a change need only identifiers captured before them, so a dry run renders all of
them (`exists_dryRunFrom`), and a run on any database renders every statement that it comes to
(`exists_run_isRun`). Such a run goes through the statements in order until one of them is answered
with a failure, or with nothing where it has to give something back (`Statement.stop?`); nothing
else ends it early. A database that gives rows the identifiers of the dry run is sent the texts of
the dry run (`runs_changeStatements`).
-/

set_option autoImplicit false

namespace FeatureStore

/-! ## Answers -/

/-- What a database answers to a statement; behind the end of its answers it gives nothing back. -/
def answerAt (answers : List WriteAnswer) (k : Nat) : WriteAnswer := answers.getD k (.ok none)

/-- The failure that an answer to a statement ends a run with: a failure of the database, or
nothing given back for a removal or an insertion. -/
def Statement.stop? : Statement → WriteAnswer → Option Error
  | _, .error failure => some (.execution failure)
  | _, .ok (some _) => none
  | .delete _ _ id, .ok none => some (.notFound id)
  | .insert table row _ _ _, .ok none => some (.internal (.noIdReturned table row.row))
  | .link _ _ _ _ _, .ok none => none
  | .pointAt _ _ _ _ _, .ok none => none

/-- The identifiers with that of the row that a statement inserts, if it was given back. -/
def CapturedIds.learn (ids : CapturedIds) (statement : Statement) (answer : WriteAnswer) :
    CapturedIds :=
  match statement.capture?, answer with
  | some row, .ok (some id) => ids.insert row id
  | _, _ => ids

/-- The identifiers with those given back to the statements of a list. -/
def CapturedIds.answered (ids : CapturedIds) : List Statement → List WriteAnswer → CapturedIds
  | [], _ => ids
  | statement :: rest, answers =>
    (ids.learn statement (answerAt answers 0)).answered rest answers.tail

/-- No answer to the first statements ends a run. -/
def GoesOn (statements : List Statement) (answers : List WriteAnswer) (n : Nat) : Prop :=
  ∀ k < n, ∀ statement, statements[k]? = some statement →
    statement.stop? (answerAt answers k) = none

/-- How a run ends, and after how many statements. -/
inductive RunEnds (statements : List Statement) (answers : List WriteAnswer) :
    Except Error (Option String) → Nat → Prop
  /-- All statements were run. -/
  | done (found : Option String) : GoesOn statements answers statements.length →
      RunEnds statements answers (.ok found) statements.length
  /-- The first answer that ends the run is that to the statement `k`, which was run. -/
  | stopped {k : Nat} {statement : Statement} {e : Error} : GoesOn statements answers k →
      statements[k]? = some statement → statement.stop? (answerAt answers k) = some e →
      RunEnds statements answers (.error e) (k + 1)

/-- A run of statements from identifiers known beforehand: some of them in order from the first on,
each rendered with the identifiers given back to those before it. -/
structure IsRun (ids : CapturedIds) (statements : List Statement) (answers : List WriteAnswer)
    (result : Except Error (Option String)) (texts : List String) : Prop where
  ends : RunEnds statements answers result texts.length
  rendered : ∀ {k : Nat} {text : String}, texts[k]? = some text →
    ∃ statement, statements[k]? = some statement ∧
      statement.text (ids.answered (statements.take k) answers) = .ok text

theorem answerAt_succ (answers : List WriteAnswer) (k : Nat) :
    answerAt answers (k + 1) = answerAt answers.tail k := by
  cases answers <;> rfl

theorem headD_eq_answerAt (answers : List WriteAnswer) :
    answers.headD (.ok none) = answerAt answers 0 := by
  cases answers <;> rfl

theorem goesOn_cons_iff {statement : Statement} {rest : List Statement}
    {answers : List WriteAnswer} {n : Nat} :
    GoesOn (statement :: rest) answers (n + 1) ↔
      statement.stop? (answerAt answers 0) = none ∧ GoesOn rest answers.tail n := by
  constructor
  · intro h
    refine ⟨h 0 (Nat.succ_pos n) statement rfl, ?_⟩
    intro k hk other hother
    rw [← answerAt_succ]
    exact h (k + 1) (Nat.succ_lt_succ hk) other hother
  · rintro ⟨hfirst, hrest⟩ k hk other hother
    cases k with
    | zero =>
      obtain rfl := Option.some.inj hother
      exact hfirst
    | succ k =>
      rw [answerAt_succ]
      exact hrest k (Nat.lt_of_succ_lt_succ hk) other hother

/-- A run ends where the run of the statements behind the first one does, if that goes on. -/
theorem RunEnds.cons {statement : Statement} {rest : List Statement} {answers : List WriteAnswer}
    {result : Except Error (Option String)} {n : Nat}
    (hfirst : statement.stop? (answerAt answers 0) = none)
    (h : RunEnds rest answers.tail result n) :
    RunEnds (statement :: rest) answers result (n + 1) := by
  cases h with
  | done found hall => exact .done found (goesOn_cons_iff.2 ⟨hfirst, hall⟩)
  | @stopped k other e hbefore hother hstop =>
    refine .stopped (goesOn_cons_iff.2 ⟨hfirst, hbefore⟩) hother ?_
    rw [answerAt_succ]
    exact hstop

/-- No identifier was missing. -/
theorem RunEnds.ne_idNotCaptured {statements : List Statement} {answers : List WriteAnswer}
    {result : Except Error (Option String)} {n : Nat} (h : RunEnds statements answers result n)
    (table row : Nat) : result ≠ .error (.internal (.idNotCaptured table row)) := by
  rintro rfl
  cases h with
  | @stopped k statement _ hbefore hstatement hstop =>
    cases hanswer : answerAt answers k with
    | error failure => simp [hanswer, Statement.stop?] at hstop
    | ok returned =>
      rw [hanswer] at hstop
      cases returned with
      | some found => simp [Statement.stop?] at hstop
      | none => cases statement <;> simp [Statement.stop?] at hstop

/-! ## Steps -/

namespace WriteState

variable {state : WriteState} {statement : Statement} {rest : List Statement}
  {answers : List WriteAnswer} {text : String}

theorem run_of_stop? {e : Error} (htext : statement.text state.ids = .ok text)
    (hstop : statement.stop? (answerAt answers 0) = some e) :
    state.run (statement :: rest) answers = (.error e, [text]) := by
  rw [run, htext]
  simp only [headD_eq_answerAt]
  cases hanswer : answerAt answers 0 with
  | error failure =>
    rw [hanswer] at hstop
    cases statement <;> (obtain rfl := Option.some.inj hstop; rfl)
  | ok returned =>
    rw [hanswer] at hstop
    -- an answer without an identifier stops at a deletion and at an insertion only
    cases returned with
    | some found => cases statement <;> exact absurd hstop.symm (Option.some_ne_none e)
    | none =>
      cases statement with
      | delete table column id =>
        obtain rfl := Option.some.inj hstop
        rfl
      | insert table row id columns key =>
        obtain rfl := Option.some.inj hstop
        rfl
      | link table parentField childField parent child =>
        exact absurd hstop.symm (Option.some_ne_none e)
      | pointAt table field key parent child => exact absurd hstop.symm (Option.some_ne_none e)

/-- An answer that does not end the run leads to a state that has learnt from it. -/
theorem exists_settle_learn (state : WriteState) {answer : WriteAnswer}
    (hstop : statement.stop? answer = none) : ∃ returned next, answer = .ok returned ∧
      state.settle statement returned = .ok next ∧ next.ids = state.ids.learn statement answer := by
  cases answer with
  | error failure => cases statement <;> exact absurd hstop (Option.some_ne_none _)
  | ok returned =>
    cases statement with
    | delete table column id =>
      cases returned with
      | none => exact absurd hstop (Option.some_ne_none _)
      | some found => exact ⟨_, _, rfl, rfl, rfl⟩
    | insert table row id columns key =>
      cases returned with
      | none => exact absurd hstop (Option.some_ne_none _)
      | some found => exact ⟨_, _, rfl, rfl, rfl⟩
    | link table parentField childField parent child =>
      cases returned <;> exact ⟨_, state, rfl, rfl, rfl⟩
    | pointAt table field key parent child =>
      cases returned <;> exact ⟨_, state, rfl, rfl, rfl⟩

theorem run_of_goesOn (rest : List Statement) (htext : statement.text state.ids = .ok text)
    (hstop : statement.stop? (answerAt answers 0) = none) :
    ∃ next : WriteState, next.ids = state.ids.learn statement (answerAt answers 0) ∧
      state.run (statement :: rest) answers =
        ((next.run rest answers.tail).1, text :: (next.run rest answers.tail).2) := by
  obtain ⟨returned, next, hanswer, hsettle, hids⟩ := exists_settle_learn state hstop
  refine ⟨next, hids, ?_⟩
  rw [run, htext]
  simp only [headD_eq_answerAt, hanswer, hsettle]

end WriteState

/-- The row of an insertion that does not end the run has an identifier behind it. -/
theorem CapturedIds.Knows.learn {ids : CapturedIds} {known : List RowRef} {statement : Statement}
    {answer : WriteAnswer} (h : ids.Knows known) (hstop : statement.stop? answer = none) :
    (ids.learn statement answer).Knows (statement.capture?.toList ++ known) := by
  cases statement with
  | insert table row id columns key =>
    cases answer with
    | error failure => exact absurd hstop (Option.some_ne_none _)
    | ok returned =>
      cases returned with
      | none => exact absurd hstop (Option.some_ne_none _)
      | some found => exact h.insert row found
  | delete table column id => exact h
  | link table parentField childField parent child => exact h
  | pointAt table field key parent child => exact h

/-! ## Runs -/

theorem IsRun.cons {ids : CapturedIds} {statement : Statement} {rest : List Statement}
    {answers : List WriteAnswer} {result : Except Error (Option String)} {text : String}
    {texts : List String} (htext : statement.text ids = .ok text)
    (hstop : statement.stop? (answerAt answers 0) = none)
    (h : IsRun (ids.learn statement (answerAt answers 0)) rest answers.tail result texts) :
    IsRun ids (statement :: rest) answers result (text :: texts) := by
  refine ⟨h.ends.cons hstop, ?_⟩
  intro k other hother
  cases k with
  | zero =>
    obtain rfl := Option.some.inj hother
    exact ⟨statement, rfl, htext⟩
  | succ k =>
    obtain ⟨found, hfound, hrendered⟩ := h.rendered hother
    exact ⟨found, hfound, hrendered⟩

/-- Statements that need only identifiers captured before them are run in order on any database,
up to the first answer that ends the run. -/
theorem exists_run_isRun {statements : List Statement} {known : List RowRef} (state : WriteState)
    (answers : List WriteAnswer) (hfirst : CapturedFirst known statements)
    (hknown : state.ids.Knows known) :
    ∃ result texts, state.run statements answers = (result, texts) ∧
      IsRun state.ids statements answers result texts := by
  induction statements generalizing answers state known with
  | nil =>
    refine ⟨.ok state.featureId, [], rfl, .done _ ?_, ?_⟩
    · intro k hk
      exact absurd hk (Nat.not_lt_zero k)
    · intro k text htext
      simp at htext
  | cons statement rest ih =>
    obtain ⟨hneeds, hrest⟩ := hfirst
    obtain ⟨text, htext⟩ := Statement.exists_text fun row hrow => hknown row (hneeds hrow)
    -- the run ends here, or it goes on and knows the identifier of the row
    cases hstop : statement.stop? (answerAt answers 0) with
    | some e =>
      refine ⟨.error e, [text], WriteState.run_of_stop? htext hstop, ?_, ?_⟩
      · refine .stopped (k := 0) ?_ rfl hstop
        intro k hk
        exact absurd hk (Nat.not_lt_zero k)
      · intro k other hother
        cases k with
        | zero =>
          obtain rfl := Option.some.inj hother
          exact ⟨statement, rfl, htext⟩
        | succ k => simp at hother
    | none =>
      obtain ⟨next, hids, hrun⟩ := WriteState.run_of_goesOn rest htext hstop
      have hnext : next.ids.Knows (statement.capture?.toList ++ known) := by
        rw [hids]
        exact hknown.learn hstop
      obtain ⟨result, texts, hbehind, h⟩ := ih next answers.tail hrest hnext
      rw [hids] at h
      rw [hbehind] at hrun
      exact ⟨result, text :: texts, hrun, h.cons htext hstop⟩

/-! ## Dry runs -/

/-- The statement takes the next number in a dry run: it captures an identifier, and the writer
gave none. -/
def Statement.takesNumber (statement : Statement) : Bool :=
  statement.capture?.isSome && statement.id?.isNone

/-- The identifier that a dry run gives to a statement, behind some others and some numbers. -/
def dryId (last : Nat) (before : List Statement) (statement : Statement) : String :=
  statement.id?.getD (toString (last + before.countP Statement.takesNumber + 1))

/-- The answers give rows the identifiers of a dry run, and find what is to be removed. -/
def AnswersDryRun (last : Nat) (statements : List Statement) (answers : List WriteAnswer) : Prop :=
  ∀ k statement, statements[k]? = some statement →
    (statement.capture?.isSome = true →
      answerAt answers k = .ok (some (dryId last (statements.take k) statement))) ∧
    (statement.isDelete = true → ∃ found, answerAt answers k = .ok (some found))

/-- The identifiers and the number behind a statement of a dry run. -/
def dryStep (ids : CapturedIds) (last : Nat) (statement : Statement) : CapturedIds × Nat :=
  match statement.capture?, statement.id? with
  | some row, some id => (ids.insert row id, last)
  | some row, none => (ids.insert row (toString (last + 1)), last + 1)
  | none, _ => (ids, last)

theorem dryRunFrom_cons (ids : CapturedIds) (last : Nat) (statement : Statement)
    (rest : List Statement) : dryRunFrom ids last (statement :: rest) = (do
      let text ← statement.text ids
      let texts ← dryRunFrom (dryStep ids last statement).1 (dryStep ids last statement).2 rest
      return text :: texts) := by
  rw [dryRunFrom, dryStep]
  cases statement.capture? with
  | none => rfl
  | some row => cases statement.id? <;> rfl

theorem dryStep_snd (ids : CapturedIds) (last : Nat) (statement : Statement) :
    (dryStep ids last statement).2 = last + if statement.takesNumber then 1 else 0 := by
  rw [dryStep, Statement.takesNumber]
  cases statement.capture? with
  | none => rfl
  | some row => cases statement.id? <;> rfl

/-- Statements whose needs are captured before them can be rendered by a dry run. -/
theorem exists_dryRunFrom {statements : List Statement} {ids : CapturedIds} {known : List RowRef}
    (last : Nat) (hfirst : CapturedFirst known statements) (hknown : ids.Knows known) :
    ∃ rendered, dryRunFrom ids last statements = .ok rendered := by
  induction statements generalizing ids last known with
  | nil => exact ⟨[], rfl⟩
  | cons statement rest ih =>
    obtain ⟨hneeds, hrest⟩ := hfirst
    obtain ⟨text, htext⟩ := Statement.exists_text fun row hrow => hknown row (hneeds hrow)
    have hnext : (dryStep ids last statement).1.Knows (statement.capture?.toList ++ known) := by
      rw [dryStep]
      cases hcapture : statement.capture? with
      | none => exact hknown
      | some row => cases statement.id? <;> exact hknown.insert row _
    obtain ⟨texts, htexts⟩ := ih (dryStep ids last statement).2 hrest hnext
    refine ⟨text :: texts, ?_⟩
    rw [dryRunFrom_cons]
    exact bind_eq_ok.2 ⟨text, htext, bind_eq_ok.2 ⟨texts, htexts, rfl⟩⟩

namespace AnswersDryRun

variable {last : Nat} {statement : Statement} {rest : List Statement} {answers : List WriteAnswer}

/-- What is learnt from the answers is what the dry run assumes. -/
theorem learn_eq (h : AnswersDryRun last (statement :: rest) answers) (ids : CapturedIds) :
    ids.learn statement (answerAt answers 0) = (dryStep ids last statement).1 := by
  obtain ⟨hcaptured, -⟩ := h 0 statement rfl
  cases hcapture : statement.capture? with
  | none => simp only [CapturedIds.learn, dryStep, hcapture]
  | some row =>
    rw [hcapture] at hcaptured
    simp only [CapturedIds.learn, dryStep, hcapture, hcaptured rfl, dryId]
    cases statement.id? <;> rfl

theorem tail (h : AnswersDryRun last (statement :: rest) answers) (ids : CapturedIds) :
    AnswersDryRun (dryStep ids last statement).2 rest answers.tail := by
  intro k other hother
  obtain ⟨hcaptured, hremoved⟩ := h (k + 1) other hother
  rw [answerAt_succ] at hcaptured hremoved
  refine ⟨fun hcapture => ?_, hremoved⟩
  rw [hcaptured hcapture, List.take_succ_cons, dryId, dryId, List.countP_cons, dryStep_snd]
  congr 5
  omega

/-- Only a failure of the database ends the run. -/
theorem of_stop? (h : AnswersDryRun last (statement :: rest) answers) {e : Error}
    (hstop : statement.stop? (answerAt answers 0) = some e) :
    ∃ failure, e = .execution failure := by
  obtain ⟨hcaptured, hremoved⟩ := h 0 statement rfl
  cases hanswer : answerAt answers 0 with
  | error failure =>
    rw [hanswer] at hstop
    refine ⟨failure, ?_⟩
    cases statement <;> exact (Option.some.inj hstop).symm
  | ok returned =>
    -- the answers of a dry run have every identifier that is asked for
    rw [hanswer] at hstop hcaptured hremoved
    cases statement with
    | delete table column id =>
      obtain ⟨found, hfound⟩ := hremoved rfl
      obtain rfl := Except.ok.inj hfound
      exact absurd hstop.symm (Option.some_ne_none e)
    | insert table row id columns key =>
      obtain rfl := Except.ok.inj (hcaptured rfl)
      exact absurd hstop.symm (Option.some_ne_none e)
    | link table parentField childField parent child =>
      cases returned <;> exact absurd hstop.symm (Option.some_ne_none e)
    | pointAt table field key parent child =>
      cases returned <;> exact absurd hstop.symm (Option.some_ne_none e)

end AnswersDryRun

/-- A run on a database that answers like a dry run is sent the texts of the dry run, up to a
failure of the database if there is one. -/
theorem run_of_answersDryRun {statements : List Statement} {answers : List WriteAnswer}
    {last : Nat} {rendered : List String} (state : WriteState)
    (hdry : dryRunFrom state.ids last statements = .ok rendered)
    (hanswers : AnswersDryRun last statements answers) :
    (state.run statements answers).2 <+: rendered ∧
      ((state.run statements answers).2 = rendered ∨
        ∃ failure, (state.run statements answers).1 = .error (.execution failure)) := by
  induction statements generalizing answers state last rendered with
  | nil =>
    obtain rfl := Except.ok.inj hdry
    exact ⟨List.prefix_refl [], Or.inl rfl⟩
  | cons statement rest ih =>
    rw [dryRunFrom_cons] at hdry
    obtain ⟨text, htext, hdry⟩ := bind_eq_ok.1 hdry
    obtain ⟨texts, htexts, hdry⟩ := bind_eq_ok.1 hdry
    obtain rfl := pure_eq_ok.1 hdry
    cases hstop : statement.stop? (answerAt answers 0) with
    | some e =>
      obtain ⟨failure, rfl⟩ := hanswers.of_stop? hstop
      rw [WriteState.run_of_stop? htext hstop]
      exact ⟨List.prefix_append [text] texts, Or.inr ⟨failure, rfl⟩⟩
    | none =>
      obtain ⟨next, hids, hrun⟩ := WriteState.run_of_goesOn rest htext hstop
      -- a dry run makes up the same identifier that is answered
      rw [hanswers.learn_eq] at hids
      rw [← hids] at htexts
      obtain ⟨hbefore, hall⟩ := ih next htexts (hanswers.tail state.ids)
      rw [hrun]
      refine ⟨(List.prefix_cons_inj text).2 hbefore, ?_⟩
      rcases hall with hall | hfailed
      · exact Or.inl (congrArg (text :: ·) hall)
      · exact Or.inr hfailed

/-! ## The statements of a change -/

/-- For every staged feature and every change of it, the statements can be made, and each needs
only identifiers captured before it. A dry run renders all of them. A run on any database goes
through them in order, up to the first failure, removal that finds nothing or insertion that gives
nothing back, and never misses an identifier. If the database gives rows the identifiers of the
dry run and finds what is to be removed, then the texts run are those of the dry run, unless it
fails at another statement. -/
theorem runs_changeStatements {tree : TableTree} {ops : List ValueOp} {s : Staging}
    (htree : tree.IsDerived) (happly : (Staging.start tree).apply ops = .ok s) (srid : Nat)
    (kind : ChangeKind) :
    ∃ statements rendered, tree.changeStatements srid kind s = .ok statements ∧
      CapturedFirst [] statements ∧ dryRun statements = .ok rendered ∧
      ∀ answers, ∃ result texts, runStatements statements answers = (result, texts) ∧
        IsRun CapturedIds.empty statements answers result texts ∧
        (∀ table row, result ≠ .error (.internal (.idNotCaptured table row))) ∧
        (AnswersDryRun 0 statements answers → texts <+: rendered ∧
          (texts = rendered ∨ ∃ failure, result = .error (.execution failure))) := by
  obtain ⟨statements, hstatements, hfirst⟩ :=
    capturedFirst_changeStatements htree happly srid kind
  have hknown : CapturedIds.empty.Knows [] := fun row hrow => absurd hrow List.not_mem_nil
  obtain ⟨rendered, hrendered⟩ := exists_dryRunFrom 0 hfirst hknown
  refine ⟨statements, rendered, hstatements, hfirst, hrendered, ?_⟩
  intro answers
  obtain ⟨result, texts, hrun, h⟩ :=
    exists_run_isRun WriteState.start answers hfirst hknown
  refine ⟨result, texts, hrun, h, h.ends.ne_idNotCaptured, ?_⟩
  intro hanswers
  have hdry := run_of_answersDryRun WriteState.start hrendered hanswers
  rw [hrun] at hdry
  exact hdry

/-- A parcel is written again under its identifier, with an owner through a junction, whose row gets
the first number. -/
theorem runs_changeStatements_parcel :
    let owner := "parcel/[id=parcel_id]parcel_2_owner/[owner_id=id]owner"
    let ops : List ValueOp :=
      [.value "parcel/name" "name" "north", .value (owner ++ "/name") "name" "Ann"]
    let statements : List Statement :=
      [ .delete "parcel" "id" "5",
        .insert "parcel" ⟨0, 0⟩ (some "5") [("id", .id "5"), ("name", .text "north")] "id",
        .insert "owner" ⟨1, 0⟩ none [("name", .text "Ann")] "id",
        .link "parcel_2_owner" "parcel_id" "owner_id" ⟨0, 0⟩ ⟨1, 0⟩ ]
    let answers : List WriteAnswer := [.ok (some "5"), .ok (some "5"), .ok (some "1"), .ok none]
    let texts :=
      [ "DELETE FROM parcel WHERE id=5 RETURNING id",
        "INSERT INTO parcel (id,name) VALUES (5,'north') RETURNING id",
        "INSERT INTO owner (name) VALUES ('Ann') RETURNING id",
        "INSERT INTO parcel_2_owner (parcel_id,owner_id) VALUES (5,1)" ]
    ∃ tree s result, TableTree.ofPaths ["parcel/name", owner ++ "/name"] = .ok tree ∧
      (Staging.start tree).apply ops = .ok s ∧
      tree.changeStatements 4326 (.update "5") s = .ok statements ∧
      AnswersDryRun 0 statements answers ∧ dryRun statements = .ok texts ∧
      runStatements statements answers = (result, texts) ∧
      IsRun CapturedIds.empty statements answers result texts := by
  intro owner ops statements answers texts
  have hcomputed : (do
      let tree ← TableTree.ofPaths ["parcel/name", owner ++ "/name"]
      let s ← (Staging.start tree).apply ops
      let made ← tree.changeStatements 4326 (.update "5") s
      return (made, (dryRun made).toOption, (runStatements made answers).2) :
        Except Error (List Statement × Option (List String) × List String)).toOption =
      some (statements, some texts, texts) := by
    decide +kernel
  obtain ⟨tree, htree, hok⟩ := bind_eq_ok.1 (toOption_eq_some.1 hcomputed)
  obtain ⟨s, hs, hok⟩ := bind_eq_ok.1 hok
  obtain ⟨made, hmade, hok⟩ := bind_eq_ok.1 hok
  obtain ⟨rfl, hok⟩ := Prod.mk.inj (pure_eq_ok.1 hok)
  obtain ⟨hdry, htexts⟩ := Prod.mk.inj hok
  have hanswers : AnswersDryRun 0 statements answers := by
    intro k statement hstatement
    rcases k with _ | _ | _ | _ | k
    · obtain rfl := Option.some.inj hstatement
      exact ⟨fun h => (nomatch h), fun _ => ⟨"5", rfl⟩⟩
    · obtain rfl := Option.some.inj hstatement
      exact ⟨fun _ => rfl, fun h => (nomatch h)⟩
    · obtain rfl := Option.some.inj hstatement
      exact ⟨fun _ => by decide, fun h => (nomatch h)⟩
    · obtain rfl := Option.some.inj hstatement
      exact ⟨fun h => (nomatch h), fun h => (nomatch h)⟩
    · simp [statements] at hstatement
  obtain ⟨others, rendered, hothers, -, -, hall⟩ :=
    runs_changeStatements (TableTree.isDerived_of_ofPaths htree) hs 4326 (.update "5")
  obtain rfl := Except.ok.inj (hmade.symm.trans hothers)
  obtain ⟨result, run, hrun, h, -⟩ := hall answers
  obtain rfl : run = texts := by
    rw [← htexts, hrun]
  exact ⟨tree, s, result, htree, hs, hmade, hanswers, toOption_eq_some.1 hdry, hrun, h⟩

end FeatureStore
