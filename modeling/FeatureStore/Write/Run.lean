import FeatureStore.Write.Statement

/-!
# Running statements

The statements of a write run one after the other. What a database answers to a
statement is a failure, the value it gives back, or nothing. A removal that gives
nothing back found no feature; an insertion has to give the identifier of its
row. A run stops at the first thing that goes wrong (`WriteState.run`). A dry run
answers for the database: with the identifier that the writer gave, or else with
the next number (`dryRun`).
-/

namespace FeatureStore

/-- What a database answers to a statement. -/
abbrev WriteAnswer := Except ExecutionFailure (Option String)

/-- What is known between two statements. -/
structure WriteState where
  ids : CapturedIds
  /-- The identifier of the feature. -/
  featureId : Option String
  deriving DecidableEq, Repr, Inhabited

namespace WriteState

/-- Before the first statement. -/
def start : WriteState := ⟨CapturedIds.empty, none⟩

/-- What is known once the database has given back an identifier of a row. -/
def captured (state : WriteState) (row : RowRef) (id : String) : WriteState :=
  ⟨state.ids.insert row id, if row.table = 0 then some id else state.featureId⟩

/-- What is known once a statement has given something back. -/
def settle (state : WriteState) (statement : Statement) (returned : Option String) :
    Except Error WriteState :=
  match statement, returned with
  | .delete _ _ id, none => .error (.notFound id)
  | .delete _ _ _, some found => .ok { state with featureId := some found }
  | .insert table row _ _ _, none => .error (.internal (.noIdReturned table row.row))
  | .insert _ row _ _ _, some id => .ok (state.captured row id)
  | _, _ => .ok state

/-- Runs statements on a database with these answers; behind their end it gives nothing back. Gives
the identifier of the feature, or what went wrong, and the texts that were run. -/
def run (state : WriteState) :
    List Statement → List WriteAnswer → Except Error (Option String) × List String
  | [], _ => (.ok state.featureId, [])
  | statement :: rest, answers =>
    match statement.text state.ids with
    | .error e => (.error e, [])
    | .ok text =>
      match answers.headD (.ok none) with
      | .error failure => (.error (.execution failure), [text])
      | .ok returned =>
        match state.settle statement returned with
        | .error e => (.error e, [text])
        | .ok next =>
          let (result, texts) := next.run rest answers.tail
          (result, text :: texts)

end WriteState

/-- Runs statements from the beginning. -/
def runStatements (statements : List Statement) (answers : List WriteAnswer) :
    Except Error (Option String) × List String :=
  WriteState.start.run statements answers

/-- The texts of statements if every insertion gives back the identifier given by the writer or else
the next number behind `last`. -/
def dryRunFrom (ids : CapturedIds) (last : Nat) : List Statement → Except Error (List String)
  | [] => .ok []
  | statement :: rest => do
    let text ← statement.text ids
    let texts ← match statement.capture?, statement.id? with
      | some row, some id => dryRunFrom (ids.insert row id) last rest
      | some row, none => dryRunFrom (ids.insert row (toString (last + 1))) (last + 1) rest
      | none, _ => dryRunFrom ids last rest
    return text :: texts

/-- The texts of statements if every insertion gives back the identifier given by the writer or else
the next number, beginning with one. -/
def dryRun (statements : List Statement) : Except Error (List String) :=
  dryRunFrom CapturedIds.empty 0 statements

end FeatureStore
