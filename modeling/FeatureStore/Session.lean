import FeatureStore.Read.Cell
import FeatureStore.Error

/-!
# Sessions

What passes between a reader and a database, as a value: the answers that the
database has for the queries to come, the texts of the queries sent, and the
number of rows taken. A database without an answer gives no rows.
-/

namespace FeatureStore

/-- The answer to a query: a failure, or rows with failures among them. -/
abbrev QueryAnswer := Except ExecutionFailure (List (Except ExecutionFailure Row))

/-- A session with a database. -/
structure Session where
  /-- The answers to the queries to come. -/
  answers : List QueryAnswer
  /-- The texts of the queries sent. -/
  queries : List String
  /-- The number of rows taken. -/
  taken : Nat
  deriving Inhabited

/-- A computation that talks to a database and may fail. -/
abbrev Talk := ExceptT Error (StateM Session)

namespace Session

/-- A session before the first query. -/
def start (answers : List QueryAnswer) : Session := ⟨answers, [], 0⟩

/-- Sends a query. Gives its rows, which are not taken yet. -/
def query (text : String) : Talk (List (Except ExecutionFailure Row)) := do
  let s ← get
  set { s with answers := s.answers.tail, queries := s.queries ++ [text] }
  match s.answers.headD (.ok []) with
  | .ok rows => return rows
  | .error failure => throw (.execution failure)

/-- Takes the first of some rows, if there is one. -/
def firstRow (rows : List (Except ExecutionFailure Row)) : Talk (Option Row) := do
  match rows with
  | [] => return none
  | first :: _ =>
    modify fun s => { s with taken := s.taken + 1 }
    match first with
    | .ok row => return some row
    | .error failure => throw (.execution failure)

/-- Counts rows that were taken. -/
def tookRows (count : Nat) : Talk Unit := modify fun s => { s with taken := s.taken + count }

end Session

end FeatureStore
