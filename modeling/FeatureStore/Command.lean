import FeatureStore.Read.Rows
import FeatureStore.Report.Basic
import FeatureStore.Write.Change
import FeatureStore.Write.Run

/-!
# Commands

What a user asks on the command line about a feature type of a configuration:
its tables, the statements of a read, or the statements of a write with rows
numbered in the order of their insertion. The files that the user names are read
before; a command fails at the first thing that is wrong, in the order
configuration, sort keys, filter or operations, feature type, statements
(`Command.report`).
-/

namespace FeatureStore

/-- A file named by the user. -/
inductive InputFile where
  /-- It cannot be read. -/
  | unreadable (path reason : String)
  /-- It was read; there is no document if its text is not JSON. -/
  | holds (document : Option Json)
  deriving Inhabited

/-- What is asked about a feature type. `File` is how a file is given: by its path, or read. -/
inductive Action (File : Type) where
  /-- The tables. -/
  | tree
  /-- The statements of a read. A sort key is a column, or a column, a colon and a direction. -/
  | query (limit offset : Nat) (sort : List String) (filter : Option File) (id : Option String)
  /-- The statements of a write: an insertion, unless a feature is to be replaced or removed. -/
  | mutate (operations : Option File) (update delete : Option String)
  deriving DecidableEq, Repr, Inhabited

/-- A command. -/
structure Command (File : Type) where
  config : File
  featureType : String
  action : Action File
  deriving DecidableEq, Repr, Inhabited

/-- Why a command fails. -/
inductive CommandFault where
  /-- The configuration cannot be read. -/
  | noConfiguration (reason : String)
  /-- Another file cannot be read. -/
  | unreadable (path reason : String)
  /-- The file of a filter holds none. -/
  | badFilter
  /-- The file of operations holds none. -/
  | badOperations
  | unknownType (featureType : String)
  /-- A sort key names no column or no direction. -/
  | badSortKey (text : String)
  | failed (e : Error)
  deriving DecidableEq, Repr

/-- The text of a failure. -/
def CommandFault.message : CommandFault → String
  | .noConfiguration reason => "io error: " ++ reason
  | .unreadable path reason => "cannot read " ++ path ++ ": " ++ reason
  | .badFilter => "invalid filter: not the document of a filter"
  | .badOperations => "invalid value operations: not a list of operations"
  | .unknownType featureType => "unknown feature type '" ++ featureType ++ "'"
  | .badSortKey text => "invalid sort key '" ++ text ++ "', expected column or column:desc"
  | .failed e => e.message

namespace InputFile

/-- The document of a file, or that it cannot be read. -/
def document : InputFile → Except CommandFault (Option Json)
  | .unreadable path reason => .error (.unreadable path reason)
  | .holds document => .ok document

/-- The configuration in a file. -/
def configuration : InputFile → Except CommandFault Configuration
  | .unreadable _ reason => .error (.noConfiguration reason)
  | .holds document => (Configuration.ofDocument document).mapError .failed

/-- The filter in a file. -/
def filter (file : InputFile) : Except CommandFault Filter := do
  match (← file.document).bind Filter.ofJson? with
  | some f => return f
  | none => throw .badFilter

/-- The operations in a file. -/
def operations (file : InputFile) : Except CommandFault (List ValueOp) := do
  match (← file.document).bind ValueOp.listOfJson? with
  | some ops => return ops
  | none => throw .badOperations

end InputFile

/-- A direction from its name, true for descending. Case does not matter. -/
def descending? (direction : List Char) : Option Bool :=
  match String.ofList (direction.map Char.toLower) with
  | "asc" => some false
  | "desc" => some true
  | _ => none

/-- A sort key from its text; without a colon it is ascending. -/
def SortKey.ofText? (text : String) : Option SortKey :=
  match cutAt ':' text.toList with
  | none => if text.isEmpty then none else some ⟨text, false⟩
  | some ([], _) => none
  | some (field, direction) =>
    (descending? direction).map fun d => ⟨String.ofList field, d⟩

/-- The kind of change that is asked for; a replacement goes before a removal. -/
def ChangeKind.ofIds (update delete : Option String) : ChangeKind :=
  match update, delete with
  | some id, _ => .update id
  | none, some id => .delete id
  | none, none => .create

namespace Command

/-- The plan of a feature type. -/
def plan (config : Configuration) (featureType : String) : Except CommandFault ReadPlan :=
  match config.type? featureType with
  | none => .error (.unknownType featureType)
  | some mapping => (ReadPlan.ofMapping config mapping).mapError .failed

/-- A sort key from its text. -/
def sortKey (text : String) : Except CommandFault SortKey :=
  match SortKey.ofText? text with
  | some key => .ok key
  | none => .error (.badSortKey text)

/-- The statement that fixes the page of a query, and the statements that read its rows. -/
def queryTexts (config : Configuration) (plan : ReadPlan) (query : Query) :
    Except Error (List (String × String)) := do
  let window := Window.ofQuery query (config.effectiveLimit query.limit)
  let page ← plan.pageText window
  let rows ← plan.rowsTexts window
  return ("meta", page) :: (plan.groups.map JoinGroup.path).zip rows

/-- The statements of a change with their texts; the database gives one number after the other. -/
def changeTexts (config : Configuration) (plan : ReadPlan) (kind : ChangeKind)
    (ops : List ValueOp) : Except Error (List (Statement × String)) := do
  let tree := plan.storage.tree
  let staged ← (Staging.start tree).apply ops
  let statements ← tree.changeStatements config.srid kind staged
  return statements.zip (← dryRun statements)

/-- The report that a command asks for. -/
def report (c : Command InputFile) : Except CommandFault Report := do
  let config ← c.config.configuration
  match c.action with
  | .tree =>
    let plan ← plan config c.featureType
    return .tables plan.storage.tree.tables
  | .query limit offset sort filter id =>
    let sortKeys ← sort.mapM sortKey
    let filter ← filter.mapM InputFile.filter
    let plan ← plan config c.featureType
    let query : Query := ⟨c.featureType, limit, offset, sortKeys, filter, id⟩
    return .queries (← (queryTexts config plan query).mapError .failed)
  | .mutate operations update delete =>
    let ops ← (operations.map InputFile.operations).getD (.ok [])
    let plan ← plan config c.featureType
    let kind := ChangeKind.ofIds update delete
    return .statements (← (changeTexts config plan kind ops).mapError .failed)

end Command

end FeatureStore
