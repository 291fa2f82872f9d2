import FeatureStore.Arguments
import FeatureStore.Json.Reader

/-!
# The command line

Reads the files that the arguments name, prints the report, and ends with zero;
a failed command prints its message and ends with one, a command line that is
not understood with two.
-/

namespace FeatureStore

/-- What a file holds. -/
def readInput (path : String) : IO InputFile := do
  try
    return .holds (Json.parse? (← IO.FS.readFile path))
  catch e =>
    return .unreadable path (toString e)

/-- An action with its files read. -/
def Action.load : Action String → IO (Action InputFile)
  | .tree => return .tree
  | .query limit offset sort filter id =>
    return .query limit offset sort (← filter.mapM readInput) id
  | .mutate operations update delete =>
    return .mutate (← operations.mapM readInput) update delete

/-- A command with its files read. -/
def Command.load (c : Command String) : IO (Command InputFile) :=
  return ⟨← readInput c.config, c.featureType, ← c.action.load⟩

end FeatureStore

open FeatureStore in
/-- Answers one command line. -/
def main (arguments : List String) : IO UInt32 := do
  match Invocation.ofArguments arguments with
  | .error reason =>
    IO.eprintln ("error: " ++ reason)
    return 2
  | .ok invocation =>
    match (← invocation.command.load).report with
    | .ok report =>
      IO.println (report.text invocation.format)
      return 0
    | .error fault =>
      IO.eprintln (invocation.format.failureText fault.message)
      return 1
