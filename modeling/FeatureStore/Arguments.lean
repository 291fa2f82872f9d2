import FeatureStore.Command
import FeatureStore.Decimal.Reading

/-!
# Arguments of the command line

Every option takes a value, in the argument behind it or after an equals sign;
the other arguments are the name of an action and a feature type. An action
refuses options that are not its own and those that exclude each other
(`Invocation.ofArguments`).
-/

namespace FeatureStore

/-- The arguments of the command line, told apart. -/
structure Arguments where
  /-- Options with their values, in order. -/
  options : List (String × String)
  /-- The other arguments. -/
  words : List String
  deriving DecidableEq, Repr, Inhabited

namespace Arguments

/-- The full name of an option. -/
def optionName (text : List Char) : String :=
  if text = ['-', 'c'] then "config" else String.ofList (text.drop 2)

/-- The argument names an option. -/
def isOption (text : List Char) : Bool := text == ['-', 'c'] || ['-', '-'].isPrefixOf text

/-- Tells arguments apart. -/
def read : List String → Except String Arguments
  | [] => .ok ⟨[], []⟩
  | text :: rest =>
    let chars := text.toList
    if !isOption chars then (read rest).map fun a => { a with words := text :: a.words }
    else
      match cutAt '=' chars with
      | some (name, value) =>
        (read rest).map fun a =>
          { a with options := (optionName name, String.ofList value) :: a.options }
      | none =>
        match rest with
        | [] => .error ("a value is required for '" ++ text ++ "'")
        | value :: others =>
          (read others).map fun a => { a with options := (optionName chars, value) :: a.options }

/-- The value of an option that stands at most once. -/
def value? (a : Arguments) (name : String) : Except String (Option String) :=
  match a.options.filter (·.1 == name) with
  | [] => .ok none
  | [(_, value)] => .ok (some value)
  | _ => .error ("'--" ++ name ++ "' cannot be used multiple times")

/-- All values of an option. -/
def values (a : Arguments) (name : String) : List String :=
  (a.options.filter (·.1 == name)).map Prod.snd

/-- A count in an option, zero if it is left out. -/
def count (a : Arguments) (name : String) : Except String Nat := do
  match ← a.value? name with
  | none => return 0
  | some text =>
    let digits := text.toList
    if isDigits digits && decide (digitsValue digits < countLimit) then return digitsValue digits
    else throw ("invalid value '" ++ text ++ "' for '--" ++ name ++ "'")

/-- No options but the named ones. -/
def onlyOptions (a : Arguments) (names : List String) : Except String Unit :=
  match a.options.find? fun o => !names.contains o.1 with
  | some (name, _) => .error ("unexpected argument '--" ++ name ++ "'")
  | none => .ok ()

/-- Two options that exclude each other. -/
def apart (a : Arguments) (one other : String) : Except String Unit :=
  if (a.values one).isEmpty || (a.values other).isEmpty then .ok ()
  else .error ("'--" ++ one ++ "' cannot be used with '--" ++ other ++ "'")

end Arguments

/-- A whole command line: a command with the paths of its files, and the form of its report. -/
structure Invocation where
  format : ReportFormat
  command : Command String
  deriving DecidableEq, Repr, Inhabited

namespace Invocation

/-- Options that every action has. -/
def sharedOptions : List String := ["config", "format"]

/-- The form of the report; a grid unless another is asked for. -/
def formatOf (a : Arguments) : Except String ReportFormat := do
  match ← a.value? "format" with
  | none => return .grid
  | some "table" => return .grid
  | some "json" => return .json
  | some other => throw ("invalid value '" ++ other ++ "' for '--format'")

/-- The action of a name. -/
def actionOf (a : Arguments) (name : String) : Except String (Action String) := do
  match name with
  | "tree" =>
    a.onlyOptions sharedOptions
    return .tree
  | "query" =>
    a.onlyOptions (sharedOptions ++ ["limit", "offset", "sort", "filter", "id"])
    a.apart "id" "filter"
    a.apart "id" "sort"
    return .query (← a.count "limit") (← a.count "offset") (a.values "sort") (← a.value? "filter")
      (← a.value? "id")
  | "mutate" =>
    a.onlyOptions (sharedOptions ++ ["values", "update", "delete"])
    a.apart "update" "delete"
    return .mutate (← a.value? "values") (← a.value? "update") (← a.value? "delete")
  | other => throw ("unrecognized subcommand '" ++ other ++ "'")

/-- A command line from its arguments. -/
def ofArguments (arguments : List String) : Except String Invocation := do
  let a ← Arguments.read arguments
  match a.words with
  | [action, featureType] =>
    let action ← actionOf a action
    let format ← formatOf a
    match ← a.value? "config" with
    | some config => return ⟨format, ⟨config, featureType, action⟩⟩
    | none => throw "a configuration is required: --config FILE"
  | _ => throw "expected tree, query or mutate, and a feature type"

end Invocation

end FeatureStore
