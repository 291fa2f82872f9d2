/-!
# Failures

Everything that can go wrong, as causes. The wording of a cause is in one
function beside it (`MappingFault.reason`, `InternalFault.message`,
`ConfigFault.message`), and `Error.message` puts the parts together.
-/

namespace FeatureStore

/-- The class of a failure reported by a database. -/
inductive ExecutionKind where
  | constraint
  | parse
  | connection
  | other
  deriving DecidableEq, Repr

/-- A failure reported by a database. -/
structure ExecutionFailure where
  kind : ExecutionKind
  message : String
  deriving DecidableEq, Repr

namespace ExecutionKind

/-- The name of a class of failures. -/
def name : ExecutionKind → String
  | .constraint => "constraint"
  | .parse => "parse"
  | .connection => "connection"
  | .other => "other"

end ExecutionKind

namespace ExecutionFailure

/-- The text of a failure. -/
def text (f : ExecutionFailure) : String := f.kind.name ++ " error: " ++ f.message

/-- The submitted data caused the failure, not the state of the database. -/
def isUserFacing (f : ExecutionFailure) : Bool := f.kind == .constraint || f.kind == .parse

end ExecutionFailure

/-- Why a source path, a mapping or a filter does not fit. -/
inductive MappingFault where
  /-- The path has no characters. -/
  | emptyPath
  /-- A bracket or brace is closed that was not opened. -/
  | unbalanced (mark : Char)
  /-- A bracket or brace is never closed. -/
  | unclosedBrackets
  /-- Nothing stands between two slashes. -/
  | emptySegment
  /-- The bracket of a join is not closed. -/
  | unclosedJoin (segment : String)
  /-- A join is not an equation of two columns. -/
  | malformedJoin (condition : String)
  | invalidTable (name : String)
  /-- The braces behind a table name are not closed, or other text stands between them. -/
  | unclosedFlags (segment : String)
  /-- The row filter of a segment is no document of a filter. -/
  | invalidRowFilter
  /-- A flag has no value. -/
  | invalidFlag (flag : String)
  /-- The uniqueness of a sort key is neither `true` nor `false`. -/
  | invalidUniqueness (value : String)
  | unknownJoinType (value : String)
  | unknownFlag (name : String)
  | invalidColumn (name : String)
  /-- There are no paths to make a tree of. -/
  | noPaths
  /-- The property of an object is mapped to columns. -/
  | objectWithColumns (property : String)
  /-- The path starts at another table than the root. -/
  | foreignRoot (table : String)
  /-- The root table is written with two different sets of flags. -/
  | conflictingRootFlags (table : String)
  | tableWithoutJoin (table : String)
  | junctionWithFilter (table : String)
  | junctionWithoutJoin (table : String)
  /-- A join uses neither the key of the parent nor the key of the child. -/
  | joinWithoutKey (source target parent child : String)
  /-- A predicate reads two tables below the root. -/
  | combinedTables (first second : String)
  | unknownProperty
  /-- The table of a property is not among those of the select around it. -/
  | unreachableProperty
  /-- A sort key is no column of the root table. -/
  | sortKeyBelowRoot
  /-- The position of a row is asked for outside a relation filter. -/
  | positionOutsideRelation
  | missingArgument
  | noCollation
  | notTemporal
  /-- An array predicate has no array literal. -/
  | noArrayLiteral
  | arrayInRowFilter
  | unsupportedArrayOperator (name : String)
  deriving DecidableEq, Repr

/-- The wording of a mapping fault. -/
def MappingFault.reason : MappingFault → String
  | .emptyPath => "empty source path"
  | .unbalanced mark => "unbalanced '" ++ mark.toString ++ "'"
  | .unclosedBrackets => "unbalanced brackets"
  | .emptySegment => "empty path segment"
  | .unclosedJoin segment => "unclosed join in '" ++ segment ++ "'"
  | .malformedJoin condition => "join '" ++ condition ++ "' is not of the form a=b"
  | .invalidTable name => "invalid table name '" ++ name ++ "'"
  | .unclosedFlags segment => "unclosed flags in '" ++ segment ++ "'"
  | .invalidRowFilter => "invalid row filter: not the document of a filter"
  | .invalidFlag flag => "invalid flag '" ++ flag ++ "'"
  | .invalidUniqueness value =>
    "sortKeyUnique must be true or false, got '" ++ value ++ "'"
  | .unknownJoinType value => "unknown join type '" ++ value ++ "'"
  | .unknownFlag name => "unknown flag '" ++ name ++ "'"
  | .invalidColumn name => "invalid column name '" ++ name ++ "'"
  | .noPaths => "no source paths given"
  | .objectWithColumns property =>
    "object property '" ++ property ++ "' must address a table"
  | .foreignRoot table => "path does not start at root table '" ++ table ++ "'"
  | .conflictingRootFlags table => "conflicting flags for root table '" ++ table ++ "'"
  | .tableWithoutJoin table => "table '" ++ table ++ "' has no join condition"
  | .junctionWithFilter table => "junction '" ++ table ++ "' cannot carry a filter"
  | .junctionWithoutJoin table => "junction '" ++ table ++ "' has no join condition"
  | .joinWithoutKey source target parent child =>
    "join [" ++ source ++ "=" ++ target ++ "] references neither the key of '" ++ parent ++
      "' nor the key of '" ++ child ++ "'"
  | .combinedTables first second =>
    "predicate combines properties of '" ++ first ++ "' and '" ++ second ++ "'"
  | .unknownProperty => "unknown property"
  | .unreachableProperty => "property is not reachable from this predicate"
  | .sortKeyBelowRoot => "sort key is not a column of the root table"
  | .positionOutsideRelation => "only allowed in relation filters"
  | .missingArgument => "missing argument"
  | .noCollation => "no accent-insensitive collation configured"
  | .notTemporal => "not a temporal operand"
  | .noArrayLiteral => "array predicates need a literal array operand"
  | .arrayInRowFilter => "array predicates are not allowed in row filters"
  | .unsupportedArrayOperator name =>
    "array operator " ++ name ++ " is not supported on properties"

/-- A state that the library or the database should never be in. -/
inductive InternalFault where
  /-- A value statement was asked for without any table. -/
  | emptyTableChain
  /-- A sort field names a table that the tree does not have. -/
  | unknownSortField (path : String)
  /-- A row came from a group that does not exist. -/
  | unknownGroup (group : Nat)
  | unknownTable (id : Nat)
  | nonNumericCount (text : String)
  | noMetaRow
  /-- A statement needs the identifier of a row that has none yet. -/
  | idNotCaptured (table row : Nat)
  /-- An insert gave no identifier back. -/
  | noIdReturned (table : String) (row : Nat)
  /-- The database failed during a write. -/
  | store (failure : ExecutionFailure)
  deriving DecidableEq, Repr

/-- The wording of an internal fault. -/
def InternalFault.message : InternalFault → String
  | .emptyTableChain => "empty table chain"
  | .unknownSortField path => "sort field of unknown table " ++ path
  | .unknownGroup group => "row of unknown group " ++ toString group
  | .unknownTable id => "unknown table id " ++ toString id
  | .nonNumericCount text => "meta query returned non-numeric count '" ++ text ++ "'"
  | .noMetaRow => "meta query returned no row"
  | .idNotCaptured table row =>
    "no id captured for row " ++ toString row ++ " of table " ++ toString table
  | .noIdReturned table row =>
    "insert into " ++ table ++ " returned no id for row " ++ toString row
  | .store failure => failure.text

/-- Why a configuration is refused. -/
inductive ConfigFault where
  | maxLimitZero
  | defaultAboveMax (default max : Nat)
  | noSourcePath (featureType : String)
  | duplicateType (featureType : String)
  | unknownType (featureType : String)
  deriving DecidableEq, Repr

/-- The wording of a configuration fault. -/
def ConfigFault.message : ConfigFault → String
  | .maxLimitZero => "max_limit must be positive"
  | .defaultAboveMax default max =>
    "default_limit " ++ toString default ++ " exceeds max_limit " ++ toString max
  | .noSourcePath featureType => "feature type '" ++ featureType ++ "' has no source path"
  | .duplicateType featureType => "duplicate feature type '" ++ featureType ++ "'"
  | .unknownType featureType => "unknown feature type '" ++ featureType ++ "'"

/-- A failure of the library. -/
inductive Error where
  /-- A source path or a property does not fit. -/
  | mapping (path : String) (fault : MappingFault)
  /-- No table of the tree is addressed by a path, or it has no row to address. -/
  | unregisteredPath (path : String)
  /-- A row does not have the shape that its table asks for, or there is none. -/
  | missingRow (path : String) (row : Nat)
  /-- The database failed. -/
  | execution (failure : ExecutionFailure)
  /-- There is no feature with the identifier. -/
  | notFound (id : String)
  /-- The submitted data were refused. -/
  | validation (message : String)
  | internal (fault : InternalFault)
  | config (fault : ConfigFault)
  /-- A text is no JSON document, or not of the kind asked for. -/
  | malformedDocument
  deriving DecidableEq, Repr

/-- The text of a failure. -/
def Error.message : Error → String
  | .mapping path fault => "mapping error for '" ++ path ++ "': " ++ fault.reason
  | .unregisteredPath path => "no values found for path " ++ path
  | .missingRow path row => "no values found for row " ++ toString row ++ " of " ++ path
  | .execution failure => "execution error: " ++ failure.text
  | .notFound id => "feature not found: " ++ id
  | .validation message => "validation error: " ++ message
  | .internal fault => "internal error: " ++ fault.message
  | .config fault => "configuration error: " ++ fault.message
  | .malformedDocument => "json error: malformed document"

end FeatureStore
