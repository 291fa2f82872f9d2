import FeatureStore.Filter.Shown
import FeatureStore.Sql.Condition
import FeatureStore.Sql.Storage
import FeatureStore.Text.Lowercase

/-!
# From operands to expressions

An operand becomes an expression within a scope. In a filter on features a
property is resolved to a table, which has to be one of those that the select
around it reads; in a filter on the rows of one table a property names a column,
and the position of a row may be asked for. From operands follow predicates, and
from these the conditions on rows (`Storage.rowCondition`).
-/

namespace FeatureStore

/-- What a name stands for inside a filter. -/
inductive Scope where
  /-- A property of a feature, read from one of the tables with these paths. -/
  | feature (tables : List (String × Alias))
  /-- A column of one table. -/
  | row (table : Alias)
  deriving Inhabited

/-- The name of a function in messages. -/
def ScalarFunction.title : ScalarFunction → String
  | .upper => "UPPER"
  | .lower => "LOWER"
  | .caseInsensitive => "CASEI"
  | .accentInsensitive => "ACCENTI"
  | .position => "POSITION"

namespace Storage

/-- The column that a name stands for. -/
def column (s : Storage) (scope : Scope) (property : String) : Except Error Scalar :=
  match scope with
  | .row table => .ok (.column table property)
  | .feature tables => do
    let (table, column) ← s.resolve property
    match tables.lookup table.path with
    | some name => return .column name column
    | none => throw (.mapping property .unreachableProperty)

/-- The position of a row, where it may be asked for. -/
def rowPosition : Scope → Except Error Scalar
  | .row table => .ok (.position table)
  | .feature _ => .error (.mapping "POSITION()" .positionOutsideRelation)

/-- A function of its first argument, if there is one. -/
def applyFunction (s : Storage) (scope : Scope) (function : ScalarFunction)
    (arg? : Option (Operand × Except Error Scalar)) : Except Error Scalar :=
  match function, arg? with
  | .position, _ => rowPosition scope
  | function, none => .error (.mapping function.title .missingArgument)
  | .upper, some (_, arg) => arg.map .upper
  | .lower, some (_, arg) => arg.map .lower
  | .caseInsensitive, some (.literal (.text text), _) => .ok (.literal (.text (lowercase text)))
  | .caseInsensitive, some (_, arg) => arg.map .lower
  | .accentInsensitive, some (_, arg) =>
    match s.collation with
    | some collation => arg.map (.collated · collation)
    | none => .error (.mapping "ACCENTI()" .noCollation)

mutual
/-- The expression that an operand stands for. -/
def scalar (s : Storage) (scope : Scope) : Operand → Except Error Scalar
  | .property name => s.column scope name
  | .literal value => .ok (.literal value)
  | .geometry value => .ok (.geometry value.unwrapped)
  | .temporal (.instant value) => .ok (.instant value)
  | .temporal (.date value) => .ok (.date value)
  | .temporal (.interval start stop) =>
    .ok (TimeRange.ofLiteral (.interval start stop)).toScalar
  | .interval start stop => do
    let first ← s.timeRange scope start
    let last ← s.timeRange scope stop
    return (TimeRange.spanning first last).toScalar
  | .array values => .ok (.list values)
  | .apply function args => s.applyFunction scope function (s.firstScalar scope args)

/-- The range of time that an operand stands for. -/
def timeRange (s : Storage) (scope : Scope) : Operand → Except Error TimeRange
  | .temporal literal => .ok (TimeRange.ofLiteral literal)
  | .interval start stop => do
    let first ← s.timeRange scope start
    let last ← s.timeRange scope stop
    return TimeRange.spanning first last
  | .property name => (s.column scope name).map TimeRange.point
  | .apply function args =>
    (s.applyFunction scope function (s.firstScalar scope args)).map TimeRange.point
  | .literal value => .error (.mapping (Operand.literal value).shown .notTemporal)
  | .geometry value => .error (.mapping (Operand.geometry value).shown .notTemporal)
  | .array values => .error (.mapping (Operand.array values).shown .notTemporal)

/-- The first operand of a list and the expression that it stands for. -/
def firstScalar (s : Storage) (scope : Scope) :
    List Operand → Option (Operand × Except Error Scalar)
  | [] => none
  | arg :: _ => some (arg, s.scalar scope arg)
end

/-- The test that a predicate stands for. -/
def test (s : Storage) (scope : Scope) (negated : Bool) (predicate : Predicate) :
    Except Error Test := do
  let scalar := s.scalar scope
  match predicate with
  | .compare op left right => return .compare op (← scalar left) (← scalar right)
  | .like value pattern => return .like (← scalar value) (← scalar pattern)
  | .oneOf value list =>
    let members ← list.mapM scalar
    return .oneOf (← scalar value) members negated
  | .isNull value => return .isNull (← scalar value)
  | .between value lower upper =>
    return .between (← scalar value) (← scalar lower) (← scalar upper)
  | .spatial relation left right => return .spatial relation (← scalar left) (← scalar right)
  | .temporal relation left right =>
    let first ← s.timeRange scope left
    let second ← s.timeRange scope right
    return .temporal (TimeTest.relate s.dialect.hasOverlaps relation first second)

end Storage

/-! ## Relations between arrays of literals -/

namespace Operand

/-- The members of a literal, if the operand is one. -/
def members? : Operand → Option (List Value)
  | .array values => some values
  | .literal value => some [value]
  | _ => none

end Operand

namespace ArrayRelation

/-- The relation with its sides swapped. -/
def swapped : ArrayRelation → ArrayRelation
  | .contains => .containedBy
  | .containedBy => .contains
  | relation => relation

/-- Every member of a list is one of another. -/
def includes (all part : List Value) : Bool := part.all (Value.isAmong all)

/-- The relation holds between two lists of values. -/
def holds (relation : ArrayRelation) (left right : List Value) : Bool :=
  match relation with
  | .contains => includes left right
  | .containedBy => includes right left
  | .equals => left.length == right.length && includes left right
  | .overlaps => left.any (Value.isAmong right)

/-- An array relation between a value that a statement reads and literals: the value, the
literals, and the relation with the value on its left. -/
def readAgainst (relation : ArrayRelation) (left right : Operand) :
    Except Error (Operand × List Value × ArrayRelation) :=
  match left, right with
  | .array values, value => .ok (value, values, relation.swapped)
  | value, .array values => .ok (value, values, relation)
  | left, _ => .error (.mapping left.shown .noArrayLiteral)

end ArrayRelation

namespace Storage

/-- The text of a test. -/
def testSql (s : Storage) (test : Test) : Sql := test.sql s.dialect s.srid

/-- An array relation on the rows of one table; only literals may be compared. -/
def rowArray (relation : ArrayRelation) (left right : Operand) : Except Error RowCondition :=
  match left.members?, right.members? with
  | some first, some second => .ok (.constant (relation.holds first second))
  | _, _ => do
    let (value, _, _) ← relation.readAgainst left right
    throw (.mapping value.subject .arrayInRowFilter)

/-- The condition that a filter on the rows of one table stands for. -/
def rowCondition (s : Storage) (table : Alias) (filter : Filter) : Except Error RowCondition :=
  filter.lower (fun negated p => (s.test (.row table) negated p).map .atom) rowArray .negation

/-- The text of a condition on the rows of one table. -/
def rowConditionSql (s : Storage) (condition : RowCondition) : Sql := condition.sql s.testSql

end Storage

end FeatureStore
