import FeatureStore.Sql.Scalar

/-!
# Tests on the timeline

A temporal predicate compares the ends of two ranges of time. The range of a
literal begins at its first moment and ends before its last one; that of a
column is the one moment that it holds, and the end belongs to it. `relate` says
which comparisons of ends a relation stands for. A dialect that can test two
periods for overlap does so instead of comparing.
-/

namespace FeatureStore

/-- The symbol of a comparison. -/
def Comparison.symbol : Comparison → String
  | .eq => "="
  | .ne => "<>"
  | .lt => "<"
  | .le => "<="
  | .gt => ">"
  | .ge => ">="

/-- A range of time. -/
structure TimeRange where
  start : Scalar
  stop : Scalar
  /-- The range ends before `stop`. -/
  exclusive : Bool
  deriving DecidableEq, Inhabited

namespace TimeRange

/-- The range from an expression to itself. -/
def point (moment : Scalar) : TimeRange := ⟨moment, moment, false⟩

/-- The first moment of a literal range. -/
def startOf : IntervalBound → Scalar
  | .unbounded => .earliest
  | .instant t => .instant t
  | .date d => .date d

/-- The moment that a literal range ends before. -/
def stopOf : IntervalBound → Scalar
  | .unbounded => .latest
  | .instant t => .instant t
  | .date d => .date d

/-- The range of a literal. -/
def ofLiteral (literal : TemporalLiteral) : TimeRange :=
  ⟨startOf literal.range.start, stopOf literal.range.stop, true⟩

/-- From the start of one range to the end of another. -/
def spanning (first last : TimeRange) : TimeRange := ⟨first.start, last.stop, last.exclusive⟩

/-- The range as an expression. -/
def toScalar (r : TimeRange) : Scalar := .period r.start r.stop

end TimeRange

/-- A test on moments. -/
inductive TimeTest where
  | compare (op : Comparison) (left right : Scalar)
  | both (first second : TimeTest)
  | negation (test : TimeTest)
  /-- Two periods share a moment. -/
  | overlaps (left right : TimeRange)
  deriving DecidableEq, Inhabited

namespace TimeTest

/-- The point lies at or before the last moment of the range. -/
def reaches (r : TimeRange) (point : Scalar) : TimeTest :=
  .compare (if r.exclusive then .lt else .le) point r.stop

/-- The range ends before the point. -/
def endsBefore (r : TimeRange) (point : Scalar) : TimeTest :=
  .compare (if r.exclusive then .le else .lt) r.stop point

/-- Neither range ends before the other begins. -/
def meets (l r : TimeRange) : TimeTest := .both (reaches l r.start) (reaches r l.start)

/-- The last moment of the first range is one of the second or lies before it. -/
def endsWithin (l r : TimeRange) : TimeTest :=
  if l.exclusive then .compare .le l.stop r.stop else reaches r l.stop

/-- The test that a relation between two ranges stands for. -/
def relate (hasOverlaps : Bool) (relation : TemporalRelation) (l r : TimeRange) : TimeTest :=
  match relation with
  | .intersects => if hasOverlaps then .overlaps l r else meets l r
  | .disjoint => .negation (meets l r)
  | .before => endsBefore l r.start
  | .after => endsBefore r l.start
  | .during => .both (.compare .ge l.start r.start) (endsWithin l r)
  | .equals =>
    .both (.compare .eq l.start r.start)
      (.compare (if l.exclusive = r.exclusive then .eq else .lt) l.stop r.stop)

/-- The text of a test. -/
def sql (dialect : Dialect) (srid : Nat) : TimeTest → Sql
  | .compare op left right =>
    left.sql dialect srid ++ .text (" " ++ op.symbol ++ " ") :: right.sql dialect srid
  | .both first second => first.sql dialect srid ++ .text " AND " :: second.sql dialect srid
  | .negation test => Sql.around "NOT (" (test.sql dialect srid) ")"
  | .overlaps l r =>
    let pair (range : TimeRange) : Sql :=
      Sql.parenthesized (range.start.sql dialect srid ++ .text ", " :: range.stop.sql dialect srid)
    pair l ++ .text " OVERLAPS " :: pair r

end TimeTest

end FeatureStore
