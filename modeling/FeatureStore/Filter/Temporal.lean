import FeatureStore.Calendar.Reading
import FeatureStore.Json.Record

/-!
# Temporal literals

Instants, dates and intervals between them. An instant stands for its whole
second and a date for its whole day, both ends of an interval included. So a
literal covers the range from its start up to, but without, its end widened by
one second or one day (`TemporalLiteral.range`); where the calendar ends the
range is open.
-/

namespace FeatureStore

/-- One end of an interval. -/
inductive IntervalBound where
  | unbounded
  | instant (value : Instant)
  | date (value : Date)
  deriving DecidableEq

/-- A temporal literal. -/
inductive TemporalLiteral where
  | instant (value : Instant)
  | date (value : Date)
  | interval (start stop : IntervalBound)
  deriving DecidableEq

namespace IntervalBound

/-- The first bound after everything that this bound stands for. -/
def widened : IntervalBound → IntervalBound
  | .unbounded => .unbounded
  | .instant t => (t.nextSecond?.map .instant).getD .unbounded
  | .date d => (d.next?.map .date).getD .unbounded

/-- A bound from its document. -/
def ofJson? (place : Json.Place) (json : Json) : Option IntervalBound := do
  match ← json.variant? with
  | ("open", data) => if Json.isUnit place data then some .unbounded else none
  | ("instant", some data) => return .instant (← Instant.readLenient? (← data.string?))
  | ("date", some data) => return .date (← Date.readLenient? (← data.string?))
  | _ => none

/-- The document of a bound. -/
def toJson : IntervalBound → Json
  | .unbounded => .string "open"
  | .instant t => .object [("instant", .string t.text)]
  | .date d => .object [("date", .string d.text)]

end IntervalBound

/-- The start of a range of time and its end, which is not part of it. -/
structure TemporalRange where
  start : IntervalBound
  stop : IntervalBound
  deriving DecidableEq

namespace TemporalLiteral

/-- An instant from RFC 3339 text. -/
def ofInstantText? (text : String) : Option TemporalLiteral :=
  (Instant.read? text).map .instant

/-- A date from text. -/
def ofDateText? (text : String) : Option TemporalLiteral := (Date.read? text).map .date

/-- The range of time that a literal covers. -/
def range : TemporalLiteral → TemporalRange
  | .instant t => ⟨.instant t, (IntervalBound.instant t).widened⟩
  | .date d => ⟨.date d, (IntervalBound.date d).widened⟩
  | .interval start stop => ⟨start, stop.widened⟩

/-- A literal from its document. -/
def ofJson? (place : Json.Place) (json : Json) : Option TemporalLiteral := do
  match ← json.variant? with
  | ("instant", some data) => return .instant (← Instant.readLenient? (← data.string?))
  | ("date", some data) => return .date (← Date.readLenient? (← data.string?))
  | ("interval", some (.array [start, stop])) =>
    return .interval (← IntervalBound.ofJson? place start) (← IntervalBound.ofJson? place stop)
  | _ => none

/-- The document of a literal. -/
def toJson : TemporalLiteral → Json
  | .instant t => .object [("instant", .string t.text)]
  | .date d => .object [("date", .string d.text)]
  | .interval start stop => .object [("interval", .array [start.toJson, stop.toJson])]

end TemporalLiteral

end FeatureStore
