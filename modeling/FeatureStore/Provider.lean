import FeatureStore.Read.Rows
import FeatureStore.Read.Stream
import FeatureStore.Session
import FeatureStore.Write.Change
import FeatureStore.Write.Run

/-!
# Providers

A provider offers the feature types of a configuration for reading and writing. A
read fixes its page first, then opens the statements of all join groups and
merges their rows into a stream of events. When the database fails, a read of
many features gives an empty result, and the read of one feature by its
identifier finds nothing; every other failure is passed on (`Provider.degrade`).
A write that the database refuses because of its data is refused; any other
failure of the database during a write is an internal one.
-/

namespace FeatureStore

/-- What the first statement of a read tells about the page. -/
structure PageInfo where
  least : Option Value
  greatest : Option Value
  returned : Nat
  matched : Option Nat
  deriving Inhabited

namespace PageInfo

/-- A root sort key as a value: a whole number if the database says so. -/
def keyValue (cell : Cell) : Value :=
  match cell.kind, readInt64? cell.text with
  | .integer, some n => .int (Int64.ofInt n)
  | _, _ => .text cell.text

/-- The count at an index of the row. -/
def countAt (row : Row) (index : Nat) : Except Error (Option Int) :=
  match row.text? index with
  | none => .ok none
  | some text =>
    match readInt64? (trimText text) with
    | some n => .ok (some n)
    | none => .error (.internal (.nonNumericCount text))

/-- The page from the row that tells about it. A count below zero stands for none. -/
def ofRow (row : Row) : Except Error PageInfo := do
  let returned ← countAt row 2
  let matched ← countAt row 3
  return {
    least := row[0]?.join.map keyValue
    greatest := row[1]?.join.map keyValue
    returned := (returned.getD 0).toNat
    matched := (matched.filter (0 ≤ ·)).map Int.toNat }

/-- The range of root sort keys, if both ends are known. -/
def keyRange (page : PageInfo) : Option (Value × Value) :=
  match page.least, page.greatest with
  | some least, some greatest => some (least, greatest)
  | _, _ => none

end PageInfo

/-- A provider of features. -/
structure Provider where
  config : Configuration
  /-- One plan for each feature type. -/
  plans : List ReadPlan
  deriving Inhabited

namespace Provider

/-- The provider of a configuration. -/
def ofConfiguration (c : Configuration) : Except Error Provider := do
  let config ← c.validated
  return ⟨config, ← config.types.mapM (ReadPlan.ofMapping config)⟩

/-- The plan of a feature type. -/
def plan (p : Provider) (featureType : String) : Except Error ReadPlan :=
  match p.plans.find? (·.featureType == featureType) with
  | some plan => .ok plan
  | none => .error (.config (.unknownType featureType))

/-! ## Reading -/

/-- The first event of a read that gives nothing. -/
def emptyStart (p : Provider) : Event :=
  .start 0 (if p.config.countsMatched then some 0 else none) false

/-- What a failed read gives instead: the first event of an empty result, or a failure. -/
def degrade (p : Provider) (query : Query) (e : Error) : Except Error Event :=
  match e, query.id with
  | .execution _, some id => .error (.notFound id)
  | .execution _, none => .ok p.emptyStart
  | e, _ => .error e

/-- What the page of a window is. -/
def openPage (plan : ReadPlan) (window : Window) : Talk PageInfo := do
  let text ← plan.pageText window
  let rows ← Session.query text
  match ← Session.firstRow rows with
  | some row => PageInfo.ofRow row
  | none => throw (.internal .noMetaRow)

/-- The merge of the rows of all join groups. -/
def openRows (plan : ReadPlan) (window : Window) (layouts : List SortLayout) : Talk Merge := do
  let texts ← plan.rowsTexts window
  let sources ← (texts.zip layouts).mapM fun (text, layout) => do
    return (layout, ← Session.query text)
  return Merge.start sources

/-- The stream of a query, before any failure is degraded. -/
def openStream (p : Provider) (plan : ReadPlan) (query : Query) : Talk FeatureStream := do
  let window := Window.ofQuery query (p.config.effectiveLimit query.limit)
  let page ← openPage plan window
  match page.returned, query.id with
  | 0, some id => throw (.notFound id)
  | returned, _ =>
    let first := Event.start returned page.matched query.isLookup
    let state ← Reconstruction.start plan (query.sortKeys.map SortKey.descending)
    if returned = 0 then return .start first (.ending state)
    else
      let merge ← openRows plan { window with keyRange := page.keyRange } state.layouts
      return .start first (.reading merge state)

/-- The stream, which has to begin a feature if the query is a look-up. -/
def primed (query : Query) (stream : FeatureStream) : Talk FeatureStream := do
  match query.id with
  | none => return stream
  | some id =>
    let (found, left) := stream.prime
    match found with
    | .ok true => return left
    | .ok false =>
      Session.tookRows left.taken
      throw (.notFound id)
    | .error e =>
      Session.tookRows left.taken
      throw e

/-- The stream of a query, and the session behind its opening. -/
def stream (p : Provider) (query : Query) (session : Session) :
    Except Error FeatureStream × Session :=
  match p.plan query.featureType with
  | .error e => (.error e, session)
  | .ok plan =>
    let opening : Talk FeatureStream := do
      let opened ← p.openStream plan query
      primed query opened
    match opening.run session with
    | (.ok opened, after) => (.ok opened, after)
    | (.error e, after) => ((p.degrade query e).map FeatureStream.empty, after)

/-- All events of a query, and the session behind the read. -/
def read (p : Provider) (query : Query) (session : Session) :
    Except Error (List Event) × Session :=
  match p.stream query session with
  | (.error e, after) => (.error e, after)
  | (.ok opened, after) =>
    let (events, failure, left) := opened.drain
    let done := { after with taken := after.taken + left.taken }
    match failure with
    | none => (.ok events, done)
    | some e => ((p.degrade query e).map fun first => [first, .stop], done)

/-! ## Writing -/

/-- The statements of a change of a feature. -/
def changeStatements (p : Provider) (featureType : String) (kind : ChangeKind)
    (ops : List ValueOp) : Except Error (List Statement) := do
  let plan ← p.plan featureType
  let tree := plan.storage.tree
  let staged ← (Staging.start tree).apply ops
  tree.changeStatements p.config.srid kind staged

/-- A failure of a write as the writer sees it. -/
def writeFailure : Error → Error
  | .execution failure =>
    if failure.isUserFacing then .validation failure.message else .internal (.store failure)
  | e => e

/-- Changes a feature in a database with these answers. Gives the identifier of the feature and the
texts that were run. -/
def write (p : Provider) (featureType : String) (kind : ChangeKind) (ops : List ValueOp)
    (answers : List WriteAnswer) : Except Error (Option String) × List String :=
  match p.changeStatements featureType kind ops with
  | .error e => (.error e, [])
  | .ok statements =>
    let (result, texts) := runStatements statements answers
    (result.mapError writeFailure, texts)

/-- Inserts a feature. -/
def create (p : Provider) (featureType : String) (ops : List ValueOp)
    (answers : List WriteAnswer) : Except Error (Option String) × List String :=
  p.write featureType .create ops answers

/-- Replaces a feature under its identifier. -/
def update (p : Provider) (featureType id : String) (ops : List ValueOp)
    (answers : List WriteAnswer) : Except Error (Option String) × List String :=
  p.write featureType (.update id) ops answers

/-- Removes a feature. -/
def delete (p : Provider) (featureType id : String) (answers : List WriteAnswer) :
    Except Error (Option String) × List String :=
  p.write featureType (.delete id) [] answers

end Provider

end FeatureStore
