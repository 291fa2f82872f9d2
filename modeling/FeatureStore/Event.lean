/-!
# Events

A stream of features as a reader receives it: a start with the counts, then for
each feature its start, its property values and its end, and at last the end of
the stream.
-/

namespace FeatureStore

/-- One step of a stream of features. -/
inductive Event where
  | start (numberReturned : Nat) (numberMatched : Option Nat) (singleFeature : Bool)
  | featureStart (featureType id : String)
  /-- A value begins; `multiplicities` holds, from the root down, the number of the current row of
  each table on its way that may have several. -/
  | propertyStart (property : String) (multiplicities : List Nat)
  /-- The text of the value; left out where there is none. -/
  | text (value : String)
  | propertyEnd (property : String)
  | featureEnd
  | stop
  deriving DecidableEq, Repr

/-- The event begins a feature. -/
def Event.isFeatureStart : Event → Bool
  | .featureStart _ _ => true
  | _ => false

end FeatureStore
