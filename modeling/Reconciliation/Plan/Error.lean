import Reconciliation.Plan.Basic
import Reconciliation.Store.Error
/-!
# How a pass fails

Every failure is a cause with the things it is about.  A cause belongs to one of three classes: something is not there,
the bookkeeping of the pass went wrong, or the graphs ask for what a pass cannot do.  `ReconcileError.message` words it.
An overflow is in a class of its own, since the program ends there.
-/
namespace Reconciliation

/-- **Why a pass fails.** -/
inductive ReconcileError
  /-- The graph refuses a lookup or an edit. -/
  | store (cause : StoreError)
  | differentSchemas
  | targetClassifiedTwice (id : EntityId) (existing got : TargetFate)
  | incomingClassifiedTwice (id : EntityId) (existing got : IncomingFate)
  | scheduledTwice (id : EntityId)
  | additionClassified (id : EntityId) (existing : IncomingFate)
  | targetUnclassified (id : EntityId)
  | trackCycle (through start : EntityId)
  | noChild (id : EntityId)
  | severalParents (id : EntityId)
  | parentsNeverAdded (ids : List EntityId)
  | relabelParentNeverAdded (id : EntityId)
  /-- The holder of a slot or of a natural key stays, and an entity of the named kind needs it. -/
  | slotTaken (holder : EntityId) (kindName : String)
deriving DecidableEq, Inhabited

inductive ErrorClass
  | notFound
  | invariantViolation
  | unsupported
  | overflow
deriving DecidableEq, Inhabited

namespace ReconcileError

/-- The class of a failure.  Of the refusals of a graph, those about occupied slots and keys are unsupported. -/
def errorClass : ReconcileError → ErrorClass
  | .store (.notFound _) | .store (.keyNotFound _) => .notFound
  | .store (.oneToOneOccupied _ _) | .store (.duplicateKey _ _) => .unsupported
  | .differentSchemas | .slotTaken _ _ => .unsupported
  | .store (.indexOverflow _) => .overflow
  | _ => .invariantViolation

def detail : ReconcileError → String
  | .store (.keyNotFound key) => s!"entity {key.render} not found"
  | .store cause => cause.message
  | .differentSchemas => "target and incoming graphs use different schemas"
  | .targetClassifiedTwice id existing got =>
    s!"target {id.text} already classified as {existing.label}, got {got.label}"
  | .incomingClassifiedTwice id existing got =>
    s!"incoming {id.text} already classified as {existing.label}, got {got.label}"
  | .scheduledTwice id => s!"operation already scheduled for {id.text}"
  | .additionClassified id existing => s!"cannot add incoming {id.text} already classified as {existing.label}"
  | .targetUnclassified id => s!"filtered target {id.text} was not classified before the incoming pass"
  | .trackCycle through start => s!"parent cycle through {through.text} while tracking {start.text}"
  | .noChild id => s!"track node {id.text} has no child"
  | .severalParents id => s!"{id.text} has more than one parent"
  | .parentsNeverAdded ids =>
    "added parents never materialize for incoming " ++ ", ".intercalate (ids.map EntityId.text)
  | .relabelParentNeverAdded id => s!"relabel of {id.text} refers to a parent that was never added"
  | .slotTaken holder kindName =>
    s!"{holder.text} already holds the slot or persistent id wanted by a {kindName} entity"

/-- **A failure in words.** -/
def message (e : ReconcileError) : String :=
  match e.errorClass with
  | .notFound => e.detail
  | .invariantViolation => s!"invariant violated: {e.detail}"
  | .unsupported => s!"unsupported: {e.detail}"
  | .overflow => e.detail

end ReconcileError
end Reconciliation
