import Reconciliation.Entity.Connection
/-!
# What a graph refuses

Every refusal is a cause with the things it is about; `StoreError.message` words it.  One cause is no refusal: arithmetic
is checked, so a counter that is at its end cannot be counted on, and the program ends there.
-/
namespace Reconciliation

/-- **Why an edit or a lookup is refused.** -/
inductive StoreError
  | notFound (id : EntityId)
  | keyNotFound (key : NaturalKey)
  | unknownKind (kind : Kind)
  | unknownConnection (connection : Connection)
  | kindMismatch (id : EntityId) (expected actual : Kind)
  | missingRequiredParent (child : Kind) (connection : Connection)
  | duplicateConnection (connection : Connection)
  | oneToOneOccupied (parent : EntityId) (connection : Connection)
  | duplicateKey (key : NaturalKey) (existing : EntityId)
  | parentCycle (parent child : EntityId)
  /-- The counter of a kind would overflow.  This ends the program, like every arithmetic overflow. -/
  | indexOverflow (kind : Kind)
deriving DecidableEq, Inhabited

def StoreError.message : StoreError → String
  | .notFound id => s!"entity {id.text} not found"
  | .keyNotFound key => s!"no entity with persistent id {key.render}"
  | .unknownKind kind => s!"entity kind {kind.label} is not declared in the schema"
  | .unknownConnection c => s!"connection {c.label} is not declared in the schema"
  | .kindMismatch id expected actual => s!"entity {id.text} is of kind {actual.label}, expected {expected.label}"
  | .missingRequiredParent child c => s!"required parent connection {c.label} missing for a {child.label} entity"
  | .duplicateConnection c => s!"connection {c.label} given more than one parent"
  | .oneToOneOccupied parent c =>
    s!"parent {parent.text} already holds a child through one-to-one connection {c.label}"
  | .duplicateKey key existing => s!"persistent id {key.render} already used by {existing.text}"
  | .parentCycle parent child => s!"linking {child.text} under {parent.text} would create a parent cycle"
  | .indexOverflow _ => "attempt to add with overflow"

end Reconciliation
