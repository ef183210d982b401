import Reconciliation.Plan.Planner
import Reconciliation.Apply
/-!
# Reconciling a graph with an incoming one

What comes from accepted sources in the target is replaced by what comes from them in the incoming graph; everything
else stays.  `reconcile` plans and carries out the plan.  Without a plan the target is as before; when carrying out the
plan fails, what was done before stays done.
-/
namespace Reconciliation

/-- **What a pass did.** -/
structure Report where
  /-- Entities copied from the incoming graph. -/
  added : Nat
  /-- Target entities that took over the data of an incoming one. -/
  relabeled : Nat
  /-- Target entities removed, with all that required them. -/
  removed : Nat
  /-- Target entities that were looked at and stay. -/
  untouched : Nat
  /-- Incoming entities without a place in the target. -/
  traceLost : Nat
deriving DecidableEq, Inhabited

namespace Report

def isNoop (r : Report) : Bool := r.added = 0 && r.relabeled = 0 && r.removed = 0

def text (r : Report) : String :=
  s!"{r.added} added, {r.relabeled} relabeled, {r.removed} removed, {r.untouched} untouched, {r.traceLost} trace lost"

end Report

namespace Graph

/-- **Carries out a plan on a graph.** -/
def applyPlan (incoming : Graph) (p : Plan) : EStateM ReconcileError Graph Applied := fun g =>
  match Apply.plan incoming p (.start g) with
  | .ok applied s => .ok applied s.graph
  | .error cause s => .error cause s.graph

def passFrom (target incoming : Graph) (accepts : Source → Bool) : Pass := ⟨target, incoming, accepts⟩

/-- **Replaces what comes from accepted sources by what comes from them in the incoming graph.** -/
def reconcile (incoming : Graph) (accepts : Source → Bool) (options : Options) : EStateM Halt Graph Report := fun g =>
  match (g.passFrom incoming accepts).plan options with
  | .error halt => .error halt g
  | .ok outcome =>
    match applyPlan incoming outcome.plan g with
    | .error cause g => .error (.failed cause) g
    | .ok applied g =>
      .ok ⟨applied.added, applied.relabeled, applied.removed, outcome.untouched, outcome.traceLost⟩ g

end Graph
end Reconciliation
