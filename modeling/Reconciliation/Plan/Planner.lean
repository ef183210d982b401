import Reconciliation.Plan.Roots
import Reconciliation.Plan.Renames
import Reconciliation.Shuffle
/-!
# From two graphs to a plan

A pass visits the accepted entities of both graphs: by kind, then source, then in ascending order, or in the order that
a seed makes of it.  First all target entities are decided about, then all incoming ones.  What is written down then is
the plan, completed by its renames.
-/
namespace Reconciliation

structure Options where
  /-- The seed that shuffles the order of visits. -/
  shuffleSeed : Option UInt64
deriving DecidableEq, Inhabited

def Options.default : Options := ⟨none⟩

/-- **A plan**, with the number of target entities that were looked at and stay, and of incoming ones without a
place. -/
structure Outcome where
  plan : Plan
  untouched : Nat
  traceLost : Nat
deriving DecidableEq, Inhabited

namespace Progress

def untouched (s : Progress) : Nat :=
  (s.targetFates.values.filter fun f => match f with
    | .kept _ => true
    | _ => false).length

/-- The number of incoming entities without a place. -/
def traceLost (s : Progress) : Nat := (s.incomingFates.values.filter (· = .lost)).length

end Progress

/-- The accepted entities of a graph, by kind, then source, then in ascending order. -/
def Graph.acceptedIds (g : Graph) (accepts : Source → Bool) : List EntityId :=
  (g.bySource accepts).values.flatMap fun ofKind => ofKind.values.flatten

/-- The order in which the accepted entities of a graph are visited. -/
def Graph.visitOrder (g : Graph) (accepts : Source → Bool) (options : Options) : List EntityId :=
  match options.shuffleSeed with
  | none => g.acceptedIds accepts
  | some seed => shuffle seed (g.acceptedIds accepts)

namespace Pass

/-- The fuel of a pass.  A call inside a call either finds more written down than the outer one or is about another
entity, so calls nested deeper than this go round in a circle.  At most a fate for each entity and an index entry for
the kind of each is written down. -/
def fuel (p : Pass) : Nat :=
  (2 * (p.target.size + p.incoming.size) + 1) * (p.incoming.size + 1)

/-- The plan for two orders of visits, with the fates it comes from. -/
def planInOrder (p : Pass) (fuel : Nat) (targetOrder incomingOrder : List EntityId) :
    Except Halt (Progress × Outcome) :=
  match p.classify fuel targetOrder incomingOrder .start with
  | .error halt _ => .error halt
  | .ok _ s =>
    match Plan.findRenames p.target p.incoming s.plan with
    | .error cause => .error (.failed cause)
    | .ok renames => .ok (s, ⟨{ s.plan with renames := renames }, s.untouched, s.traceLost⟩)

/-- **The plan of a pass.**  Both graphs must have the same schema. -/
def plan (p : Pass) (options : Options) : Except Halt Outcome :=
  if p.target.schema ≠ p.incoming.schema then .error (.failed .differentSchemas)
  else
    (p.planInOrder p.fuel (p.target.visitOrder p.accepts options) (p.incoming.visitOrder p.accepts options)).map (·.2)

end Pass
end Reconciliation
