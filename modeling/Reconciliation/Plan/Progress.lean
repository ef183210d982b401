import Reconciliation.Plan.Matching
import Reconciliation.Track
/-!
# The state of planning

Planning goes over both graphs and writes down fates and operations.  It writes each fate once: a second one for the
same entity is a failure, and so is a second operation.  The five decisions (`relabel`, `remove`, `keep`, `lose`,
`add`) are the only ways to write.

Planning resolves roots of one graph in the middle of resolving entities of the other, so it need not end.  Its
functions carry fuel, and running out of it is an outcome of its own, unlike any failure.
-/
namespace Reconciliation

/-- **The two graphs of a pass and its filter**, which says whose entities are replaced. -/
structure Pass where
  target : Graph
  incoming : Graph
  accepts : Source → Bool

/-- Why planning stops without a plan. -/
inductive Halt
  /-- It failed. -/
  | failed (cause : ReconcileError)
  /-- It did not come to an end in the steps it was given. -/
  | outOfFuel
deriving DecidableEq, Inhabited

/-- **What is decided so far.** -/
structure Progress where
  targetFates : SortedMap EntityId TargetFate
  incomingFates : SortedMap EntityId IncomingFate
  plan : Plan
  incomingIndex : ContentIndex
  targetIndex : ContentIndex

def Progress.start : Progress := ⟨.empty, .empty, .empty, .empty, .empty⟩

instance : Inhabited Progress := ⟨.start⟩

/-- **A step of planning.** -/
abbrev Planning (α : Type) := EStateM Halt Progress α

namespace Planning

def fail {α : Type} (cause : ReconcileError) : Planning α := throw (.failed cause)

def lookup {α : Type} (x : Except StoreError α) : Planning α :=
  match x with
  | .ok a => pure a
  | .error e => fail (.store e)

def track (g : Graph) (id : EntityId) : Planning Track :=
  match Track.ofGraph g id with
  | .ok t => pure t
  | .error e => fail e

/-! ## Writing once -/

def setTargetFate (id : EntityId) (fate : TargetFate) : Planning Unit := do
  match (← get).targetFates.get? id with
  | some existing => fail (.targetClassifiedTwice id existing fate)
  | none => modify fun p => { p with targetFates := p.targetFates.insert id fate }

def setIncomingFate (id : EntityId) (fate : IncomingFate) : Planning Unit := do
  match (← get).incomingFates.get? id with
  | some existing => fail (.incomingClassifiedTwice id existing fate)
  | none => modify fun p => { p with incomingFates := p.incomingFates.insert id fate }

def schedule (id : EntityId) (operation : Operation) : Planning Unit := do
  if (← get).plan.operations.contains id then fail (.scheduledTwice id)
  else modify fun p => { p with plan := { p.plan with operations := p.plan.operations.insert id operation } }

/-! ## Decisions -/

/-- A target entity takes over the data of an incoming one, and links if there are any. -/
def relabel (target incoming : EntityId) (links : Option PlannedLinks) : Planning Unit := do
  schedule target (.relabel incoming links)
  setTargetFate target (.relabelled incoming links)
  setIncomingFate incoming (.relabels target)

/-- A target entity goes; its counterpart, if there is one, has no place any more. -/
def remove (target : EntityId) (incoming : Option EntityId) : Planning Unit := do
  schedule target .remove
  setTargetFate target .removed
  match incoming with
  | some incoming => setIncomingFate incoming .lost
  | none => return ()

def keep (target : EntityId) (incoming : Option EntityId) : Planning Unit := do
  setTargetFate target (.kept incoming)
  match incoming with
  | some incoming => setIncomingFate incoming (.kept target)
  | none => return ()

/-- An incoming entity has no place in the target. -/
def lose (incoming : EntityId) : Planning Unit := setIncomingFate incoming .lost

/-- An incoming entity is copied into the target under some parents. -/
def add (links : Option PlannedLinks) (incoming : EntityId) : Planning Unit := do
  modify fun p => { p with plan := { p.plan with additions := p.plan.additions ++ [⟨links, incoming⟩] } }
  setIncomingFate incoming .added

end Planning

namespace Pass

def acceptsTarget (p : Pass) (id : EntityId) : Planning Bool := do
  return p.accepts (← Planning.lookup (p.target.entity id)).source

def acceptsIncoming (p : Pass) (id : EntityId) : Planning Bool := do
  return p.accepts (← Planning.lookup (p.incoming.entity id)).source

/-- The first target entity with the content of `data` that is not to be skipped. -/
def findInTarget (p : Pass) (data : Entity) (skip : EntityId → Bool) : Planning (Option EntityId) := do
  let (found, index) := (← get).targetIndex.findByContent Entity.digest p.target data skip
  modify fun s => { s with targetIndex := index }
  Planning.lookup found

/-- The first incoming entity with the content of `data` that is not to be skipped. -/
def findInIncoming (p : Pass) (data : Entity) (skip : EntityId → Bool) : Planning (Option EntityId) := do
  let (found, index) := (← get).incomingIndex.findByContent Entity.digest p.incoming data skip
  modify fun s => { s with incomingIndex := index }
  Planning.lookup found

end Pass
end Reconciliation
