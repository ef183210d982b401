import Reconciliation.Plan.Placement
/-!
# The counterpart of a target entity

A root is paired by its natural key, or without one by its content.  An entity with parents is paired with a child of
the counterparts of its parents: the first one of equal content under the first parent that has one.  Such a pair is
only made when the parents cover every required connection.  What becomes of a pair depends on whose side is accepted:

| target | incoming | the target entity |
|---|---|---|
| accepted | accepted | is relabelled |
| accepted | not | is removed |
| not | accepted | is relabelled |
| not | not | stays |

Without a counterpart an accepted target entity is removed and any other stays.
-/
namespace Reconciliation

/-- A parent of a target entity, with the connection to it and the counterpart it was found to have. -/
structure ResolvedParent where
  connection : Connection
  target : EntityId
  counterpart : Option EntityId
deriving DecidableEq, Inhabited

namespace Pass

/-- Decides about a target entity without a counterpart. -/
def unpaired (p : Pass) (id : EntityId) : Planning (Option EntityId) := do
  if ← p.acceptsTarget id then Planning.remove id none else Planning.keep id none
  return none

/-- **Decides about a pair.** -/
def settlePair (p : Pass) (target incoming : EntityId) (links : Option PlannedLinks) :
    Planning (Option EntityId) := do
  let targetAccepted ← p.acceptsTarget target
  if ← p.acceptsIncoming incoming then
    Planning.relabel target incoming links
    return some incoming
  else if targetAccepted then
    Planning.remove target (some incoming)
    return none
  else
    Planning.keep target (some incoming)
    return some incoming

def pairRoot (p : Pass) (id : EntityId) : Planning (Option EntityId) := do
  let data ← Planning.lookup (p.target.entity id)
  let fates := (← get).incomingFates
  let found ← match p.target.schema.naturalKey? data with
    | some key => pure ((p.incoming.resolve key).filter fun i => !fates.contains i)
    | none => p.findInIncoming data fates.contains
  match found with
  | some incoming => p.settlePair id incoming none
  | none => p.unpaired id

/-- The first unclassified child with the content of `data` under the counterparts of the parents, with the parent
under which it is found and the parents after it. -/
def firstHit (p : Pass) (data : Entity) :
    List ResolvedParent → Planning (Option (EntityId × ResolvedParent × List ResolvedParent))
  | [] => return none
  | r :: rest =>
    match r.counterpart with
    | none => firstHit p data rest
    | some parent => do
      let fates := (← get).incomingFates
      match ← Planning.lookup (p.incoming.findChild parent r.connection data fates.contains) with
      | some id => return some (id, r, rest)
      | none => firstHit p data rest

/-- Adds links to those parents under whose counterparts the same counterpart stands. -/
def linkLater (p : Pass) (counterpart : EntityId) (links : PlannedLinks) :
    List ResolvedParent → Planning PlannedLinks
  | [] => return links
  | r :: rest =>
    match r.counterpart with
    | none => linkLater p counterpart links rest
    | some parent => do
      let children ← Planning.lookup (p.incoming.childrenOf parent r.connection)
      if children.contains counterpart then
        linkLater p counterpart (links.link r.connection (.target r.target)) rest
      else linkLater p counterpart links rest

/-- The counterpart that an entity has under its resolved parents, with the links that it brings: to the parents under
whose counterparts it stands, and to the places of its own parents in the target. -/
def findPair (p : Pass) (resolve : Resolver) (data : Entity) (parents : List ResolvedParent) :
    Planning (Option (EntityId × PlannedLinks)) := do
  match ← p.firstHit data parents with
  | none => return none
  | some (counterpart, parent, later) =>
    let links ← p.linkLater counterpart (PlannedLinks.link [] parent.connection (.target parent.target)) later
    let track ← Planning.track p.incoming counterpart
    let links ← p.locateAll resolve links track.parents
    return some (counterpart, links)

/-- Whether links leave out a connection on which every entity of a kind needs a parent. -/
def uncovered (p : Pass) (kind : Kind) (links : PlannedLinks) : Bool :=
  (p.target.schema.requiredConnections kind).any fun c => !links.any (·.1 = c)

def pairUnder (p : Pass) (resolve : Resolver) (id : EntityId) (parents : List ResolvedParent) :
    Planning (Option EntityId) := do
  let data ← Planning.lookup (p.target.entity id)
  match ← p.findPair resolve data parents with
  | none => p.unpaired id
  | some (counterpart, links) =>
    -- a counterpart that was classified on the way cannot be claimed
    if p.uncovered id.kind links || (← get).incomingFates.contains counterpart then p.unpaired id
    else p.settlePair id counterpart (some links)

mutual
/-- **The counterpart of a target entity**, after its ancestors were decided about. -/
def pair (p : Pass) (resolve : Resolver) : Track → Planning (Option EntityId)
  | .node id parents => do
    let resolved ← pairAll p resolve parents
    match (← get).targetFates.get? id with
    | some fate => return fate.counterpart
    | none => if parents.isEmpty then p.pairRoot id else p.pairUnder resolve id resolved
def pairAll (p : Pass) (resolve : Resolver) : List (Connection × Track) → Planning (List ResolvedParent)
  | [] => return []
  | (c, t) :: rest => do
    let counterpart ← pair p resolve t
    let resolved ← pairAll p resolve rest
    return ⟨c, t.entity, counterpart⟩ :: resolved
end

/-- Decides about a target entity, unless that is done. -/
def classifyTarget (p : Pass) (resolve : Resolver) (id : EntityId) : Planning Unit := do
  if (← get).targetFates.contains id then return ()
  else
    let _ ← p.pair resolve (← Planning.track p.target id)

end Pass
end Reconciliation
