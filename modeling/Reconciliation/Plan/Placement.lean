import Reconciliation.Plan.Progress
/-!
# Where an incoming entity belongs in the target

An entity with parents belongs under the places of its parents: it is paired with the first unclassified child of equal
content there.  `locate` finds the place without deciding anything about the entity itself; `place` decides.  Both
resolve the parents first, and a root through `resolve`, which does decide.

The recursion here goes up the track.  What it needs from roots and from added subtrees comes in as arguments.
-/
namespace Reconciliation

/-- How the place of an entity in the target is found. -/
abbrev Resolver := EntityId → Planning (Option PlannedParent)

/-- How an entity is added with its subtree, under some links. -/
abbrev Adder := Option PlannedLinks → EntityId → Planning Unit

namespace Pass

/-- The first unclassified target child with the content of `data`, under the first parent that has one. -/
def firstTargetChild (p : Pass) (data : Entity) : PlannedLinks → Planning (Option EntityId)
  | [] => return none
  | (c, .target parent) :: rest => do
    let fates := (← get).targetFates
    match ← Planning.lookup (p.target.findChild parent c data fates.contains) with
    | some id => return some id
    | none => firstTargetChild p data rest
  | (_, .added _) :: rest => firstTargetChild p data rest

/-- The place of an entity whose parents have their places.  Under a parent that is added, an accepted entity is going
to be added too. -/
def locateUnder (p : Pass) (id : EntityId) (links : PlannedLinks) : Planning (Option PlannedParent) := do
  let data ← Planning.lookup (p.incoming.entity id)
  match ← p.firstTargetChild data links with
  | some target => return some (.target target)
  | none =>
    let underAdded := links.any fun l => match l.2 with
      | .added _ => true
      | .target _ => false
    if underAdded && (← p.acceptsIncoming id) then return some (.added id) else return none

mutual
/-- **The place of an incoming entity**, found without classifying it. -/
def locate (p : Pass) (resolve : Resolver) : Track → Planning (Option PlannedParent)
  | .node id parents => do
    match (← get).incomingFates.get? id with
    | some fate => return fate.asParent id
    | none =>
      if parents.isEmpty then resolve id
      else
        let links ← locateAll p resolve [] parents
        -- locating a parent may have classified the entity
        match (← get).incomingFates.get? id with
        | some fate => return fate.asParent id
        | none => p.locateUnder id links
/-- The links to the places of parents, after the links there are already. -/
def locateAll (p : Pass) (resolve : Resolver) (links : PlannedLinks) :
    List (Connection × Track) → Planning PlannedLinks
  | [] => return links
  | (c, t) :: rest => do
    match ← locate p resolve t with
    | some parent => locateAll p resolve (links.link c parent) rest
    | none => locateAll p resolve links rest
end

/-- Decides about an incoming entity that is paired with an unclassified target entity.  An accepted target entity
would have been classified by now. -/
def settleIncoming (p : Pass) (id target : EntityId) (links : Option PlannedLinks) :
    Planning (Option PlannedParent) := do
  if ← p.acceptsTarget target then Planning.fail (.targetUnclassified target)
  else
    if ← p.acceptsIncoming id then Planning.relabel target id links else Planning.keep target (some id)
    return some (.target target)

def placeUnder (p : Pass) (addSubtree : Adder) (id : EntityId)
    (links : PlannedLinks) : Planning (Option PlannedParent) := do
  let data ← Planning.lookup (p.incoming.entity id)
  match ← p.firstTargetChild data links with
  | some target => p.settleIncoming id target (some links)
  | none =>
    if ← p.acceptsIncoming id then
      addSubtree (some links) id
      return some (.added id)
    else
      Planning.lose id
      return none

mutual
/-- **Decides about an incoming entity** and gives its place. -/
def place (p : Pass) (resolve : Resolver) (addSubtree : Adder) :
    Track → Planning (Option PlannedParent)
  | .node id parents => do
    match (← get).incomingFates.get? id with
    | some fate => return fate.asParent id
    | none =>
      if parents.isEmpty then resolve id
      else
        let links ← placeAll p resolve addSubtree [] parents
        -- adding the subtree of a parent may have taken the entity along
        match (← get).incomingFates.get? id with
        | some fate => return fate.asParent id
        | none =>
          if links.isEmpty then
            Planning.lose id
            return none
          else p.placeUnder addSubtree id links
/-- The links to the places of parents, each decided about, after the links there are already. -/
def placeAll (p : Pass) (resolve : Resolver) (addSubtree : Adder)
    (links : PlannedLinks) : List (Connection × Track) → Planning PlannedLinks
  | [] => return links
  | (c, t) :: rest => do
    match ← place p resolve addSubtree t with
    | some parent => placeAll p resolve addSubtree (links.link c parent) rest
    | none => placeAll p resolve addSubtree links rest
end

end Pass
end Reconciliation
