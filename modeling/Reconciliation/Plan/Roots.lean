import Reconciliation.Plan.Pairing
/-!
# Incoming roots and added subtrees

Here the two sides meet.  An incoming root is looked up in the target, by natural key or by content.  What is found may
be an entity that the target pass has not come to yet; if it is accepted, it is decided about first (`classifyTarget`),
and that may resolve further incoming roots.  An incoming root that is not found is added with its subtree, and adding a
child looks up its other parents, again up to their roots.

Nothing in the two graphs decreases along this way, so `resolveRoot` and `addSubtree` carry fuel.  Each step into one of
them takes one unit; everything else goes up a track or down a list.
-/
namespace Reconciliation
namespace Pass

/-- What the target has for an incoming root: the owner of its natural key, or without one an entity of equal content,
unclassified ones first. -/
def findRoot (p : Pass) (data : Entity) : Planning (Option EntityId) := do
  match p.target.schema.naturalKey? data with
  | some key => return p.target.resolve key
  | none =>
    let fates := (← get).targetFates
    match ← p.findInTarget data fates.contains with
    | some id => return some id
    | none => p.findInTarget data fun _ => false

/-- Writes the fate of an incoming entity, unless it has one. -/
def setIfUnclassified (id : EntityId) (fate : IncomingFate) : Planning Unit := do
  if (← get).incomingFates.contains id then return () else Planning.setIncomingFate id fate

/-- Decides about a root for which the target has an entity that is decided about as far as it is going to be. -/
def settleRoot (p : Pass) (id target : EntityId) : Planning (Option PlannedParent) := do
  match (← get).targetFates.get? target with
  | some .removed =>
    setIfUnclassified id .lost
    return none
  | some _ =>
    setIfUnclassified id (.kept target)
    return some (.target target)
  | none => p.settleIncoming id target none

/-! ## One step of the recursion

What an incoming root or an added entity needs of other roots and other additions comes in as arguments. -/

def resolveRootWith (p : Pass) (resolve : Resolver) (addSubtree : Adder) (id : EntityId) :
    Planning (Option PlannedParent) := do
  let data ← Planning.lookup (p.incoming.entity id)
  match ← p.findRoot data with
  | none =>
    if ← p.acceptsIncoming id then
      addSubtree none id
      return some (.added id)
    else
      Planning.lose id
      return none
  | some target =>
    if !(← get).targetFates.contains target && (← p.acceptsTarget target) then p.classifyTarget resolve target
    p.settleRoot id target

/-- Adds a child of an added entity, unless locating its other parents did. -/
def copyChild (p : Pass) (resolve : Resolver) (addSubtree : Adder) (id : EntityId) (link : Link)
    (parents : List (Connection × Track)) : Planning Unit := do
  if (← get).incomingFates.contains link.2 then return ()
  else
    let others := parents.filter fun t => t.2.entity ≠ id
    let links ← p.locateAll resolve (PlannedLinks.link [] link.1 (.added id)) others
    addSubtree (some links) link.2

/-- Decides about a child of an added entity: an accepted one without a counterpart in the target is added too. -/
def addChild (p : Pass) (resolve : Resolver) (addSubtree : Adder) (id : EntityId) (link : Link) : Planning Unit := do
  if (← get).incomingFates.contains link.2 then return ()
  else if !(← p.acceptsIncoming link.2) then Planning.lose link.2
  else
    let track ← Planning.track p.incoming link.2
    match ← p.locate resolve track with
    | some (.target _) => return ()
    | _ => p.copyChild resolve addSubtree id link track.parents

def addSubtreeWith (p : Pass) (resolve : Resolver) (addSubtree : Adder) (links : Option PlannedLinks) (id : EntityId) :
    Planning Unit := do
  match (← get).incomingFates.get? id with
  | some .added => return ()
  | some fate => Planning.fail (.additionClassified id fate)
  | none =>
    Planning.add links id
    (← Planning.lookup (p.incoming.children id)).forM (p.addChild resolve addSubtree id)

/-! ## The recursion -/

mutual
/-- **The place of an incoming root**, which is decided about. -/
def resolveRoot (p : Pass) : Nat → EntityId → Planning (Option PlannedParent)
  | 0, _ => throw .outOfFuel
  | fuel + 1, id => p.resolveRootWith (resolveRoot p fuel) (addSubtree p fuel) id
/-- **Adds an incoming entity** and then each accepted descendant that has no counterpart in the target. -/
def addSubtree (p : Pass) : Nat → Option PlannedLinks → EntityId → Planning Unit
  | 0, _, _ => throw .outOfFuel
  | fuel + 1, links, id => p.addSubtreeWith (resolveRoot p fuel) (addSubtree p fuel) links id
end

/-- Decides about an incoming entity, unless that is done. -/
def classifyIncoming (p : Pass) (fuel : Nat) (id : EntityId) : Planning Unit := do
  if (← get).incomingFates.contains id then return ()
  else
    let _ ← p.place (p.resolveRoot fuel) (p.addSubtree fuel) (← Planning.track p.incoming id)

/-- **Decides about both sides**: every accepted target entity before any incoming one. -/
def classify (p : Pass) (fuel : Nat) (targetOrder incomingOrder : List EntityId) : Planning Unit := do
  targetOrder.forM (p.classifyTarget (p.resolveRoot fuel))
  incomingOrder.forM (p.classifyIncoming fuel)

end Pass
end Reconciliation
