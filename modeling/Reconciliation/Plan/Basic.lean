import Reconciliation.SortedMap
import Reconciliation.Entity.Connection
/-!
# Plans

A pass pairs entities of a target graph with entities of an incoming graph and decides what is to be done with each.
The decisions about a target entity and about an incoming entity are its **fate**; every entity gets at most one.  The
**plan** is what has to be carried out: incoming entities to be copied into the target, target entities to be relabelled
or removed, and the pairs of a removal and an addition that are one entity under another natural key.
-/
namespace Reconciliation

/-- **A parent as seen from the target**: an entity that is there, or the copy of an incoming one that the plan adds. -/
inductive PlannedParent
  | target (id : EntityId)
  | added (incoming : EntityId)
deriving DecidableEq, Inhabited

/-- Links that a plan gives an entity, at most one for each connection. -/
abbrev PlannedLinks := List (Connection × PlannedParent)

/-- Links an entity to a parent, unless the connection has one already. -/
def PlannedLinks.link (links : PlannedLinks) (c : Connection) (parent : PlannedParent) : PlannedLinks :=
  if links.any (·.1 = c) then links else links ++ [(c, parent)]

/-- **What becomes of a target entity.** -/
inductive TargetFate
  /-- It stays as it is; `counterpart` is the incoming entity that it is paired with. -/
  | kept (counterpart : Option EntityId)
  /-- It takes over the data of its counterpart, and the links if there are any. -/
  | relabelled (counterpart : EntityId) (links : Option PlannedLinks)
  /-- It goes. -/
  | removed
deriving DecidableEq, Inhabited

/-- **What becomes of an incoming entity.** -/
inductive IncomingFate
  /-- It is paired with a target entity that stays as it is. -/
  | kept (target : EntityId)
  /-- It gives its data to a target entity. -/
  | relabels (target : EntityId)
  /-- It is copied into the target. -/
  | added
  /-- It has no place in the target. -/
  | lost
deriving DecidableEq, Inhabited

/-- The incoming entity that a target entity is paired with, if it stays. -/
def TargetFate.counterpart : TargetFate → Option EntityId
  | .kept counterpart => counterpart
  | .relabelled counterpart _ => some counterpart
  | .removed => none

/-- How the children of an incoming entity refer to it in the target. -/
def IncomingFate.asParent (fate : IncomingFate) (id : EntityId) : Option PlannedParent :=
  match fate with
  | .kept target | .relabels target => some (.target target)
  | .added => some (.added id)
  | .lost => none

inductive Operation
  | relabel (counterpart : EntityId) (links : Option PlannedLinks)
  | remove
deriving DecidableEq, Inhabited

/-- An incoming entity to be copied into the target under some parents. -/
structure Addition where
  links : Option PlannedLinks
  incoming : EntityId
deriving DecidableEq, Inhabited

/-- A removed entity and an added one that are the same thing under another natural key.  Soft references that the
pass leaves alone follow. -/
structure Rename where
  removed : EntityId
  added : EntityId
  old : NaturalKey
  new : NaturalKey
deriving DecidableEq, Inhabited

/-- **What a pass is going to do**: additions in the order of their discovery, operations by target id, renames. -/
structure Plan where
  additions : List Addition
  operations : SortedMap EntityId Operation
  renames : List Rename
deriving DecidableEq

namespace Plan

def empty : Plan := ⟨[], .empty, []⟩

instance : Inhabited Plan := ⟨empty⟩

def isEmpty (p : Plan) : Bool := p.additions.isEmpty && p.operations.isEmpty

/-- The target entities to be relabelled, with their counterparts and links, in ascending order. -/
def relabels (p : Plan) : List (EntityId × EntityId × Option PlannedLinks) :=
  p.operations.toList.filterMap fun o =>
    match o.2 with
    | .relabel counterpart links => some (o.1, counterpart, links)
    | .remove => none

def removals (p : Plan) : List EntityId :=
  p.operations.toList.filterMap fun o => if o.2 = .remove then some o.1 else none

end Plan

/-! ## Wording -/

def PlannedParent.text : PlannedParent → String
  | .target id => s!"target {id.text}"
  | .added id => s!"added {id.text}"

def PlannedParent.label : PlannedParent → String
  | .target id => s!"Target({id.label})"
  | .added id => s!"Added({id.label})"

def PlannedLinks.label (links : PlannedLinks) : String :=
  "[" ++ ", ".intercalate (links.map fun l => s!"({l.1.label}, {l.2.label})") ++ "]"

def TargetFate.label : TargetFate → String
  | .kept none => "NoChange(None)"
  | .kept (some id) => s!"NoChange(Some({id.label}))"
  | .relabelled id links =>
    let parents := match links with
      | none => "None"
      | some links => s!"Some({PlannedLinks.label links})"
    "Relabel \x7b counterpart: " ++ id.label ++ ", parents: " ++ parents ++ " \x7d"
  | .removed => "Remove"

def IncomingFate.label : IncomingFate → String
  | .kept id => s!"NoChange({id.label})"
  | .relabels id => s!"Relabel({id.label})"
  | .added => "ElementMoved"
  | .lost => "TraceLost"

end Reconciliation
