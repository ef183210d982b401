import Reconciliation.Store.Graph
import Reconciliation.Plan.Error
/-!
# Ancestor tracks

The track of an entity is the tree of its ancestors: the entity, and for each parent, in the order of the entity's
links, the connection to it and its own track.  An ancestor that is reached along two paths stands in the tree twice.
There is no track of an entity that is its own ancestor, or of one with an ancestor that does not exist.

`Track.layout` numbers the nodes of the tree in the order in which they are reached, each before its parents.
-/
namespace Reconciliation

/-- **The tree of an entity's ancestors.** -/
inductive Track where
  | node (entity : EntityId) (parents : List (Connection × Track))

namespace Track

def entity : Track → EntityId
  | .node id _ => id

def parents : Track → List (Connection × Track)
  | .node _ ps => ps

def isRoot (t : Track) : Bool := t.parents.isEmpty

instance : Inhabited Track := ⟨.node default []⟩

/-! ## Growing a track -/

/-- The parent at the end of a link, with its track; an entity on the path to it would be its own ancestor. -/
def climb (start : EntityId) (path : List EntityId) (up : List EntityId → EntityId → Except ReconcileError Track)
    (l : Link) : Except ReconcileError (Connection × Track) :=
  if path.contains l.2 then throw (.trackCycle l.2 start)
  else do
    let parent ← up (l.2 :: path) l.2
    return (l.1, parent)

/-- The track of `id`, which was reached along `path`.  `room` is the number of entities that are known to have parents
and can still lie ahead.  When there are none left, an entity off the path is unknown. -/
def grow (parentsOf : EntityId → Except StoreError (List Link)) (start : EntityId) :
    Nat → List EntityId → EntityId → Except ReconcileError Track
  | 0, _, id => .error (.store (.notFound id))
  | room + 1, path, id => do
    let links ← (parentsOf id).mapError .store
    let parents ← links.mapM (climb start path (grow parentsOf start room))
    return .node id parents

/-- **The track of an entity in a graph.** -/
def ofGraph (g : Graph) (id : EntityId) : Except ReconcileError Track := grow g.parentsOf id g.size [id] id

/-- **The track of an entity over a finite map of parents.** -/
def ofMap (parents : SortedMap EntityId (List Link)) (id : EntityId) : Except ReconcileError Track :=
  grow (fun id =>
    match parents.get? id with
    | some links => .ok links
    | none => .error (.notFound id)) id parents.size [id] id

/-! ## Following a track -/

/-- The topmost ancestor, when no entity on the way up has more than one parent. -/
def singleRoot : Track → Except ReconcileError EntityId
  | .node id [] => .ok id
  | .node _ [(_, parent)] => singleRoot parent
  | .node id _ => .error (.severalParents id)

mutual
def size : Track → Nat
  | .node _ ps => sizeAll ps + 1
def sizeAll : List (Connection × Track) → Nat
  | [] => 0
  | (_, t) :: rest => t.size + sizeAll rest
end

/-- **A numbered node of a track.** -/
structure Entry where
  entity : EntityId
  /-- The connection to the child through which the node was reached. -/
  connection : Option Connection
  /-- The number of that child. -/
  child : Option Nat
  /-- The numbers of the parents. -/
  parents : List Nat
deriving DecidableEq, Inhabited

def Entry.connectionToChild (e : Entry) : Except ReconcileError Connection :=
  match e.connection with
  | some c => .ok c
  | none => .error (.noChild e.entity)

def numbersOf (first : Nat) : List (Connection × Track) → List Nat
  | [] => []
  | (_, t) :: rest => first :: numbersOf (first + t.size) rest

mutual
/-- The nodes of a track whose own number is `first`. -/
def entriesFrom (first : Nat) (connection : Option Connection) (child : Option Nat) : Track → List Entry
  | .node id ps => ⟨id, connection, child, numbersOf (first + 1) ps⟩ :: entriesFromAll (first + 1) first ps
def entriesFromAll (first child : Nat) : List (Connection × Track) → List Entry
  | [] => []
  | (c, t) :: rest => entriesFrom first (some c) (some child) t ++ entriesFromAll (first + t.size) child rest
end

/-- **The nodes of a track in the order of their numbers**; the entity itself is number zero. -/
def layout (t : Track) : List Entry := entriesFrom 0 none none t

end Track
end Reconciliation
