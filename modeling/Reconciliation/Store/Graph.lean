import Reconciliation.Schema
import Reconciliation.Json.Basic
import Reconciliation.Store.Error
import Reconciliation.Store.KeyTable
/-!
# Entity graphs

A graph holds the entities of one schema.  A node is an entity's data, its links to its parents in the order in which
the schema declares their connections, and what is attached to it from outside, by mapping name.  Links are kept with
the child alone; the children of an entity are found by looking at everybody's parents.

`keys` answers who owns a natural key and who refers to it; `counters` has the next index of each kind, which is never
given twice.
-/
namespace Reconciliation

structure Node where
  data : Entity
  parents : List Link
  externals : SortedMap String Json
deriving DecidableEq

/-- **A graph of entities.** -/
structure Graph where
  schema : Schema
  nodes : SortedMap EntityId Node
  counters : SortedMap Kind UInt32
  keys : KeyTable
deriving DecidableEq

namespace Graph

def empty (schema : Schema) : Graph := ⟨schema, .empty, .empty, .empty⟩

instance : Inhabited Graph := ⟨empty .empty⟩

/-! ## Entities -/

def size (g : Graph) : Nat := g.nodes.size

def contains (g : Graph) (id : EntityId) : Bool := g.nodes.contains id

def node (g : Graph) (id : EntityId) : Except StoreError Node :=
  match g.nodes.get? id with
  | some n => .ok n
  | none => .error (.notFound id)

/-- **The data of an entity.** -/
def entity (g : Graph) (id : EntityId) : Except StoreError Entity := (g.node id).map (·.data)

def ids (g : Graph) : List EntityId := g.nodes.keys

def entities (g : Graph) : List (EntityId × Entity) := g.nodes.toList.map fun n => (n.1, n.2.data)

def idsOfKind (g : Graph) (kind : Kind) : List EntityId := g.ids.filter (·.kind = kind)

/-- **The entities whose source passes a filter**, by kind, then by source, then in ascending order. -/
def bySource (g : Graph) (accepts : Source → Bool) : SortedMap Kind (SortedMap Source (List EntityId)) :=
  g.entities.foldl (fun groups e =>
    if accepts e.2.source then
      let ofKind := (groups.get? e.1.kind).getD .empty
      groups.insert e.1.kind (ofKind.insert e.2.source ((ofKind.get? e.2.source).getD [] ++ [e.1]))
    else groups) .empty

/-! ## Natural keys -/

def resolve (g : Graph) (key : NaturalKey) : Option EntityId := g.keys.owner? key

def naturalKey (g : Graph) (id : EntityId) : Except StoreError (Option NaturalKey) :=
  (g.entity id).map g.schema.naturalKey?

def referrers (g : Graph) (key : NaturalKey) : List EntityId := g.keys.referrers key

/-! ## Links -/

def linkCount (g : Graph) : Nat := (g.nodes.values.flatMap (·.parents)).length

/-- Links in the order in which the schema declares their connections for a child kind. -/
def inDeclarationOrder (s : Schema) (child : Kind) (links : List Link) : List Link :=
  sortBy (fun a b => (compareLex (compareOn fun l => s.rankOf child l.1) (compareOn Prod.snd) a b).isLE) links

/-- **The parents of an entity**, in the order of declaration. -/
def parentsOf (g : Graph) (id : EntityId) : Except StoreError (List Link) := (g.node id).map (·.parents)

/-- The links of which an entity is the parent, each with the child, by connection and then child. -/
def childLinks (g : Graph) (parent : EntityId) : List Link :=
  sortBy Link.le (g.nodes.toList.flatMap fun n => (n.2.parents.filter (·.2 = parent)).map fun l => (l.1, n.1))

/-- The children of an entity through one connection, in ascending order. -/
def childIds (g : Graph) (parent : EntityId) (c : Connection) : List EntityId :=
  (g.nodes.toList.filter fun n => n.2.parents.contains (c, parent)).map (·.1)

/-- **Every child of an entity**, by connection and then in ascending order. -/
def children (g : Graph) (parent : EntityId) : Except StoreError (List Link) :=
  (g.node parent).map fun _ => g.childLinks parent

/-- The children of an entity through one connection; the entity has to exist. -/
def childrenOf (g : Graph) (parent : EntityId) (c : Connection) : Except StoreError (List EntityId) :=
  (g.node parent).map fun _ => g.childIds parent c

/-! ## Walks -/

/-- A depth-first walk: what lies on the stack is visited from the front, nothing twice, and the result lists what was
visited in that order. -/
def walk (next : EntityId → List EntityId) : Nat → List EntityId → List EntityId → List EntityId
  | 0, _, seen => seen.reverse
  | _ + 1, [], seen => seen.reverse
  | steps + 1, id :: stack, seen =>
    if seen.contains id then walk next steps stack seen else walk next steps (next id ++ stack) (id :: seen)

/-- What is reached from an entity, itself first.  Every link is followed at most once, which bounds the steps. -/
def reachedFrom (g : Graph) (next : EntityId → List EntityId) (id : EntityId) : List EntityId :=
  walk next (g.linkCount + 1) [id] []

/-- The children that cannot be without this parent, by connection and then in ascending order. -/
def dependents (g : Graph) (id : EntityId) : List EntityId :=
  ((g.childLinks id).filter (·.1.isRequired)).map (·.2)

/-- **An entity and all that requires it**, directly or through others, each listed after one that it requires. -/
def requiredClosure (g : Graph) (id : EntityId) : List EntityId := g.reachedFrom g.dependents id

/-- Whether an entity lies below another one through links of any kind, or is it. -/
def isDescendant (g : Graph) (root candidate : EntityId) : Bool :=
  (g.reachedFrom (fun id => (g.childLinks id).map (·.2)) root).contains candidate

/-! ## What is attached from outside -/

def external? (g : Graph) (mapping : String) (id : EntityId) : Option Json :=
  match g.nodes.get? id with
  | none => none
  | some n => n.externals.get? mapping

def externalsOf (g : Graph) (id : EntityId) : List (String × Json) :=
  match g.nodes.get? id with
  | none => []
  | some n => n.externals.toList

def summary (g : Graph) : String :=
  "EntityGraph \x7b entity_count: " ++ toString g.size ++ ", link_count: " ++ toString g.linkCount ++ " \x7d"

end Graph
end Reconciliation
