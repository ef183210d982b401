import Reconciliation.Store.Edit
/-!
# Change sets

What has to happen to one graph's entities to get another's: removed entities with what they were, added ones with what
they are, replaced ones with both.  An entity is replaced when its data or its parents differ.  The changes are grouped
by kind; in a kind the removals come first, and then the rest in ascending order.

A change feed numbers the change sets it computes from one on.
-/
namespace Reconciliation

/-- **The change of one entity.** -/
inductive Change
  | added (id : EntityId) (entity : Entity)
  | removed (id : EntityId) (entity : Entity)
  | replaced (id : EntityId) (old new : Entity) (changedAttributes : List String) (parentsChanged : Bool)
deriving DecidableEq

def Change.id : Change → EntityId
  | .added id _ => id
  | .removed id _ => id
  | .replaced id _ _ _ _ => id

/-- **Changes by kind**, with the number that a feed gave them. -/
structure ChangeSet where
  sequence : UInt64
  changes : SortedMap Kind (List Change)
deriving DecidableEq

namespace ChangeSet

def empty : ChangeSet := ⟨0, .empty⟩

def push (s : ChangeSet) (c : Change) : ChangeSet :=
  { s with changes := s.changes.insert c.id.kind ((s.changes.get? c.id.kind).getD [] ++ [c]) }

/-- The change that makes a node out of what was there before, if there is one. -/
def change? (id : EntityId) (old? : Option Node) (new : Node) : Option Change :=
  match old? with
  | none => some (.added id new.data)
  | some old =>
    if old.data = new.data && old.parents = new.parents then none
    else some (.replaced id old.data new.data (old.data.changedAttributes new.data) (old.parents ≠ new.parents))

def listBetween (before after : Graph) : List Change :=
  let removed := (before.nodes.toList.filter fun n => !after.contains n.1).map fun n => Change.removed n.1 n.2.data
  removed ++ after.nodes.toList.filterMap fun n => change? n.1 (before.nodes.get? n.1) n.2

/-- **The changes from one graph to another.** -/
def between (before after : Graph) : ChangeSet := (listBetween before after).foldl push empty

def toList (s : ChangeSet) : List Change := s.changes.values.flatten

def size (s : ChangeSet) : Nat := s.toList.length

def isEmpty (s : ChangeSet) : Bool := s.toList.isEmpty

def ofKind (s : ChangeSet) (kind : Kind) : List Change := (s.changes.get? kind).getD []

def renderChange (schema : Schema) : Change → String
  | .added id e => s!"+ {schema.nameOf id.kind} {id.text} ({e.source})\n"
  | .removed id e => s!"- {schema.nameOf id.kind} {id.text} ({e.source})\n"
  | .replaced id old new changed parentsChanged =>
    let changed := changed ++ (if old.source ≠ new.source then ["<source>"] else []) ++
      (if parentsChanged then ["<parents>"] else [])
    s!"~ {schema.nameOf id.kind} {id.text} ({new.source}) " ++ ", ".intercalate changed ++ "\n"

/-- **One line for each change.** -/
def render (s : ChangeSet) (schema : Schema) : String := String.join (s.toList.map (renderChange schema))

end ChangeSet

def Builder.changes (b : Builder) : ChangeSet := ChangeSet.between b.origin b.graph

/-- **A feed of numbered change sets**; it knows the last number. -/
structure ChangeFeed where
  sequence : UInt64
deriving DecidableEq, Inhabited

namespace ChangeFeed

def new : ChangeFeed := ⟨0⟩

def next (f : ChangeFeed) (before after : Graph) : ChangeFeed × ChangeSet :=
  (⟨f.sequence + 1⟩, { ChangeSet.between before after with sequence := f.sequence + 1 })

end ChangeFeed
end Reconciliation
