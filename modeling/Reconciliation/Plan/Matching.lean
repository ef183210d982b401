import Reconciliation.Store.Graph
/-!
# Looking for equal content

A counterpart is an entity of equal content.  Under a parent it is looked for among the parent's children
(`findChild`); without one, among all entities of a kind (`findByContent`), through an index.  Either way the first in
ascending order wins among those that are not to be skipped.

The index groups the entities of a kind by a hash of their content.  A kind is indexed when it is first asked for and
not again.  Nothing depends on the hash but the work: whatever shares a bucket is still compared.
-/
namespace Reconciliation

/-- The first of some entities that has the content of `data` and is not to be skipped.  The search ends with the
first entity it looks at that does not exist. -/
def Graph.firstMatch (g : Graph) (data : Entity) (skip : EntityId → Bool) :
    List EntityId → Except StoreError (Option EntityId)
  | [] => .ok none
  | id :: rest =>
    if skip id then firstMatch g data skip rest
    else
      match g.entity id with
      | .error e => .error e
      | .ok other => if other.sameContent data then .ok (some id) else firstMatch g data skip rest

/-- **The first child with the content of `data`** through one connection. -/
def Graph.findChild (g : Graph) (parent : EntityId) (c : Connection) (data : Entity) (skip : EntityId → Bool) :
    Except StoreError (Option EntityId) := do
  g.firstMatch data skip (← g.childrenOf parent c)

/-- **An index of entities by content**: for each kind asked for so far, the ids by hash, in ascending order. -/
structure ContentIndex where
  kinds : SortedMap Kind (SortedMap UInt64 (List EntityId))
deriving DecidableEq

namespace ContentIndex

def empty : ContentIndex := ⟨.empty⟩

instance : Inhabited ContentIndex := ⟨empty⟩

def bucketsOf (hash : Entity → UInt64) (g : Graph) (kind : Kind) : SortedMap UInt64 (List EntityId) :=
  (g.entities.filter (·.1.kind = kind)).foldl
    (fun buckets e => buckets.insert (hash e.2) ((buckets.get? (hash e.2)).getD [] ++ [e.1])) .empty

/-- The entities whose content has the hash of `data`, and the index with the kind of `data` in it. -/
def candidates (hash : Entity → UInt64) (index : ContentIndex) (g : Graph) (data : Entity) :
    List EntityId × ContentIndex :=
  match index.kinds.get? data.kind with
  | some buckets => ((buckets.get? (hash data)).getD [], index)
  | none =>
    let buckets := bucketsOf hash g data.kind
    ((buckets.get? (hash data)).getD [], ⟨index.kinds.insert data.kind buckets⟩)

/-- **The first entity with the content of `data`**, and the index after the search. -/
def findByContent (hash : Entity → UInt64) (index : ContentIndex) (g : Graph) (data : Entity)
    (skip : EntityId → Bool) : Except StoreError (Option EntityId) × ContentIndex :=
  let (ids, index) := index.candidates hash g data
  (g.firstMatch data skip ids, index)

def size (index : ContentIndex) : Nat := index.kinds.size

end ContentIndex
end Reconciliation
