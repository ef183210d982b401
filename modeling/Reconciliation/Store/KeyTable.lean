import Reconciliation.SortedMap
import Reconciliation.Entity.Identity
/-!
# Natural keys and who refers to them

The table maps a natural key to the entity that owns it, and to the entities that hold a soft reference at it.  The
two sides are independent: a soft reference may point at a key that nobody owns.
-/
namespace Reconciliation

abbrev IdSet := SortedMap EntityId Unit

/-- **Owners and referrers of natural keys.**  A key without referrers is not listed. -/
structure KeyTable where
  owners : SortedMap NaturalKey EntityId
  referring : SortedMap NaturalKey IdSet
deriving DecidableEq

namespace KeyTable

def empty : KeyTable := ⟨.empty, .empty⟩

instance : Inhabited KeyTable := ⟨empty⟩

def owner? (t : KeyTable) (key : NaturalKey) : Option EntityId := t.owners.get? key

def claim (t : KeyTable) (key : NaturalKey) (id : EntityId) : KeyTable :=
  { t with owners := t.owners.insert key id }

/-- Frees a key, if this entity still owns it. -/
def release (t : KeyTable) (key : NaturalKey) (id : EntityId) : KeyTable :=
  if t.owner? key = some id then { t with owners := t.owners.erase key } else t

def referrers (t : KeyTable) (key : NaturalKey) : List EntityId := ((t.referring.get? key).map (·.keys)).getD []

def addReferrer (t : KeyTable) (key : NaturalKey) (id : EntityId) : KeyTable :=
  { t with referring := t.referring.insert key (((t.referring.get? key).getD .empty).insert id ()) }

def dropReferrer (t : KeyTable) (key : NaturalKey) (id : EntityId) : KeyTable :=
  match t.referring.get? key with
  | none => t
  | some ids =>
    let left := ids.erase id
    { t with referring := if left.isEmpty then t.referring.erase key else t.referring.insert key left }

def addReferences (t : KeyTable) (keys : List NaturalKey) (id : EntityId) : KeyTable :=
  keys.foldl (fun t key => t.addReferrer key id) t

def dropReferences (t : KeyTable) (keys : List NaturalKey) (id : EntityId) : KeyTable :=
  keys.foldl (fun t key => t.dropReferrer key id) t

def size (t : KeyTable) : Nat := t.owners.size

end KeyTable
end Reconciliation
