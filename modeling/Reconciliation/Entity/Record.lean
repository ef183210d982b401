import Reconciliation.SortedMap
import Reconciliation.Sorting
import Reconciliation.Entity.Value
/-!
# Entity data

What an entity holds: its kind, its source and its attributes by name.  Links are not part of it; the graph holds
them.  Two providers describe the same thing when kind and attributes agree (`sameContent`); the source does not count,
and neither does it for the digest.
-/
namespace Reconciliation

/-- **The data of one entity.** -/
structure Entity where
  kind : Kind
  source : Source
  attributes : SortedMap String Value
deriving DecidableEq

namespace Entity

def new (kind : Kind) (source : Source) : Entity := ⟨kind, source, .empty⟩

instance : Inhabited Entity := ⟨new 0 ""⟩

def get? (e : Entity) (name : String) : Option Value := e.attributes.get? name

def getText? (e : Entity) (name : String) : Option String :=
  match e.get? name with
  | some (.text s) => some s
  | _ => none

def set (e : Entity) (name : String) (value : Value) : Entity :=
  { e with attributes := e.attributes.insert name value }

def unset (e : Entity) (name : String) : Entity := { e with attributes := e.attributes.erase name }

/-- **Equal content**: the same kind and the same attributes, whatever the source. -/
def sameContent (a b : Entity) : Bool := a.kind = b.kind && a.attributes = b.attributes

/-- A digest of kind and attributes, equal for data of equal content. -/
def digest (e : Entity) : UInt64 :=
  e.attributes.toList.foldl (fun h a => a.2.digest (Value.stirText h a.1)) (Value.stir 0 e.kind.toUInt64)

theorem digest_eq_of_sameContent {a b : Entity} (h : a.sameContent b = true) : a.digest = b.digest := by
  simp only [sameContent, Bool.and_eq_true, decide_eq_true_eq] at h
  simp [digest, h.1, h.2]

/-- **Takes over the source and the attributes of another entity**; the kind stays. -/
def relabel (e other : Entity) : Entity := { e with source := other.source, attributes := other.attributes }

def refs (e : Entity) : List NaturalKey := e.attributes.values.flatMap Value.refs

/-- Whether an entity holds a soft reference at a key, at any depth. -/
def mentions (e : Entity) (key : NaturalKey) : Bool := e.refs.contains key

def rename (e : Entity) (old new : NaturalKey) : Entity :=
  { e with attributes := e.attributes.map fun _ v => v.rename old new }

/-- **The names of the attributes that differ**, ascending: present on one side only, or with another value. -/
def changedAttributes (a b : Entity) : List String :=
  let changed := a.attributes.toList.filterMap fun e => if b.get? e.1 = some e.2 then none else some e.1
  let fresh := b.attributes.keys.filter fun n => !a.attributes.contains n
  sortBy (fun m n => (compare m n).isLE) (changed ++ fresh)

end Entity
end Reconciliation
