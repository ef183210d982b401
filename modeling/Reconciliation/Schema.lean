import Reconciliation.Entity.Connection
import Reconciliation.Entity.Record
/-!
# Schemas

A schema is the list of its kind definitions; a kind is a position in it, narrowed to sixteen bits.  A definition has a
name, the attributes that form the natural key (none: the kind has no natural key) and the connections to parent kinds
in the order of their declaration.  That order is the order in which the parents of an entity are listed and searched.

A schema grows by declarations (`declareKind`, `declareKey`, `declareConnection`).
-/
namespace Reconciliation

structure KindDef where
  name : String
  keyAttributes : List String
  parents : List Connection
deriving DecidableEq, Inhabited

/-- **A schema**: the definitions of its kinds, by number. -/
structure Schema where
  kinds : Array KindDef
deriving DecidableEq, Inhabited

namespace Schema

def empty : Schema := ⟨#[]⟩

def kind? (s : Schema) (k : Kind) : Option KindDef := s.kinds[k.toNat]?

def kindNamed? (s : Schema) (name : String) : Option Kind :=
  (s.kinds.findIdx? (·.name = name)).map (·.toUInt16)

def nameOf (s : Schema) (k : Kind) : String := ((s.kind? k).map (·.name)).getD "<unknown>"

def numbered (s : Schema) : List (Kind × KindDef) := s.kinds.toList.zipIdx.map fun d => (d.2.toUInt16, d.1)

def size (s : Schema) : Nat := s.kinds.size

def parentConnections (s : Schema) (k : Kind) : List Connection := ((s.kind? k).map (·.parents)).getD []

def requiredConnections (s : Schema) (k : Kind) : List Connection := (s.parentConnections k).filter (·.isRequired)

/-- The connections in which a kind is the parent, by child kind and then declaration. -/
def childConnections (s : Schema) (k : Kind) : List Connection :=
  (s.kinds.toList.flatMap (·.parents)).filter (·.parent = k)

def declares (s : Schema) (c : Connection) : Bool := (s.parentConnections c.child).contains c

def connectionBetween? (s : Schema) (parent child : Kind) : Option Connection :=
  (s.parentConnections child).find? (·.parent = parent)

/-- The place of a connection in the declarations of a child kind; undeclared ones come last. -/
def rankOf (s : Schema) (child : Kind) (c : Connection) : Nat := (s.parentConnections child).idxOf c

/-- **The natural key of an entity**: the texts of its key attributes in the order of declaration, joined by slashes.
An attribute that is not set counts as null. -/
def naturalKey? (s : Schema) (e : Entity) : Option NaturalKey :=
  match s.kind? e.kind with
  | none => none
  | some d =>
    if d.keyAttributes.isEmpty then none
    else some ⟨e.kind, "/".intercalate (d.keyAttributes.map fun a => ((e.get? a).getD .null).render)⟩

/-! ## Declarations -/

/-- Declares a kind and gives its number: the number of kinds so far, in sixteen bits. -/
def declareKind (s : Schema) (name : String) : Schema × Kind :=
  (⟨s.kinds.push ⟨name, [], []⟩⟩, s.kinds.size.toUInt16)

/-- Declares the attributes that form the natural key of a kind.  The last declaration counts; nothing happens when
the kind is not declared. -/
def declareKey (s : Schema) (k : Kind) (attributes : List String) : Schema :=
  ⟨s.kinds.modify k.toNat fun d => { d with keyAttributes := attributes }⟩

/-- Declares a connection, which is recorded when its child kind is declared. -/
def declareConnection (s : Schema) (c : Connection) : Schema :=
  ⟨s.kinds.modify c.child.toNat fun d => { d with parents := d.parents ++ [c] }⟩

end Schema
end Reconciliation
