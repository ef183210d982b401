import Reconciliation.Entity.Connection
import Reconciliation.Entity.Record
import Reconciliation.Json.Basic
/-!
# Entities as JSON

Each type has a writer `toJson` and a reader `ofJson?`, and reading takes back what writing gives.  A record is an
object with a member for each field; it is also read from the array of its fields in order.  Members that no field is
named for do not count.  A choice without content is its name, also read as an object that maps its name to null; a
choice with content is an object with one member.
-/
namespace Reconciliation

namespace Json

/-- The parts of a record, by the names of its fields: of an object by name, of an array by position.  An array may be
shorter, but not longer. -/
def parts? (names : List String) : Json → Option (List (Option Json))
  | .obj members => some (names.map fun n => members.lookup n)
  | .arr items =>
    if items.length ≤ names.length then some ((List.range names.length).map fun i => items[i]?) else none
  | _ => none

/-- The name of a choice without content. -/
def choice? : Json → Option String
  | .str name => some name
  | .obj [(name, .null)] => some name
  | _ => none

def listOf? {α : Type} (item? : Json → Option α) : Json → Option (List α)
  | .arr items => items.mapM item?
  | _ => none

def natBelow? (bound : Nat) (j : Json) : Option Nat :=
  match j.int? with
  | some (.ofNat n) => if n < bound then some n else none
  | _ => none

end Json

namespace Kind

def toJson (k : Kind) : Json := .nat k.toNat

def ofJson? (j : Json) : Option Kind := (j.natBelow? UInt16.size).map (·.toUInt16)

end Kind

namespace EntityId

def toJson (i : EntityId) : Json := .obj [("kind", Kind.toJson i.kind), ("index", .nat i.index.toNat)]

def ofJson? (j : Json) : Option EntityId := do
  match ← j.parts? ["kind", "index"] with
  | [some kind, some index] => return ⟨← Kind.ofJson? kind, (← index.natBelow? UInt32.size).toUInt32⟩
  | _ => none

end EntityId

namespace NaturalKey

def toJson (k : NaturalKey) : Json := .obj [("kind", Kind.toJson k.kind), ("key", .str k.text)]

def ofJson? (j : Json) : Option NaturalKey := do
  match ← j.parts? ["kind", "key"] with
  | [some kind, some text] => return ⟨← Kind.ofJson? kind, ← text.text?⟩
  | _ => none

end NaturalKey

namespace Cardinality

def toJson : Cardinality → Json
  | .one => .str "one"
  | .many => .str "many"

def named? (name : String) : Option Cardinality :=
  if name = "one" then some .one else if name = "many" then some .many else none

def ofJson? (j : Json) : Option Cardinality := j.choice?.bind named?

end Cardinality

namespace Optionality

def toJson : Optionality → Json
  | .required => .str "required"
  | .optional => .str "optional"

def named? (name : String) : Option Optionality :=
  if name = "required" then some .required else if name = "optional" then some .optional else none

def ofJson? (j : Json) : Option Optionality := j.choice?.bind named?

end Optionality

namespace Connection

def toJson (c : Connection) : Json :=
  .obj [("parent", Kind.toJson c.parent), ("child", Kind.toJson c.child),
    ("kind", .obj [("cardinality", c.cardinality.toJson), ("optionality", c.optionality.toJson)])]

def ofJson? (j : Json) : Option Connection := do
  match ← j.parts? ["parent", "child", "kind"] with
  | [some parent, some child, some form] =>
    match ← form.parts? ["cardinality", "optionality"] with
    | [some cardinality, some optionality] =>
      return ⟨← Kind.ofJson? parent, ← Kind.ofJson? child, ← Cardinality.ofJson? cardinality,
        ← Optionality.ofJson? optionality⟩
    | _ => none
  | _ => none

end Connection

namespace Value

mutual
def toJson : Value → Json
  | .null => .str "null"
  | .bool b => .obj [("bool", .bool b)]
  | .int i => .obj [("int", .int i.toInt)]
  | .text s => .obj [("str", .str s)]
  | .list items => .obj [("list", .arr (toJsonAll items))]
  | .ref key => .obj [("ref", key.toJson)]
def toJsonAll : List Value → List Json
  | [] => []
  | v :: vs => toJson v :: toJsonAll vs
end

mutual
def ofJson? : Json → Option Value
  | .str name => if name = "null" then some .null else none
  | .obj [(name, content)] => ofChoice? name content
  | _ => none
def ofChoice? (name : String) (content : Json) : Option Value :=
  match content with
  | .null => if name = "null" then some .null else none
  | .bool b => if name = "bool" then some (.bool b) else none
  | .num n => if name = "int" then ((Json.num n).int?.bind int64?).map .int else none
  | .str s => if name = "str" then some (.text s) else none
  | .arr items =>
    if name = "list" then (ofJsonAll? items).map .list
    else if name = "ref" then (NaturalKey.ofJson? (.arr items)).map .ref
    else none
  | .obj members => if name = "ref" then (NaturalKey.ofJson? (.obj members)).map .ref else none
def ofJsonAll? : List Json → Option (List Value)
  | [] => some []
  | j :: js =>
    match ofJson? j, ofJsonAll? js with
    | some v, some vs => some (v :: vs)
    | _, _ => none
end

end Value

namespace Entity

def toJson (e : Entity) : Json :=
  .obj [("kind", Kind.toJson e.kind), ("source", .str e.source),
    ("attributes", .obj (e.attributes.toList.map fun a => (a.1, a.2.toJson)))]

/-- Attributes from members; of two for one name the later counts. -/
def attributesOf? (members : List (String × Json)) : Option (SortedMap String Value) :=
  (members.mapM fun m => (Value.ofJson? m.2).map fun v => (m.1, v)).map .ofList

def ofJson? (j : Json) : Option Entity := do
  match ← j.parts? ["kind", "source", "attributes"] with
  | [some kind, some source, some attributes] =>
    return ⟨← Kind.ofJson? kind, ← source.text?, ← attributesOf? (← attributes.members?)⟩
  | _ => none

end Entity
end Reconciliation
