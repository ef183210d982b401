import Reconciliation.Document.Error
import Reconciliation.Store.Edit
/-!
# From a document to graphs

The kinds of a document make a schema: first all names are declared, so that a kind may name any other as its parent,
then the natural key and the connections of each.  After that the entities of each side are added one after the other.
A parent must stand in front of its children, and is linked through the first connection declared between the two kinds.

Building stops at the first fault.  Within one entity they are looked for in this order: its key, its kind, its
attributes by name, its parents as listed, and then what the graph refuses.
-/
namespace Reconciliation

/-- **The graphs of a document**, which share a schema. -/
structure GraphPair where
  schema : Schema
  target : Graph
  incoming : Graph
deriving DecidableEq

namespace Document

/-! ## The schema -/

def declareNames : List KindSpec → Schema → Except DocumentError Schema
  | [], s => .ok s
  | spec :: rest, s =>
    if (s.kindNamed? spec.name).isSome then .error (.duplicateKind spec.name)
    else declareNames rest (s.declareKind spec.name).1

def kindNamed (s : Schema) (name : String) : Except DocumentError Kind :=
  match s.kindNamed? name with
  | some kind => .ok kind
  | none => .error (.unknownKind name)

def declareParents (kind : Kind) : List ParentSpec → Schema → Except DocumentError Schema
  | [], s => .ok s
  | spec :: rest, s => do
    let parent ← kindNamed s spec.kind
    declareParents kind rest (s.declareConnection ⟨parent, kind, spec.cardinality, spec.optionality⟩)

/-- Declares the key attributes of a kind, if there are any. -/
def declareKeyOf (kind : Kind) (spec : KindSpec) (s : Schema) : Schema :=
  if spec.keyAttributes.isEmpty then s else s.declareKey kind spec.keyAttributes

/-- Declares the natural keys and the connections of kinds whose names are declared. -/
def declareDetails : List KindSpec → Schema → Except DocumentError Schema
  | [], s => .ok s
  | spec :: rest, s => do
    let kind ← kindNamed s spec.name
    declareDetails rest (← declareParents kind spec.parents (declareKeyOf kind spec s))

/-- **The schema of a document.** -/
def schema (d : Document) : Except DocumentError Schema := do
  declareDetails d.kinds (← declareNames d.kinds .empty)

/-! ## Attributes -/

/-- The soft reference that an object stands for: its only member, `ref`, has a kind's name and a key. -/
def referenceOf (s : Schema) : List (String × Json) → Except AttributeFault NaturalKey
  | [(name, .obj parts)] =>
    if name = "ref" then
      match parts.lookup "kind", parts.lookup "key" with
      | some (.str kind), some (.str key) =>
        match s.kindNamed? kind with
        | some kind => .ok ⟨kind, key⟩
        | none => .error (.unknownKind kind)
      | some (.str _), _ => .error .referenceWithoutKey
      | _, _ => .error .referenceWithoutKind
    else .error .notAReference
  | _ => .error .notAReference

mutual
/-- **The attribute value that a JSON value stands for.** -/
def valueOf (s : Schema) : Json → Except AttributeFault Value
  | .null => .ok .null
  | .bool b => .ok (.bool b)
  | .num (.int n) =>
    match Value.int64? n with
    | some i => .ok (.int i)
    | none => .error (.notAnInteger (.int n))
  | .num n => .error (.notAnInteger n)
  | .str t => .ok (.text t)
  | .arr items => (valuesOf s items).map .list
  | .obj members => (referenceOf s members).map .ref
def valuesOf (s : Schema) : List Json → Except AttributeFault (List Value)
  | [] => .ok []
  | j :: js => do
    let v ← valueOf s j
    let vs ← valuesOf s js
    return v :: vs
end

def setAttributes (s : Schema) (side : Side) (key : String) :
    List (String × Json) → Entity → Except DocumentError Entity
  | [], e => .ok e
  | (name, j) :: rest, e =>
    match valueOf s j with
    | .ok v => setAttributes s side key rest (e.set name v)
    | .error fault => .error (.badAttribute side key name fault)

/-! ## Entities -/

/-- A graph with some entities of one side, by their keys. -/
structure Placed where
  graph : Graph
  ids : SortedMap String EntityId
deriving DecidableEq

/-- The links of an entity of a kind to the parents it lists. -/
def linksOf (side : Side) (spec : EntitySpec) (kind : Kind) (p : Placed) :
    List String → Except DocumentError (List Link)
  | [] => .ok []
  | parent :: rest =>
    match p.ids.get? parent with
    | none => .error (.unknownParent side spec.key parent)
    | some id =>
      match p.graph.schema.connectionBetween? id.kind kind with
      | none => .error (.noConnection side spec.key (p.graph.schema.nameOf id.kind) spec.kind)
      | some c => (linksOf side spec kind p rest).map ((c, id) :: ·)

def attachAll (id : EntityId) : List (String × Json) → Edit Unit
  | [] => return ()
  | (mapping, value) :: rest => do
    Graph.setExternal mapping id value
    attachAll id rest

def addWith (data : Entity) (links : List Link) (externals : List (String × Json)) : Edit EntityId := do
  let id ← Graph.add data links
  attachAll id externals
  return id

/-- **Adds the entity of a description.** -/
def place (side : Side) (spec : EntitySpec) (p : Placed) : Except DocumentError Placed := do
  let s := p.graph.schema
  if p.ids.contains spec.key then throw (.duplicateKey side spec.key)
  let kind ← kindNamed s spec.kind
  let data ← setAttributes s side spec.key spec.attributes.toList (.new kind spec.source)
  let links ← linksOf side spec kind p spec.parents
  match addWith data links spec.externals.toList p.graph with
  | .ok id g => return ⟨g, p.ids.insert spec.key id⟩
  | .error cause _ => throw (.store side spec.key cause)

def placeAll (side : Side) : List EntitySpec → Placed → Except DocumentError Placed
  | [], p => .ok p
  | spec :: rest, p => do placeAll side rest (← place side spec p)

def graphOf (s : Schema) (side : Side) (specs : List EntitySpec) : Except DocumentError Graph :=
  (placeAll side specs ⟨.empty s, .empty⟩).map (·.graph)

/-- **Builds the graphs of a document.** -/
def build (d : Document) : Except DocumentError GraphPair := do
  let s ← d.schema
  return ⟨s, ← graphOf s .target d.target, ← graphOf s .incoming d.incoming⟩

end Document
end Reconciliation
