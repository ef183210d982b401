import Reconciliation.ChangeSet
import Reconciliation.Document.Build
import Reconciliation.Json.Printer
import Reconciliation.Reconcile
/-!
# Listings

What the commands print about graphs and plans.  An entity is listed with its parents and the texts of its attributes,
so the integer `1` and the text `"1"` look the same here.
-/
namespace Reconciliation

namespace Graph

def parentTexts (g : Graph) (id : EntityId) : List String :=
  match g.parentsOf id with
  | .ok links => links.map fun l => l.2.text
  | .error _ => []

def attributeTexts (e : Entity) : Json := .obj (e.attributes.toList.map fun a => (a.1, .str a.2.render))

def describe (g : Graph) (id : EntityId) (e : Entity) : Json :=
  .obj [("id", .str id.text), ("kind", .str (g.schema.nameOf id.kind)), ("source", .str e.source),
    ("attributes", attributeTexts e), ("parents", .ofList .str (g.parentTexts id))]

def listEntity (g : Graph) (id : EntityId) (e : Entity) : String :=
  s!"{g.schema.nameOf id.kind} {id.text} ({e.source}) " ++ (attributeTexts e).compact ++ " <- " ++
    (Json.ofList .str (g.parentTexts id)).compact ++ "\n"

/-- **All entities of a graph, one on each line**, in ascending order of their ids. -/
def list (g : Graph) : String := String.join (g.entities.map fun e => g.listEntity e.1 e.2)

def toJson (g : Graph) : Json := .ofList (fun e => g.describe e.1 e.2) g.entities

end Graph

namespace Plan

def listOperation (s : Schema) (target : EntityId) : Operation → String
  | .relabel counterpart _ => s!"relabel {s.nameOf target.kind} {target.text} from incoming {counterpart.text}\n"
  | .remove => s!"remove {s.nameOf target.kind} {target.text}\n"

def listAddition (s : Schema) (a : Addition) : String :=
  s!"add {s.nameOf a.incoming.kind} from incoming {a.incoming.text}\n"

/-- **A plan, one decision on each line**: the operations by target id, then the additions. -/
def list (s : Schema) (p : Plan) : String :=
  String.join (p.operations.toList.map fun o => listOperation s o.1 o.2) ++
    String.join (p.additions.map (listAddition s)) ++ if p.isEmpty then "nothing to do\n" else ""

end Plan

namespace GraphPair

def countLine (p : GraphPair) (kind : Kind) (name : String) : String :=
  s!"{name}: {(p.target.idsOfKind kind).length} target, {(p.incoming.idsOfKind kind).length} incoming\n"

def sources (p : GraphPair) : List Source :=
  (SortedMap.ofList ((p.target.entities ++ p.incoming.entities).map fun e => (e.2.source, ()))).keys

/-- **An overview of both sides**: the number of entities of each kind, and all sources. -/
def overview (p : GraphPair) : String :=
  String.join (p.schema.numbered.map fun d => p.countLine d.1 d.2.name) ++
    "sources: " ++ ", ".intercalate p.sources ++ "\n"

end GraphPair
end Reconciliation
