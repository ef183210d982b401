import Reconciliation.Schema
import Reconciliation.Encoding.Entity
/-!
# Schemas as JSON
-/
namespace Reconciliation

namespace KindDef

def toJson (d : KindDef) : Json :=
  .obj [("name", .str d.name), ("persistent_id", .ofList .str d.keyAttributes),
    ("parents", .ofList Connection.toJson d.parents)]

def ofJson? (j : Json) : Option KindDef := do
  match ← j.parts? ["name", "persistent_id", "parents"] with
  | [some name, some key, some parents] =>
    return ⟨← name.text?, ← Json.listOf? Json.text? key, ← Json.listOf? Connection.ofJson? parents⟩
  | _ => none

end KindDef

namespace Schema

def toJson (s : Schema) : Json := .obj [("kinds", .ofList KindDef.toJson s.kinds.toList)]

def ofJson? (j : Json) : Option Schema := do
  match ← j.parts? ["kinds"] with
  | [some kinds] => return ⟨(← Json.listOf? KindDef.ofJson? kinds).toArray⟩
  | _ => none

end Schema
end Reconciliation
