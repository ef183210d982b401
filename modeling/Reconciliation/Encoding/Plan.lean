import Reconciliation.Reconcile
import Reconciliation.Encoding.Entity
/-!
# Options, plans and reports as JSON
-/
namespace Reconciliation

namespace Options

def toJson (o : Options) : Json := .obj [("shuffle_seed", .ofOption (fun n => .nat n.toNat) o.shuffleSeed)]

/-- A seed, or none. -/
def seed? : Json → Option (Option UInt64)
  | .null => some none
  | j => (j.natBelow? UInt64.size).map fun n => some n.toUInt64

/-- Options without a seed do not shuffle. -/
def ofJson? (j : Json) : Option Options := do
  match ← j.parts? ["shuffle_seed"] with
  | [some seed] => return ⟨← seed? seed⟩
  | _ => return .default

end Options

def PlannedParent.toJson : PlannedParent → Json
  | .target id => .obj [("ref", .str "target"), ("id", id.toJson)]
  | .added id => .obj [("ref", .str "added"), ("id", id.toJson)]

def PlannedLinks.toJson (links : PlannedLinks) : Json := .ofList (fun l => .arr [l.1.toJson, l.2.toJson]) links

def Addition.toJson (a : Addition) : Json :=
  .obj [("parents", .ofOption PlannedLinks.toJson a.links), ("incoming", a.incoming.toJson)]

def Operation.toJson (target : EntityId) : Operation → Json
  | .relabel counterpart links =>
    .obj [("target", target.toJson), ("op", .str "relabel"), ("counterpart", counterpart.toJson),
      ("parents", .ofOption PlannedLinks.toJson links)]
  | .remove => .obj [("target", target.toJson), ("op", .str "remove")]

def Rename.toJson (r : Rename) : Json :=
  .obj [("removed", r.removed.toJson), ("added", r.added.toJson), ("from", r.old.toJson), ("to", r.new.toJson)]

def Plan.toJson (p : Plan) : Json :=
  .obj [("adds", .ofList Addition.toJson p.additions),
    ("operations", .ofList (fun o => o.2.toJson o.1) p.operations.toList),
    ("renames", .ofList Rename.toJson p.renames)]

def Report.toJson (r : Report) : Json :=
  .obj [("added", .nat r.added), ("relabeled", .nat r.relabeled), ("removed", .nat r.removed),
    ("untouched", .nat r.untouched), ("trace_lost", .nat r.traceLost)]

end Reconciliation
