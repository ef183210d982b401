import Reconciliation.ChangeSet
import Reconciliation.Encoding.Entity
/-!
# Change sets as JSON
-/
namespace Reconciliation

def Change.toJson : Change → Json
  | .added id e => .obj [("change", .str "added"), ("id", id.toJson), ("entity", e.toJson)]
  | .removed id e => .obj [("change", .str "removed"), ("id", id.toJson), ("entity", e.toJson)]
  | .replaced id old new changed parentsChanged =>
    .obj [("change", .str "replaced"), ("id", id.toJson), ("old", old.toJson), ("new", new.toJson),
      ("changed_attributes", .ofList .str changed), ("parents_changed", .bool parentsChanged)]

def ChangeSet.toJson (s : ChangeSet) : Json :=
  .obj [("sequence", .nat s.sequence.toNat),
    ("changes", .obj (s.changes.toList.map fun k => (toString k.1.toNat, .ofList Change.toJson k.2)))]

end Reconciliation
