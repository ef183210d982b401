import Reconciliation.Plan.Progress
/-!
# Renames

A removed entity whose natural key is gone from the incoming graph, and an added entity whose natural key is new to the
target, are taken for one entity under another key when they are of one kind and agree on every attribute that is not
part of the key.  The removed ones look for a partner in ascending order, each takes the first that is left, and nothing
is used twice.
-/
namespace Reconciliation

/-- The attributes that are not part of the natural key. -/
def Schema.besideKey (s : Schema) (kind : Kind) (e : Entity) : List (String × Value) :=
  let key := ((s.kind? kind).map (·.keyAttributes)).getD []
  e.attributes.toList.filter fun a => !key.contains a.1

/-- Whether two entities agree on everything but the key attributes of the first one's kind. -/
def Schema.equalBesideKey (s : Schema) (a b : Entity) : Bool := s.besideKey a.kind a = s.besideKey a.kind b

namespace Plan

/-- Added entities whose natural keys are new to the target, in the order of the additions. -/
def freshKeys (target incoming : Graph) : List Addition → Except StoreError (List (EntityId × NaturalKey))
  | [] => .ok []
  | a :: rest => do
    let data ← incoming.entity a.incoming
    let later ← freshKeys target incoming rest
    match target.schema.naturalKey? data with
    | none => return later
    | some key => return if (target.resolve key).isNone then (a.incoming, key) :: later else later

/-- Whether a removed entity with the given data may have become an added one. -/
def becomes (target incoming : Graph) (removed : EntityId) (data : Entity) (fresh : EntityId × NaturalKey) : Bool :=
  fresh.1.kind = removed.kind &&
    match incoming.entity fresh.1 with
    | .ok other => target.schema.equalBesideKey data other
    | .error _ => false

/-- Pairs the removals among operations with the added entities that are left. -/
def pairRenames (target incoming : Graph) :
    List (EntityId × Operation) → List (EntityId × NaturalKey) → Except StoreError (List Rename)
  | [], _ => .ok []
  | (_, .relabel _ _) :: rest, fresh => pairRenames target incoming rest fresh
  | (removed, .remove) :: rest, fresh =>
    if fresh.isEmpty then .ok []
    else do
      let data ← target.entity removed
      match target.schema.naturalKey? data with
      | none => pairRenames target incoming rest fresh
      | some old =>
        if (incoming.resolve old).isSome then pairRenames target incoming rest fresh
        else
          match fresh.find? (becomes target incoming removed data) with
          | none => pairRenames target incoming rest fresh
          | some partner =>
            let later ← pairRenames target incoming rest (fresh.erase partner)
            return ⟨removed, partner.1, old, partner.2⟩ :: later

/-- Added entities order by id, then by natural key. -/
def freshLe (a b : EntityId × NaturalKey) : Bool := (compareLex (compareOn Prod.fst) (compareOn Prod.snd) a b).isLE

/-- **The renames of a plan.** -/
def findRenames (target incoming : Graph) (plan : Plan) : Except ReconcileError (List Rename) := do
  let fresh ← (freshKeys target incoming plan.additions).mapError .store
  (pairRenames target incoming plan.operations.toList (sortBy freshLe fresh)).mapError .store

end Plan
end Reconciliation
