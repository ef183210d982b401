import Reconciliation.Proofs.Halting
/-!
# Conflicts

A pass gives up when a natural key or a one-to-one slot that it needs is held by something that it does not remove.
Often there is a genuine conflict then: with everything planned in force, two entities that are both there have one key,
or hold one slot of one parent (`Plan.Conflicts`).  But a pass looks at what is there at the moment, and only makes room
by its removals.  So it gives up as well when one of the two is only taken along by a removal or the parent of the slot
goes, when the slot is to be handed over by a relabel that is still to come, and when a reference that follows a rename
would give an entity a key that is taken (`applyPlan_unsupported`).  In none of these cases need there be a genuine
conflict (`givesUp_examples`).
-/
namespace Reconciliation

open Relation Pass

variable {p : Pass} {plan : Plan} {sp : Progress} {fuel : Nat} {targetOrder incomingOrder pending : List EntityId}
  {s : Applying} {e : ReconcileError}

namespace Plan

/-- **Two entities clash when everything planned is in force**: both have one natural key, or both hold one one-to-one
slot, and then it is a slot of `parent`. -/
inductive Clash (p : Pass) (plan : Plan) (x y : PlannedParent) : (parent : Option PlannedParent) → Prop
  | key {k : NaturalKey} (ne : x ≠ y) (left : plan.HasKey p x k) (right : plan.HasKey p y k) : Clash p plan x y none
  | slot {c : Connection} {q : PlannedParent} (ne : x ≠ y) (one : c.cardinality = .one)
    (left : plan.Link p.target [] x c q) (right : plan.Link p.target [] y c q) : Clash p plan x y (some q)

/-- The plan removes an entity itself. -/
def Removes (plan : Plan) (x : PlannedParent) : Prop := ∃ t, x = .target t ∧ plan.operations.get? t = some .remove

/-- **A slot is to be handed over**: it is asked for while the entity that has it waits for the relabel that takes it
elsewhere. -/
inductive HandsOver (p : Pass) (plan : Plan) : Prop
  | intro {pending : List EntityId} {x : PlannedParent} {data : Entity} {links given : PlannedLinks} {c : Connection}
    {y u : EntityId} (asks : plan.Asks p pending x data links) (link : (c, .target y) ∈ links)
    (one : c.cardinality = .one) (holder : p.target.HasLink u c y) (other : x ≠ .target u) (waits : u ∈ pending)
    (moves : plan.linksFor? u = some given) (away : (c, .target y) ∉ given)

variable {x : PlannedParent} {data : Entity} {links : PlannedLinks}

theorem Asks.not_removes (h : plan.Asks p pending x data links) : ¬plan.Removes x := by
  rintro ⟨t, rfl, hremove⟩
  obtain ⟨_, _, _, _, _, _, operation, -⟩ := h.relabel
  cases operation.symm.trans hremove

end Plan

theorem Setback.unsupported (hplan : p.Carries plan) (hs : Underway p plan pending s) (h : Setback p plan pending s e)
    (hclass : e.errorClass = .unsupported) :
    (∃ x y parent, plan.Clash p x y parent ∧ ¬plan.Removes x ∧ ¬plan.Removes y) ∨ plan.HandsOver p := by
  have hstage := hs.stage hplan
  -- whoever holds what is asked for has another name, and is not removed
  have hholder : ∀ {x y h}, ¬s.Names p.target x h → plan.operations.get? h ≠ some .remove → s.Names p.target y h →
      x ≠ y ∧ ¬plan.Removes y := by
    intro x y h hother hstays hy
    refine ⟨?_, ?_⟩
    · rintro rfl
      exact hother hy
    · rintro ⟨t, rfl, hremove⟩
      exact hstays (hy.2 ▸ hremove)
  cases h with
  | @key x data links k h _ asks key holder other stays =>
    obtain ⟨y, hy⟩ := hstage.named (hstage.consistent.contains_of_resolve holder)
    obtain ⟨hne, hy'⟩ := hholder other stays hy
    obtain ⟨e, hbears, hk⟩ := hstage.bears_of_resolve hy holder
    have hkey : plan.HasKey p y k := hbears.hasKey hplan.rests.keys
      (fun i hi => hstage.copied (SortedMap.contains_iff.2 ⟨h, by subst hi; exact hy⟩)) hk
    exact .inl ⟨x, y, none, .key hne ⟨data, asks.assigns, key⟩ hkey, asks.not_removes, hy'⟩
  | @slot x data links c q z h _ asks link one names holder other stays =>
    obtain ⟨n, hn, hmem⟩ := holder
    obtain ⟨y, hy⟩ := hstage.named (Graph.contains_iff.2 ⟨n, hn⟩)
    obtain ⟨hne, hy'⟩ := hholder other stays hy
    obtain ⟨q', hq', hlink⟩ := hstage.link hy ⟨n, hn, hmem⟩
    obtain rfl := hstage.unique names hq'
    rcases hlink.final_or with hfinal | ⟨u, z', given, rfl, rfl, hwaits, hslot, hmoves, haway⟩
    · exact .inl ⟨x, y, some q, .slot hne one (asks.final link) hfinal, asks.not_removes, hy'⟩
    · exact .inr (.intro asks link one hslot hne hwaits hmoves haway)
  | schema schema => cases hclass.symm.trans schema.errorClass
  | _ => cases hclass

end Reconciliation
