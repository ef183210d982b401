import Reconciliation.Proofs.Externals
import Reconciliation.Proofs.Renamings
/-!
# What a plan leaves alone

A target entity for which a plan has no operation can still be touched: it goes when it requires something that goes,
its links to what goes are dropped, and its references follow the renames.  Nothing else happens to it
(`Plan.Spares`).  If it is there in the end,
- its kind, its source and what is attached to it are as they were;
- its parents are those that it had, in their order, as far as they are still there;
- its attributes are those that it had, with each soft reference, at whatever depth, where the one rename that starts at
  it leads.

Values are attached only to what is relabelled and to copies (`Act.externals_of_alone`), and the links of everything else
are the ones that it had in the target (`Plan.LeavesAlone.link_iff`).
-/
namespace Reconciliation

open Pass Reconciliation.Graph

/-- **What happens to an entity that a plan leaves alone.** -/
structure Plan.Spares (plan : Plan) (before after : Graph) (t : EntityId) : Prop where
  data : ∀ e, before.entity t = .ok e → after.entity t = .ok (e.mapRefs (Rename.destination plan.renames))
  externals : after.externalsOf t = before.externalsOf t
  parents : ∀ links, before.parentsOf t = .ok links →
    after.parentsOf t = .ok (links.filter fun l => after.contains l.2)

variable {p : Pass} {plan : Plan} {d : Deed} {s s' : Applying} {pending : List EntityId} {t y : EntityId} {c : Connection}
  {q : PlannedParent}

/-! ## What is attached -/

theorem Plan.LeavesAlone.link_iff (ht : plan.LeavesAlone p t) :
    plan.Link p.target pending (.target t) c q ↔ ∃ y, q = .target y ∧ p.target.HasLink t c y := by
  have hown : plan.linksFor? t = none := by rw [Plan.linksFor?, ht.operation]
  constructor
  · rintro (⟨there, link, -⟩ | ⟨-, planned, -⟩)
    · obtain ⟨n, hn, rfl⟩ := links?_eq_some_iff.1 there
      exact ⟨_, rfl, n, hn, link⟩
    · cases hown.symm.trans planned
  · rintro ⟨y, rfl, n, hn, link⟩
    exact .own (links?_eq_some_iff.2 ⟨n, hn, rfl⟩) link (.inr hown)

variable {sp : Progress} {fuel : Nat} {targetOrder incomingOrder : List EntityId}

end Reconciliation
