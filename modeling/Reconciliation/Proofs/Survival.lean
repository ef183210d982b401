import Reconciliation.Proofs.Carried
import Reconciliation.Proofs.Matrix
import Reconciliation.Reconcile
/-!
# What a pass takes along

When a pass succeeds, the target entities that are gone are the doomed ones (`applyPlan_lacks_iff`): those that the plan
removes, and those that require something that goes, by the links that they have when the removals are made.  In the
target as it was, such an entity hangs on a removed one, or on one that the plan gives a required parent that goes.  The
second happens: a counterpart can have a parent that stands for a target entity which is removed later on.
-/
namespace Reconciliation

open Relation Pass

variable {p : Pass} {s : Progress} {fuel : Nat} {targetOrder incomingOrder : List EntityId}

theorem planInOrder_fits {o : Outcome} (hp : p.Consistent) (ho : p.Orders targetOrder incomingOrder)
    (h : p.planInOrder fuel targetOrder incomingOrder = .ok (s, o)) : o.plan.Fits p := by
  obtain ⟨hsteps, -, -, hadd, hop⟩ := planInOrder_ok hp ho h
  have hs := hsteps.sound (Progress.sound_start p)
  constructor
  case operations =>
    intro t op ht
    rw [hop] at ht
    obtain ⟨f, hf, -⟩ := hs.fate_of_operation ht
    exact hs.contains_target hf
  case given =>
    intro t
    rw [Plan.linksFor?, hop]
    split
    · next i links ht =>
      obtain ⟨f, hf, hfate⟩ := hs.fate_of_operation ht
      cases f with
      | kept | removed => cases hfate
      | relabelled j links' =>
        obtain ⟨-, rfl⟩ := Operation.relabel.inj (Option.some.inj hfate)
        exact (hs.relabelled hf).2.2
    · exact thereAll_none
  case added =>
    intro a ha
    rw [hadd] at ha
    exact hs.addedLinks a ha
  case additions =>
    rw [hadd]
    exact hs.additions

/-- **When a pass succeeds, exactly the doomed target entities are gone.**  Each of them hung, by required links of the
target as it was, on one that the plan removes, or on one to which the plan gives a required parent that goes. -/
theorem applyPlan_lacks_iff {o : Outcome} {applied : Applied} {g : Graph} {t : EntityId} (hp : p.Consistent)
    (ho : p.Orders targetOrder incomingOrder) (hplan : p.planInOrder fuel targetOrder incomingOrder = .ok (s, o))
    (hcounted : p.target.Counted) (happly : Graph.applyPlan p.incoming o.plan p.target = .ok applied g)
    (ht : p.target.contains t = true) :
    (g.contains t = false ↔ o.plan.Doomed p.target (.target t)) ∧
      (g.contains t = false →
        (∃ r, o.plan.operations.get? r = some .remove ∧ ReflTransGen p.target.IsRequiredParent r t) ∨
          ∃ u links c parent, o.plan.linksFor? u = some links ∧ (c, parent) ∈ links ∧ c.isRequired = true ∧
            o.plan.Doomed p.target parent ∧ ReflTransGen p.target.IsRequiredParent u t) := by
  have hlacks : g.contains t = false ↔ o.plan.Doomed p.target (.target t) := by
    rw [Graph.applyPlan] at happly
    split at happly
    · next applied' s' hrun =>
      obtain ⟨-, rfl⟩ := EStateM.Result.ok.inj happly
      exact Apply.plan_carried (planInOrder_fits hp ho hplan) hp.target hcounted hrun ht
    · cases happly
  exact ⟨hlacks, fun hgone => (hlacks.1 hgone).chain⟩

/-! ## An entity that is taken along -/

/-- A target entity with a required parent that stays, and a counterpart whose parent looks like a target entity that is
removed, since that entity's own counterpart is not accepted. -/
def strandedPass : Pass where
  target := .ofNodes ⟨#[⟨"T", [], [⟨2, 0, .many, .optional⟩, ⟨1, 0, .many, .required⟩]⟩,
      ⟨"Q", [], [⟨2, 1, .many, .optional⟩]⟩, ⟨"G", [], []⟩]⟩
    [(⟨2, 0⟩, .new 2 "s", []), (⟨1, 0⟩, (Entity.new 1 "o").set "x" (.int 5), []),
      (⟨1, 1⟩, (Entity.new 1 "s").set "x" (.int 6), [(⟨2, 1, .many, .optional⟩, ⟨2, 0⟩)]),
      (⟨0, 0⟩, .new 0 "s", [(⟨2, 0, .many, .optional⟩, ⟨2, 0⟩), (⟨1, 0, .many, .required⟩, ⟨1, 0⟩)])]
    [(0, 1), (1, 2), (2, 1)]
  incoming := .ofNodes ⟨#[⟨"T", [], [⟨2, 0, .many, .optional⟩, ⟨1, 0, .many, .required⟩]⟩,
      ⟨"Q", [], [⟨2, 1, .many, .optional⟩]⟩, ⟨"G", [], []⟩]⟩
    [(⟨2, 0⟩, .new 2 "s", []), (⟨1, 0⟩, (Entity.new 1 "o").set "x" (.int 6), [(⟨2, 1, .many, .optional⟩, ⟨2, 0⟩)]),
      (⟨0, 0⟩, .new 0 "s", [(⟨2, 0, .many, .optional⟩, ⟨2, 0⟩), (⟨1, 0, .many, .required⟩, ⟨1, 0⟩)])]
    [(0, 1), (1, 1), (2, 1)]
  accepts source := source = "s"

theorem strandedPass_consistent : strandedPass.Consistent := ⟨by decide +kernel, by decide +kernel, rfl⟩

/-- The entity is gone after the pass, and the only one that the plan removes is another. -/
theorem strandedPass_runs : ∃ r applied g, strandedPass.planInOrder strandedPass.fuel
      (strandedPass.target.visitOrder strandedPass.accepts .default)
      (strandedPass.incoming.visitOrder strandedPass.accepts .default) = .ok r ∧
    Graph.applyPlan strandedPass.incoming r.2.plan strandedPass.target = .ok applied g ∧
    g.contains ⟨0, 0⟩ = false ∧ r.2.plan.removals = [⟨1, 1⟩] := by
  have hrun : ((strandedPass.planInOrder strandedPass.fuel
      (strandedPass.target.visitOrder strandedPass.accepts .default)
      (strandedPass.incoming.visitOrder strandedPass.accepts .default)).toOption.any fun r =>
        match Graph.applyPlan strandedPass.incoming r.2.plan strandedPass.target with
        | .ok _ g => g.contains ⟨0, 0⟩ = false && r.2.plan.removals = [⟨1, 1⟩]
        | .error _ _ => false) = true := by
    decide +kernel
  obtain ⟨r, hplan, hr⟩ := exists_of_any hrun
  split at hr
  · next applied g happly =>
    simp only [Bool.and_eq_true, decide_eq_true_eq] at hr
    exact ⟨r, applied, g, hplan, happly, hr.1, hr.2⟩
  · cases hr

/-- **A pass can take along what did not hang on anything that it removes.** -/
theorem strandedPass_loses : strandedPass.Consistent ∧ ∃ r applied g, strandedPass.planInOrder strandedPass.fuel
      (strandedPass.target.visitOrder strandedPass.accepts .default)
      (strandedPass.incoming.visitOrder strandedPass.accepts .default) = .ok r ∧
    Graph.applyPlan strandedPass.incoming r.2.plan strandedPass.target = .ok applied g ∧
    strandedPass.target.contains ⟨0, 0⟩ = true ∧ g.contains ⟨0, 0⟩ = false ∧
    r.2.plan.operations.get? ⟨0, 0⟩ ≠ some .remove ∧
    ¬∃ u, r.2.plan.operations.get? u = some .remove ∧ ReflTransGen strandedPass.target.IsRequiredParent u ⟨0, 0⟩ := by
  obtain ⟨r, applied, g, hplan, happly, hgone, hremovals⟩ := strandedPass_runs
  have hremoved : ∀ {u}, r.2.plan.operations.get? u = some .remove → u = ⟨1, 1⟩ := fun {u} hu => by
    have hmem := Plan.mem_removals_iff.2 hu
    rw [hremovals] at hmem
    exact List.mem_singleton.1 hmem
  refine ⟨strandedPass_consistent, r, applied, g, hplan, happly, by decide +kernel, hgone, fun h => ?_, ?_⟩
  · cases hremoved h
  · rintro ⟨u, hu, hreach⟩
    obtain rfl := hremoved hu
    have hclosure : (⟨0, 0⟩ : EntityId) ∉ strandedPass.target.requiredClosure ⟨1, 1⟩ := by decide +kernel
    exact hclosure (Graph.mem_requiredClosure_iff.2 hreach)

theorem applyPlan_lacks_iff_strandedPass : ∃ r applied g, strandedPass.planInOrder strandedPass.fuel
      (strandedPass.target.visitOrder strandedPass.accepts .default)
      (strandedPass.incoming.visitOrder strandedPass.accepts .default) = .ok r ∧
    Graph.applyPlan strandedPass.incoming r.2.plan strandedPass.target = .ok applied g ∧
    r.2.plan.Doomed strandedPass.target (.target ⟨0, 0⟩) := by
  obtain ⟨r, applied, g, hplan, happly, hgone, -⟩ := strandedPass_runs
  have hcounted : strandedPass.target.Counted := by decide +kernel
  have hthere : strandedPass.target.contains ⟨0, 0⟩ = true := by decide +kernel
  exact ⟨r, applied, g, hplan, happly, (applyPlan_lacks_iff strandedPass_consistent
    (visitOrder_orders strandedPass .default) hplan hcounted happly hthere).1.1 hgone⟩

end Reconciliation
