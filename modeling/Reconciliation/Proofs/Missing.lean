import Reconciliation.Proofs.Halting
/-!
# What a pass misses

Making room removes an entity early, together with all that requires it at that moment, while the plan counts on the
relabels that would have moved some of that elsewhere.  So an entity that the plan keeps can be gone when its turn comes,
and the pass fails (`replantedPass_misses`).

That is the only way: when a pass does not find an entity, then at that moment the entity is needed, and it was uprooted
before (`applyPlan_misses`).
-/
namespace Reconciliation

open Relation Pass

/-- **Something is needed** when the relabels of `pending` are still to come: it is to be changed, or to be a parent. -/
inductive Plan.Needs (p : Pass) (plan : Plan) (pending : List EntityId) : PlannedParent → Prop
  | self {t : EntityId} {data : Entity} {links : PlannedLinks} (asks : plan.Asks p pending (.target t) data links) :
    Needs p plan pending (.target t)
  | parent {x q : PlannedParent} {data : Entity} {links : PlannedLinks} {c : Connection}
    (asks : plan.Asks p pending x data links) (link : (c, q) ∈ links) : Needs p plan pending q

variable {p : Pass} {plan : Plan} {sp : Progress} {s : Applying} {fuel : Nat} {pending targetOrder incomingOrder : List EntityId}
  {e : ReconcileError}

theorem Setback.misses (h : Setback p plan pending s e) (hplan : plan.Rests p) (hclass : e.errorClass = .notFound) :
    ∃ q x, e = .store (.notFound x) ∧ s.Names p.target q x ∧ s.graph.contains x = false ∧ plan.Needs p pending q := by
  cases h with
  | parent asks link names gone => exact ⟨_, _, rfl, names, gone, .parent asks link⟩
  | @self data links t asks gone =>
    obtain ⟨_, _, _, _, _, _, operation, -⟩ := asks.relabel
    exact ⟨.target t, t, rfl, ⟨hplan.operations operation, rfl⟩, gone, .self asks⟩
  | schema schema => cases hclass.symm.trans schema.errorClass
  | _ => cases hclass

/-- **A pass that does not find an entity has uprooted it itself**: on the way it needs something that is gone, and that
hung by required links on an entity that had to make way, at the moment when that was removed. -/
theorem applyPlan_misses {o : Outcome} {g : Graph} (hp : p.Consistent) (ho : p.Orders targetOrder incomingOrder)
    (hplan : p.planInOrder fuel targetOrder incomingOrder = .ok (sp, o)) (hcounted : p.target.Counted)
    (happly : Graph.applyPlan p.incoming o.plan p.target = .error e g) (hclass : e.errorClass = .notFound) :
    ∃ pending s q x, e = .store (.notFound x) ∧ Underway p o.plan pending s ∧ s.Names p.target q x ∧
      s.graph.contains x = false ∧ o.plan.Needs p pending q ∧ o.plan.Uproots p pending q := by
  have hcarries := planInOrder_carries hp ho hplan hcounted
  obtain ⟨pending, s, hs, hsetback⟩ := applyPlan_stopped hcarries happly fun k h he => by
    rw [he] at hclass
    cases hclass
  obtain ⟨q, x, rfl, hq, hgone, hneeds⟩ := hsetback.misses hcarries.rests hclass
  exact ⟨pending, s, q, x, rfl, hs, hq, hgone, hneeds, (hs.stage hcarries).missing hq hgone⟩

/-- The kinds of `replantedPass`. -/
def replantedSchema : Schema :=
  ⟨#[⟨"K", [], []⟩, ⟨"T", [], [⟨0, 1, .many, .optional⟩, ⟨3, 1, .many, .required⟩]⟩, ⟨"F", [], []⟩,
    ⟨"Q", ["id"], [⟨2, 3, .many, .optional⟩]⟩]⟩

/-- An entity that is to be moved from a required parent to the copy of another one, which has the same natural key: the
old parent makes way for the copy before the entity is moved. -/
def replantedPass : Pass where
  target := { Graph.ofNodes replantedSchema
      [(⟨0, 0⟩, .new 0 "s", []), (⟨2, 0⟩, (Entity.new 2 "s").set "x" (.int 1), []),
        (⟨3, 0⟩, (Entity.new 3 "s").set "id" (.int 1), [(⟨2, 3, .many, .optional⟩, ⟨2, 0⟩)]),
        (⟨1, 0⟩, .new 1 "s", [(⟨0, 1, .many, .optional⟩, ⟨0, 0⟩), (⟨3, 1, .many, .required⟩, ⟨3, 0⟩)])]
      [(0, 1), (1, 1), (2, 1), (3, 1)] with
    keys := ⟨.ofList [(⟨3, "1"⟩, ⟨3, 0⟩)], .empty⟩ }
  incoming := { Graph.ofNodes replantedSchema
      [(⟨0, 0⟩, .new 0 "s", []), (⟨2, 0⟩, (Entity.new 2 "s").set "x" (.int 2), []),
        (⟨3, 0⟩, (Entity.new 3 "s").set "id" (.int 1), [(⟨2, 3, .many, .optional⟩, ⟨2, 0⟩)]),
        (⟨1, 0⟩, .new 1 "s", [(⟨0, 1, .many, .optional⟩, ⟨0, 0⟩), (⟨3, 1, .many, .required⟩, ⟨3, 0⟩)])]
      [(0, 1), (1, 1), (2, 1), (3, 1)] with
    keys := ⟨.ofList [(⟨3, "1"⟩, ⟨3, 0⟩)], .empty⟩ }
  accepts _ := true

theorem replantedPass_consistent : replantedPass.Consistent := ⟨by decide +kernel, by decide +kernel, rfl⟩

/-- The entity is to be moved under the copy, and is not found. -/
theorem replantedPass_runs : ∃ r g, replantedPass.planInOrder replantedPass.fuel
      (replantedPass.target.visitOrder replantedPass.accepts .default)
      (replantedPass.incoming.visitOrder replantedPass.accepts .default) = .ok r ∧
    r.2.plan.operations.get? ⟨1, 0⟩ = some (.relabel ⟨1, 0⟩ (some [(⟨0, 1, .many, .optional⟩, .target ⟨0, 0⟩),
      (⟨3, 1, .many, .required⟩, .added ⟨3, 0⟩)])) ∧
    Graph.applyPlan replantedPass.incoming r.2.plan replantedPass.target = .error (.store (.notFound ⟨1, 0⟩)) g := by
  obtain ⟨r, e, g, hplan, happly, hcheck, he⟩ := exists_of_stopsWith (p := replantedPass)
    (fun plan => plan.operations.get? ⟨1, 0⟩ = some (.relabel ⟨1, 0⟩
      (some [(⟨0, 1, .many, .optional⟩, .target ⟨0, 0⟩), (⟨3, 1, .many, .required⟩, .added ⟨3, 0⟩)])))
    (fun e => e = .store (.notFound ⟨1, 0⟩)) (by decide +kernel)
  rw [decide_eq_true_eq] at hcheck he
  subst he
  exact ⟨r, g, hplan, hcheck, happly⟩

/-- **A pass can miss an entity that its plan keeps.** -/
theorem replantedPass_misses : replantedPass.Consistent ∧ ∃ r g, replantedPass.planInOrder replantedPass.fuel
      (replantedPass.target.visitOrder replantedPass.accepts .default)
      (replantedPass.incoming.visitOrder replantedPass.accepts .default) = .ok r ∧
    (∃ i links, r.2.plan.operations.get? ⟨1, 0⟩ = some (.relabel i links)) ∧
    Graph.applyPlan replantedPass.incoming r.2.plan replantedPass.target = .error (.store (.notFound ⟨1, 0⟩)) g ∧
    (ReconcileError.store (.notFound ⟨1, 0⟩)).errorClass = .notFound := by
  obtain ⟨r, g, hplan, hop, hfails⟩ := replantedPass_runs
  exact ⟨replantedPass_consistent, r, g, hplan, ⟨_, _, hop⟩, hfails, rfl⟩

theorem applyPlan_misses_replantedPass : ∃ r pending s q, replantedPass.planInOrder replantedPass.fuel
      (replantedPass.target.visitOrder replantedPass.accepts .default)
      (replantedPass.incoming.visitOrder replantedPass.accepts .default) = .ok r ∧
    Underway replantedPass r.2.plan pending s ∧ s.Names replantedPass.target q ⟨1, 0⟩ ∧
    s.graph.contains ⟨1, 0⟩ = false ∧ r.2.plan.Needs replantedPass pending q ∧
    r.2.plan.Uproots replantedPass pending q := by
  obtain ⟨r, g, hplan, -, hfails⟩ := replantedPass_runs
  have hcounted : replantedPass.target.Counted := by decide +kernel
  obtain ⟨pending, s, q, x, he, hs, hq, hgone, hneeds, huproots⟩ := applyPlan_misses replantedPass_consistent
    (visitOrder_orders replantedPass .default) hplan hcounted hfails rfl
  obtain rfl := StoreError.notFound.inj (ReconcileError.store.inj he)
  exact ⟨r, pending, s, q, hplan, hs, hq, hgone, hneeds, huproots⟩

end Reconciliation
