import Reconciliation.Proofs.Halting
/-!
# Nesting on the way

Relabels are made one by one, and each is refused if it would put an entity under something that lies below it at that
moment.  Nothing waits for the relabel that would take that away first.  So a plan can fail at a circle although with all
relabels made there is none (`invertedPass_circles`).

When it fails there is a circle with the relabels so far, and if there is none with all of them, the circle goes through
a link that some relabel still to come takes away (`applyPlan_circles`).
-/
namespace Reconciliation

open Relation Pass

variable {p : Pass} {plan : Plan} {sp : Progress} {fuel : Nat} {pending targetOrder incomingOrder : List EntityId}
  {t y : EntityId} {x q : PlannedParent} {c : Connection}

/-- A chain can be taken from the last time that it leaves its start. -/
theorem reflTransGen_off {α : Type} {r : α → α → Prop} {a b : α} (h : ReflTransGen r a b) :
    ReflTransGen (fun x y => r x y ∧ y ≠ a) a b := by
  induction h with
  | refl => exact .refl
  | @tail x y _ hstep ih =>
    by_cases hy : y = a
    · rw [hy]
    · exact ih.tail ⟨hstep, hy⟩

namespace Plan

/-- **No entity lies below itself**, as long as the relabels of `pending` are still to come. -/
def Nests (plan : Plan) (target : Graph) (pending : List EntityId) : Prop :=
  ∀ x, ¬TransGen (plan.IsParent target pending) x x

/-- What ranks below its parents lies below itself never. -/
theorem nests_of_rank (hplan : plan.Fits p) (rank : PlannedParent → Nat)
    (h : ((plan.finalLinks p.target).all fun l => rank l.2.2 < rank l.1) = true) : plan.Nests p.target [] := by
  simp only [List.all_eq_true, decide_eq_true_eq] at h
  have hlt : ∀ {x y}, TransGen (plan.IsParent p.target []) x y → rank x < rank y := by
    intro x y hxy
    induction hxy with
    | single hstep =>
      obtain ⟨c, hlink⟩ := hstep
      exact h _ ((mem_finalLinks_iff hplan).2 hlink)
    | tail _ hstep ih =>
      obtain ⟨c, hlink⟩ := hstep
      exact ih.trans (h _ ((mem_finalLinks_iff hplan).2 hlink))
  exact fun x hx => lt_irrefl _ (hlt hx)

theorem IsParent.chain_tail {rest : List EntityId} (h : ReflTransGen (plan.IsParent p.target (t :: rest)) (.target t) q) :
    ReflTransGen (plan.IsParent p.target rest) (.target t) q :=
  (reflTransGen_off h).lift id fun _ _ ⟨⟨c, hlink⟩, hne⟩ => ⟨c, (link_tail_iff (.inl hne)).2 hlink⟩

/-- **A link that is in the way**: a relabel still to come takes it away. -/
structure InTheWay (p : Pass) (plan : Plan) (pending : List EntityId) (u : EntityId) (c : Connection) (y : EntityId) :
    Prop where
  waits : u ∈ pending
  holder : p.target.HasLink u c y
  moves : ∃ given, plan.linksFor? u = some given ∧ (c, .target y) ∉ given

/-- What lies below an entity on the way lies below it in the end, or below a link that is in the way. -/
theorem IsParent.chain_final (h : ReflTransGen (plan.IsParent p.target pending) x q) :
    ReflTransGen (plan.IsParent p.target []) x q ∨ ∃ u c y, plan.InTheWay p pending u c y ∧
      ReflTransGen (plan.IsParent p.target pending) x (.target y) ∧
      ReflTransGen (plan.IsParent p.target pending) (.target u) q := by
  induction h with
  | refl => exact .inl .refl
  | tail hbefore hstep ih =>
    obtain ⟨c, hlink⟩ := hstep
    rcases ih with hfinal | ⟨u, c', y, hway, hup, hdown⟩
    · rcases hlink.final_or with hlink | ⟨u, y, given, rfl, rfl, hwaits, hholder, hmoves, haway⟩
      · exact .inl (hfinal.tail ⟨c, hlink⟩)
      · exact .inr ⟨u, c, y, ⟨hwaits, hholder, given, hmoves, haway⟩, hbefore, .refl⟩
    · exact .inr ⟨u, c', y, hway, hup, hdown.tail ⟨c, hlink⟩⟩

end Plan

/-- **A pass that meets a circle** would close it by the relabel that it makes: the entity is to be put under something
that lies below it, with the relabels so far.  If nothing lies below itself with all relabels made, then the way down
from the entity goes through a link that is in the way. -/
theorem applyPlan_circles {o : Outcome} {g : Graph} (hp : p.Consistent) (ho : p.Orders targetOrder incomingOrder)
    (hplan : p.planInOrder fuel targetOrder incomingOrder = .ok (sp, o)) (hcounted : p.target.Counted)
    (happly : Graph.applyPlan p.incoming o.plan p.target = .error (.store (.parentCycle y t)) g) :
    ∃ before i links after c q, o.plan.relabels = before ++ (t, i, some links) :: after ∧ (c, q) ∈ links ∧
      ReflTransGen (o.plan.IsParent p.target (after.map (·.1))) (.target t) q ∧
      (o.plan.Nests p.target [] → ∃ u c' z, o.plan.InTheWay p (after.map (·.1)) u c' z ∧
        ReflTransGen (o.plan.IsParent p.target (after.map (·.1))) (.target t) (.target z) ∧
        ReflTransGen (o.plan.IsParent p.target (after.map (·.1))) (.target u) q) := by
  have hcarries := planInOrder_carries hp ho hplan hcounted
  obtain ⟨pending, s, hs, hsetback⟩ := applyPlan_stopped hcarries happly fun _ _ h => by cases h
  cases hsetback with
  | schema schema => exact schema.elim
  | @circle data links _ c q _ asks link names below =>
    have hstage := hs.stage hcarries
    obtain ⟨before, i, _, after, hrelabels, rfl, operation, -, rfl | rfl⟩ := asks.relabel
    · cases link
    have hself : s.Names p.target (.target t) t := ⟨hcarries.rests.operations operation, rfl⟩
    obtain ⟨q', hq', hdescent⟩ := hstage.descent hself below
    obtain rfl := hstage.unique names hq'
    have hchain := Plan.IsParent.chain_tail hdescent
    refine ⟨before, i, links, after, c, q, hrelabels, link, hchain, fun hnests => ?_⟩
    rcases Plan.IsParent.chain_final hchain with hfinal | hway
    · exact absurd (TransGen.tail' hfinal ⟨c, asks.final link⟩) (hnests _)
    · exact hway

/-- The kinds of `invertedPass`. -/
def invertedSchema : Schema := ⟨#[⟨"R", [], []⟩, ⟨"K", [], [⟨0, 1, .many, .optional⟩, ⟨1, 1, .many, .optional⟩]⟩]⟩

/-- Two entities of one kind, one under the other, that are to change places. -/
def invertedPass : Pass where
  target := .ofNodes invertedSchema
    [(⟨0, 0⟩, .new 0 "s", []), (⟨1, 0⟩, (Entity.new 1 "s").set "x" (.int 1), [(⟨0, 1, .many, .optional⟩, ⟨0, 0⟩)]),
      (⟨1, 1⟩, (Entity.new 1 "s").set "x" (.int 2),
        [(⟨0, 1, .many, .optional⟩, ⟨0, 0⟩), (⟨1, 1, .many, .optional⟩, ⟨1, 0⟩)])]
    [(0, 1), (1, 2)]
  incoming := .ofNodes invertedSchema
    [(⟨0, 0⟩, .new 0 "s", []), (⟨1, 0⟩, (Entity.new 1 "s").set "x" (.int 2), [(⟨0, 1, .many, .optional⟩, ⟨0, 0⟩)]),
      (⟨1, 1⟩, (Entity.new 1 "s").set "x" (.int 1),
        [(⟨0, 1, .many, .optional⟩, ⟨0, 0⟩), (⟨1, 1, .many, .optional⟩, ⟨1, 0⟩)])]
    [(0, 1), (1, 2)]
  accepts _ := true

theorem invertedPass_consistent : invertedPass.Consistent := ⟨by decide +kernel, by decide +kernel, rfl⟩

/-- How deep the entities are when they have changed places. -/
def invertedDepth : PlannedParent → Nat
  | .target ⟨0, _⟩ => 0
  | .target ⟨_, 1⟩ => 1
  | _ => 2

/-- The upper entity is to be put under the lower one, which is still below it. -/
theorem invertedPass_runs : ∃ r g, invertedPass.planInOrder invertedPass.fuel
      (invertedPass.target.visitOrder invertedPass.accepts .default)
      (invertedPass.incoming.visitOrder invertedPass.accepts .default) = .ok r ∧
    ((r.2.plan.finalLinks invertedPass.target).all fun l => invertedDepth l.2.2 < invertedDepth l.1) = true ∧
    Graph.applyPlan invertedPass.incoming r.2.plan invertedPass.target =
      .error (.store (.parentCycle ⟨1, 1⟩ ⟨1, 0⟩)) g := by
  obtain ⟨r, e, g, hplan, happly, hcheck, he⟩ := exists_of_stopsWith (p := invertedPass)
    (fun plan => (plan.finalLinks invertedPass.target).all fun l => invertedDepth l.2.2 < invertedDepth l.1)
    (fun e => e = .store (.parentCycle ⟨1, 1⟩ ⟨1, 0⟩)) (by decide +kernel)
  rw [decide_eq_true_eq] at he
  subst he
  exact ⟨r, g, hplan, hcheck, happly⟩

/-- **A pass can meet a circle although there is none with all relabels made.** -/
theorem invertedPass_circles : invertedPass.Consistent ∧ ∃ r g, invertedPass.planInOrder invertedPass.fuel
      (invertedPass.target.visitOrder invertedPass.accepts .default)
      (invertedPass.incoming.visitOrder invertedPass.accepts .default) = .ok r ∧
    r.2.plan.Nests invertedPass.target [] ∧
    Graph.applyPlan invertedPass.incoming r.2.plan invertedPass.target =
      .error (.store (.parentCycle ⟨1, 1⟩ ⟨1, 0⟩)) g := by
  obtain ⟨r, g, hplan, hdepth, hfails⟩ := invertedPass_runs
  have hfits := planInOrder_fits invertedPass_consistent (visitOrder_orders invertedPass .default) hplan
  exact ⟨invertedPass_consistent, r, g, hplan, Plan.nests_of_rank hfits invertedDepth hdepth, hfails⟩

theorem applyPlan_circles_invertedPass : ∃ r before i links after c q, invertedPass.planInOrder invertedPass.fuel
      (invertedPass.target.visitOrder invertedPass.accepts .default)
      (invertedPass.incoming.visitOrder invertedPass.accepts .default) = .ok r ∧
    r.2.plan.relabels = before ++ (⟨1, 0⟩, i, some links) :: after ∧ (c, q) ∈ links ∧
    ∃ u c' z, r.2.plan.InTheWay invertedPass (after.map (·.1)) u c' z := by
  obtain ⟨r, g, hplan, hdepth, hfails⟩ := invertedPass_runs
  have hcounted : invertedPass.target.Counted := by decide +kernel
  have hfits := planInOrder_fits invertedPass_consistent (visitOrder_orders invertedPass .default) hplan
  obtain ⟨before, i, links, after, c, q, hrelabels, hlink, -, hway⟩ := applyPlan_circles invertedPass_consistent
    (visitOrder_orders invertedPass .default) hplan hcounted hfails
  obtain ⟨u, c', z, hway, -⟩ := hway (Plan.nests_of_rank hfits invertedDepth hdepth)
  exact ⟨r, before, i, links, after, c, q, hplan, hrelabels, hlink, u, c', z, hway⟩

end Reconciliation
