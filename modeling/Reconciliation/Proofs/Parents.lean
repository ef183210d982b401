import Reconciliation.Proofs.Completed
import Reconciliation.Proofs.Timely
/-!
# Parents after a run

Each visit decides about entities with links in time (`Timely`): what has a fate when the visit begins is linked to, and
what gets its fate later is left out only where the entity is linked on account of another parent.  Seen from the end of a
pass, everything with links was decided about in some visit (`planInOrder_visited`).  So when a pass succeeds, an entity
that stems from an incoming one has the parents that stem from the parents there, unless it is a root that takes over data
alone or such a parent came too late (`plan_hasLink`).  The latter happens: an entity with two parents that are copied goes
along with the first and gets no link to the second (`diamondPass_drops`).
-/
namespace Reconciliation

open Progress Planning Pass

/-- **A state in which a visit begins.** -/
inductive Pass.Visits (p : Pass) (fuel : Nat) (targetOrder incomingOrder : List EntityId) : Progress → Prop
  | target {before after : List EntityId} {t : EntityId} {s : Progress} (order : targetOrder = before ++ t :: after)
    (first : before.forM (p.classifyTarget (p.resolveRoot fuel)) .start = .ok () s) :
    Visits p fuel targetOrder incomingOrder s
  | incoming {before after : List EntityId} {i : EntityId} {s s' : Progress} (order : incomingOrder = before ++ i :: after)
    (targets : targetOrder.forM (p.classifyTarget (p.resolveRoot fuel)) .start = .ok () s)
    (first : before.forM (p.classifyIncoming fuel) s = .ok () s') : Visits p fuel targetOrder incomingOrder s'

variable {p : Pass} {s s' sp : Progress} {fuel : Nat} {targetOrder incomingOrder : List EntityId} {i t : EntityId}
  {links : PlannedLinks}

/-- **Everything with links was decided about in some visit**, and since then its links are timely. -/
structure Progress.Visited (p : Pass) (begins : Progress → Prop) (s : Progress) : Prop where
  relabelled : ∀ {t i links}, s.targetFates.get? t = some (.relabelled i (some links)) →
    ∃ s₀, begins s₀ ∧ s₀.incomingFates.get? i = none ∧ Timely p s₀ s i links
  added : ∀ {a links}, a ∈ s.plan.additions → a.links = some links →
    ∃ s₀, begins s₀ ∧ s₀.incomingFates.get? a.incoming = none ∧ Timely p s₀ s a.incoming links

/-- A visit adds what it decides about. -/
theorem Progress.Visited.visit {begins : Progress → Prop} (h : Visited p begins s) (hs : s.Sound p) (hsteps : Steps p s s')
    (hkeeps : Keeps p s s s') (hbegins : begins s) : Visited p begins s' := by
  have hs' := hsteps.sound hs
  have hin := hkeeps.inTime (inTime_self hs)
  constructor
  · intro t i links ht
    cases hi : s.incomingFates.get? i with
    | none => exact ⟨s, hbegins, hi, hin.relabelled ht hi⟩
    | some f =>
      -- it was relabelled before
      have hf := hkeeps.incoming hi
      rw [(hs'.relabelled ht).2.1] at hf
      obtain rfl := Option.some.inj hf
      obtain ⟨-, links', ht'⟩ := hs.relabels hi
      have heq := (hsteps.targetFate ht').symm.trans ht
      obtain ⟨-, rfl⟩ := TargetFate.relabelled.inj (Option.some.inj heq)
      obtain ⟨s₀, h₀, hnone, htimely⟩ := h.relabelled ht'
      exact ⟨s₀, h₀, hnone, htimely.grow hkeeps.incoming⟩
  · intro a links ha hlinks
    cases hi : s.incomingFates.get? a.incoming with
    | none => exact ⟨s, hbegins, hi, hin.added ha hlinks hi⟩
    | some f =>
      have hf := hkeeps.incoming hi
      rw [(hs'.addition _).1 (List.mem_map_of_mem ha)] at hf
      obtain rfl := Option.some.inj hf
      obtain ⟨a', ha', heq⟩ := List.mem_map.1 ((hs.addition _).2 hi)
      obtain rfl := List.inj_on_of_nodup_map hs'.additions (hsteps.addition_mem ha') ha heq
      obtain ⟨s₀, h₀, hnone, htimely⟩ := h.added ha' hlinks
      exact ⟨s₀, h₀, hnone, htimely.grow hkeeps.incoming⟩

theorem planInOrder_visited {o : Outcome} (hp : p.Consistent) (ho : p.Orders targetOrder incomingOrder)
    (h : p.planInOrder fuel targetOrder incomingOrder = .ok (s, o)) :
    Visited p (p.Visits fuel targetOrder incomingOrder) s := by
  obtain ⟨⟨u, hclassify⟩, -⟩ := planInOrder_run h
  obtain ⟨_, s₁, htarget, hincoming⟩ := bind_ok_iff.1 hclassify
  have hstart : Visited p (p.Visits fuel targetOrder incomingOrder) .start :=
    ⟨fun h => (by cases h), fun h => (by cases h)⟩
  obtain ⟨hs₁, hv₁⟩ := forM_ok_along (I := fun s => s.Sound p ∧ Visited p (p.Visits fuel targetOrder incomingOrder) s)
    (fun {before t after s s'} heq hbefore hrun ⟨hs, hv⟩ => by
      have hsteps := ((visitTarget_ends fuel hp hs ((ho.target t).1 (by simp [heq]))).ok hrun).1
      have hkeeps := ((classifyTarget_minds hp (trusted hp fuel) (mindful hp fuel) hs (inTime_self hs)).ok hrun).1
      exact ⟨hsteps.sound hs, hv.visit hs hsteps hkeeps (.target heq hbefore)⟩) htarget ⟨sound_start p, hstart⟩
  obtain ⟨-, hd₁, he₁⟩ := firstHalf hp ho htarget
  -- placing relies on what the first half has done
  exact (forM_ok_along (I := fun s => s.Sound p ∧ s.TargetDone p ∧ s.Explained p ∧
      Visited p (p.Visits fuel targetOrder incomingOrder) s)
    (fun {before i after s s'} heq hbefore hrun ⟨hs, hd, he, hv⟩ => by
      have hc := ((ho.incoming i).1 (by simp [heq])).contains
      have hsteps := ((classifyIncoming_ends fuel hp hs hd hc).ok hrun).1
      have honward := ((classifyIncoming_proceeds fuel hp he hd).ok hrun).1
      have hkeeps := ((classifyIncoming_minds fuel hp ⟨hs, he, hd, inTime_self hs⟩).ok hrun).1
      exact ⟨hsteps.sound hs, targetDone_after hsteps hd, honward.explained he,
        hv.visit hs hsteps hkeeps (.incoming heq htarget hbefore)⟩) hincoming ⟨hs₁, hd₁, he₁, hv₁⟩).2.2.2

/-! ## The whole pass -/

/-- What is planned for an entity that stems from an incoming one: nothing but data, or links that were made in time. -/
theorem Plan.StemsFrom.planned {o : Outcome} {s : Applying} {x c : EntityId} (hp : p.Consistent)
    (ho : p.Orders targetOrder incomingOrder) (hplan : p.planInOrder fuel targetOrder incomingOrder = .ok (sp, o))
    (hs : Naming o.plan p.target s) (hx : o.plan.StemsFrom s x c) (hnested : ¬p.incoming.IsRoot c) :
    o.plan.operations.get? x = some (.relabel c none) ∨ ∃ name links, s.Names p.target name x ∧
      (∀ n q, o.plan.Link p.target [] name n q ↔ (n, q) ∈ links) ∧
      ∃ s₀, p.Visits fuel targetOrder incomingOrder s₀ ∧ s₀.incomingFates.get? c = none ∧ Timely p s₀ sp c links := by
  have hf := planInOrder_fits hp ho hplan
  obtain ⟨hsteps, -, -, hadd, hop⟩ := planInOrder_ok hp ho hplan
  have hvisited := planInOrder_visited hp ho hplan
  rcases hx with hx | ⟨links, hx⟩
  · obtain ⟨a, ha, rfl⟩ := List.mem_map.1 (hs.copied (SortedMap.contains_iff.2 ⟨x, hx⟩))
    have hiff (n q) : o.plan.Link p.target [] (.added a.incoming) n q ↔ _ := Plan.link_added_iff hf.additions ha
    rw [hadd] at ha
    cases hlinks : a.links with
    | none =>
      have hreason := (planInOrder_explained hp ho hplan).added ha
      rw [hlinks] at hreason
      cases hreason with
      | root root => exact absurd root hnested
    | some links =>
      rw [hlinks] at hiff
      exact .inr ⟨.added a.incoming, links, hx, hiff, hvisited.added ha hlinks⟩
  · cases links with
    | none => exact .inl hx
    | some links =>
      refine .inr ⟨.target x, links, ⟨hf.operations hx, rfl⟩, fun n q => ?_, ?_⟩
      · exact Plan.link_target_iff List.not_mem_nil (Plan.linksFor?_of_relabel hx)
      · rw [hop] at hx
        exact hvisited.relabelled ((hsteps.sound (sound_start p)).relabelled_of_operation hx)

theorem Plan.StemsFrom.place {o : Outcome} {s : Applying} {y q : EntityId} (hp : p.Consistent)
    (ho : p.Orders targetOrder incomingOrder) (hplan : p.planInOrder fuel targetOrder incomingOrder = .ok (sp, o))
    (hs : Naming o.plan p.target s) (hy : o.plan.StemsFrom s y q) :
    ∃ place, sp.PlaceIs q (some place) ∧ s.Names p.target place y := by
  obtain ⟨hsteps, -, -, hadd, hop⟩ := planInOrder_ok hp ho hplan
  have hsound := hsteps.sound (sound_start p)
  rcases hy with hy | ⟨links, hy⟩
  · have hmem := hs.copied (SortedMap.contains_iff.2 ⟨y, hy⟩)
    rw [hadd] at hmem
    exact ⟨.added q, ⟨.added, (hsound.addition q).1 hmem, rfl⟩, hy⟩
  · refine ⟨.target y, ?_, (planInOrder_fits hp ho hplan).operations hy, rfl⟩
    rw [hop] at hy
    exact ⟨_, hsound.relabels_of_operation hy, rfl⟩

/-- **When a pass succeeds, links are taken over, unless a parent comes too late.**  Let `x` stem from `c` and `y` from a
parent of `c`, and let both be there in the end.  Then `y` is the parent of `x` through the same connection, unless `x` is
a root that takes over data alone, or the parent had no fate when the visit that decided about `c` began, and `x` got its
links on account of another link of `c`. -/
theorem plan_hasLink {o : Outcome} {applied : Applied} {s : Applying} {c q x y : EntityId} {n : Connection}
    (hp : p.Consistent) (ho : p.Orders targetOrder incomingOrder)
    (hplan : p.planInOrder fuel targetOrder incomingOrder = .ok (sp, o)) (hcounted : p.target.Counted)
    (hrun : Apply.plan p.incoming o.plan (.start p.target) = .ok applied s) (hlink : p.incoming.HasLink c n q)
    (hx : o.plan.StemsFrom s x c) (hy : o.plan.StemsFrom s y q) (hxthere : s.graph.contains x = true)
    (hythere : s.graph.contains y = true) :
    s.graph.HasLink x n y ∨ o.plan.operations.get? x = some (.relabel c none) ∨
      ∃ s₀, p.Visits fuel targetOrder incomingOrder s₀ ∧ s₀.incomingFates.get? c = none ∧
        s₀.incomingFates.get? q = none ∧ ∃ n' j place, (n', j) ≠ (n, q) ∧ p.incoming.HasLink c n' j ∧
          sp.PlaceIs j (some place) ∧
          ∀ z, s.Names p.target place z → s.graph.contains z = true → s.graph.HasLink x n' z := by
  have hf := planInOrder_fits hp ho hplan
  obtain ⟨hacts, hcopied, hrelabelled⟩ := (Apply.plan_enacts (p := p) hf.additions).ok hrun
  have hs := hacts.naming (naming_start hcounted)
  have hnested : ¬p.incoming.IsRoot c := fun hroot => hroot.not_hasLink hlink
  rcases Plan.StemsFrom.planned hp ho hplan hs hx hnested with hdata | ⟨name, links, hname, hplanned, s₀, hvisit, hc, htimely⟩
  · exact .inr (.inl hdata)
  have hlinks : ∀ {n' place z}, (n', place) ∈ links → s.Names p.target place z → s.graph.contains z = true →
      s.graph.HasLink x n' z := fun hmem hz hthere =>
    (hasLink_iff_of_run hf hp.target hcounted hacts hcopied hrelabelled hname hxthere).2
      ⟨_, (hplanned _ _).2 hmem, hz, hthere⟩
  rcases htimely n q hlink with ⟨f, hq, hto⟩ | ⟨hq, n', j, place, hne, hother, hmem, f, hj, hto⟩
  · obtain ⟨place, ⟨f', hq', hplace⟩, hnamed⟩ := Plan.StemsFrom.place hp ho hplan hs hy
    obtain rfl := Option.some.inj (hq.symm.trans hq')
    exact .inl (hlinks ((hto place).2 hplace.symm) hnamed hythere)
  · exact .inr (.inr ⟨s₀, hvisit, hc, hq, n', j, place, hne, hother, ⟨f, hj, ((hto place).1 hmem).symm⟩, fun _ =>
      hlinks hmem⟩)

/-- A root, two children of it, and an entity under these two; the target has the root alone. -/
def diamondOf (data : Kind → Entity) : Pass where
  target := .ofNodes ⟨#[⟨"X", [], []⟩, ⟨"B", [], [⟨0, 1, .many, .optional⟩]⟩, ⟨"C", [], [⟨0, 2, .many, .optional⟩]⟩,
      ⟨"D", [], [⟨1, 3, .many, .optional⟩, ⟨2, 3, .many, .optional⟩]⟩]⟩ [(⟨0, 0⟩, data 0, [])] [(0, 1)]
  incoming := .ofNodes ⟨#[⟨"X", [], []⟩, ⟨"B", [], [⟨0, 1, .many, .optional⟩]⟩, ⟨"C", [], [⟨0, 2, .many, .optional⟩]⟩,
      ⟨"D", [], [⟨1, 3, .many, .optional⟩, ⟨2, 3, .many, .optional⟩]⟩]⟩
    [(⟨0, 0⟩, data 0, []), (⟨1, 0⟩, data 1, [(⟨0, 1, .many, .optional⟩, ⟨0, 0⟩)]),
      (⟨2, 0⟩, data 2, [(⟨0, 2, .many, .optional⟩, ⟨0, 0⟩)]),
      (⟨3, 0⟩, data 3, [(⟨1, 3, .many, .optional⟩, ⟨1, 0⟩), (⟨2, 3, .many, .optional⟩, ⟨2, 0⟩)])]
    [(0, 1), (1, 1), (2, 1), (3, 1)]
  accepts _ := true

/-- An entity under two parents, which are both copied: it goes along with the first. -/
def diamondPass : Pass := diamondOf fun kind => .new kind "s"

theorem diamondPass_consistent : diamondPass.Consistent := ⟨by decide +kernel, by decide +kernel, rfl⟩

/-- All entities of the diamond are copied, and only one link of the last. -/
theorem diamondPass_runs : ∃ r applied s, diamondPass.planInOrder diamondPass.fuel
      (diamondPass.target.visitOrder diamondPass.accepts .default)
      (diamondPass.incoming.visitOrder diamondPass.accepts .default) = .ok r ∧
    Apply.plan diamondPass.incoming r.2.plan (.start diamondPass.target) = .ok applied s ∧
    s.copies = .ofList [(⟨1, 0⟩, ⟨1, 0⟩), (⟨2, 0⟩, ⟨2, 0⟩), (⟨3, 0⟩, ⟨3, 0⟩)] ∧
    s.graph.links? ⟨3, 0⟩ = some [(⟨1, 3, .many, .optional⟩, ⟨1, 0⟩)] ∧
    s.graph.contains ⟨1, 0⟩ = true ∧ s.graph.contains ⟨2, 0⟩ = true ∧ s.graph.contains ⟨3, 0⟩ = true := by
  have hrun : ((diamondPass.planInOrder diamondPass.fuel (diamondPass.target.visitOrder diamondPass.accepts .default)
      (diamondPass.incoming.visitOrder diamondPass.accepts .default)).toOption.any fun r =>
        succeedsWith (Apply.plan diamondPass.incoming r.2.plan (.start diamondPass.target)) fun _ s =>
          decide (s.copies = .ofList [(⟨1, 0⟩, ⟨1, 0⟩), (⟨2, 0⟩, ⟨2, 0⟩), (⟨3, 0⟩, ⟨3, 0⟩)] ∧
            s.graph.links? ⟨3, 0⟩ = some [(⟨1, 3, .many, .optional⟩, ⟨1, 0⟩)] ∧
            s.graph.contains ⟨1, 0⟩ = true ∧ s.graph.contains ⟨2, 0⟩ = true ∧
            s.graph.contains ⟨3, 0⟩ = true)) = true := by
    decide +kernel
  obtain ⟨r, hplan, hr⟩ := exists_of_any hrun
  obtain ⟨applied, s, happly, hs⟩ := exists_of_succeedsWith hr
  exact ⟨r, applied, s, hplan, happly, of_decide_eq_true hs⟩

/-- **Taking links over can fail**: the second parent is there, and it is not a parent. -/
theorem diamondPass_drops : diamondPass.Consistent ∧ ∃ r applied s, diamondPass.planInOrder diamondPass.fuel
      (diamondPass.target.visitOrder diamondPass.accepts .default)
      (diamondPass.incoming.visitOrder diamondPass.accepts .default) = .ok r ∧
    Apply.plan diamondPass.incoming r.2.plan (.start diamondPass.target) = .ok applied s ∧
    diamondPass.incoming.HasLink ⟨3, 0⟩ ⟨2, 3, .many, .optional⟩ ⟨2, 0⟩ ∧ r.2.plan.StemsFrom s ⟨3, 0⟩ ⟨3, 0⟩ ∧
    r.2.plan.StemsFrom s ⟨2, 0⟩ ⟨2, 0⟩ ∧ s.graph.contains ⟨3, 0⟩ = true ∧ s.graph.contains ⟨2, 0⟩ = true ∧
    ¬s.graph.HasLink ⟨3, 0⟩ ⟨2, 3, .many, .optional⟩ ⟨2, 0⟩ := by
  obtain ⟨r, applied, s, hplan, hrun, hcopies, hlinks, -, hc, hd⟩ := diamondPass_runs
  refine ⟨diamondPass_consistent, r, applied, s, hplan, hrun, Graph.hasLink_iff_mem.2 (by decide +kernel), .inl ?_, .inl ?_,
    hd, hc, ?_⟩
  · rw [hcopies]; rfl
  · rw [hcopies]; rfl
  · rw [Graph.hasLink_iff_mem, hlinks]
    decide

/-- The parent with which the entity goes along is its parent in the end. -/
theorem plan_hasLink_diamondPass : ∃ r applied s, diamondPass.planInOrder diamondPass.fuel
      (diamondPass.target.visitOrder diamondPass.accepts .default)
      (diamondPass.incoming.visitOrder diamondPass.accepts .default) = .ok r ∧
    Apply.plan diamondPass.incoming r.2.plan (.start diamondPass.target) = .ok applied s ∧
    (s.graph.HasLink ⟨3, 0⟩ ⟨1, 3, .many, .optional⟩ ⟨1, 0⟩ ∨
      r.2.plan.operations.get? ⟨3, 0⟩ = some (.relabel ⟨3, 0⟩ none) ∨ ∃ s₀,
        diamondPass.Visits diamondPass.fuel (diamondPass.target.visitOrder diamondPass.accepts .default)
          (diamondPass.incoming.visitOrder diamondPass.accepts .default) s₀ ∧
        s₀.incomingFates.get? ⟨3, 0⟩ = none ∧ s₀.incomingFates.get? ⟨1, 0⟩ = none ∧
        ∃ n' j place, (n', j) ≠ ((⟨1, 3, .many, .optional⟩, ⟨1, 0⟩) : Link) ∧ diamondPass.incoming.HasLink ⟨3, 0⟩ n' j ∧
          r.1.PlaceIs j (some place) ∧ ∀ z, s.Names diamondPass.target place z → s.graph.contains z = true →
            s.graph.HasLink ⟨3, 0⟩ n' z) ∧ s.graph.HasLink ⟨3, 0⟩ ⟨1, 3, .many, .optional⟩ ⟨1, 0⟩ := by
  obtain ⟨r, applied, s, hplan, hrun, hcopies, hlinks, hb, -, hd⟩ := diamondPass_runs
  have hcounted : diamondPass.target.Counted := by decide +kernel
  have hcopied : ∀ {i}, s.copies.get? i = some i → r.2.plan.StemsFrom s i i := .inl
  refine ⟨r, applied, s, hplan, hrun, plan_hasLink diamondPass_consistent (visitOrder_orders diamondPass .default) hplan
    hcounted hrun (Graph.hasLink_iff_mem.2 (by decide +kernel)) (hcopied (by rw [hcopies]; rfl))
    (hcopied (by rw [hcopies]; rfl)) hd hb, ?_⟩
  rw [Graph.hasLink_iff_mem, hlinks]
  decide

end Reconciliation
