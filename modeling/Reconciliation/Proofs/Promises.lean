import Reconciliation.Proofs.Halting
import Reconciliation.Proofs.Whereabouts
/-!
# Promised copies

Planned links can name the copy of an entity that is not decided about yet (`Plan.Promised`).  The entity is accepted, and
an entity above it is copied, so it may be expected to be copied along with that.  But on the way down planning also looks
for places, and such a search can find that the entity belongs to a target entity after all.  Nobody looks again at the
links that were planned before, so the promise is broken: its data goes to the target entity, and there is no copy
(`waylaidPass_breaks`).

Either the promised copy is planned, or the promise is broken in that way.  And copies never wait for each other in a
circle, so a pass that fails for want of a copy does so for a broken promise, and one that succeeds has broken none
(`planInOrder_promises`).
-/
namespace Reconciliation

open Relation Progress Pass

variable {p : Pass} {plan : Plan} {sp : Progress} {fuel : Nat} {targetOrder incomingOrder : List EntityId}
  {i x t : EntityId} {c : Connection} {links : PlannedLinks}

/-! ## Promises of planning -/

namespace Progress

theorem Promised.accepted (h : sp.Promised p i) (hs : sp.Sound p) : p.IncomingIs true i := by
  cases h with
  | added added => exact hs.added added
  | under accepted => exact accepted

/-- **What becomes of a promise** when everything is decided: the entity is copied, or it gives its data to a target
entity.  It is not kept, since it is accepted and no root, and not lost, since by the promise above it not all its parents
are. -/
theorem Promised.fate (h : sp.Promised p i) (he : sp.Explained p)
    (hdone : ∀ i, p.IncomingIs true i → sp.incomingFates.contains i = true) :
    sp.incomingFates.get? i = some .added ∨ ∃ t, sp.incomingFates.get? i = some (.relabels t) := by
  induction h with
  | added added => exact .inl added
  | @under i q c accepted link _ ih =>
    obtain ⟨f, hf⟩ := SortedMap.contains_iff.1 (hdone i accepted)
    cases he.incoming hf with
    | added => exact .inl hf
    | relabels => exact .inr ⟨_, hf⟩
    | bystander rejected => cases accepted.unique rejected
    | answered root => exact absurd link root.not_hasLink
    | rejected rejected => cases accepted.unique rejected
    | displaced root => exact absurd link root.not_hasLink
    | stranded _ above =>
      rcases ih with h | ⟨t, h⟩
      · cases h.symm.trans (above link)
      · cases h.symm.trans (above link)

theorem Places.promises (h : sp.Places p i links) : sp.Promises p i links := by
  intro c x hmem
  obtain ⟨q, f, hlink, hf, hplace⟩ := h.mem_iff.1 hmem
  cases f with
  | added =>
    obtain rfl := PlannedParent.added.inj (Option.some.inj hplace)
    exact ⟨hlink, .added hf⟩
  | kept | relabels | lost => cases hplace

end Progress

/-! ## Promises of a plan -/

namespace Plan

/-- The plan copies an incoming entity. -/
def Adds (plan : Plan) (i : EntityId) : Prop := i ∈ plan.additions.map Addition.incoming

/-- **A copy is promised**: the links planned for an incoming entity name it. -/
inductive Promised (plan : Plan) : EntityId → Connection → EntityId → Prop
  | copy {a : Addition} {c : Connection} {x : EntityId} (addition : a ∈ plan.additions)
    (link : (c, .added x) ∈ a.links.getD []) : Promised plan a.incoming c x
  | move {t i : EntityId} {links : PlannedLinks} {c : Connection} {x : EntityId}
    (operation : plan.operations.get? t = some (.relabel i (some links))) (link : (c, .added x) ∈ links) :
    Promised plan i c x

/-- The copy of one entity waits for that of another. -/
def Awaits (plan : Plan) (i x : EntityId) : Prop := ∃ a ∈ plan.additions, a.incoming = i ∧ ∃ c, (c, .added x) ∈ a.links.getD []

/-- **The promise of a copy is broken**: the entity is not copied, and gives its data to a target entity. -/
def Breaks (plan : Plan) (x : EntityId) : Prop :=
  ¬plan.Adds x ∧ ∃ t links, plan.operations.get? t = some (.relabel x links)

theorem Awaits.promised (h : plan.Awaits i x) : ∃ c, plan.Promised i c x := by
  obtain ⟨a, ha, rfl, c, link⟩ := h
  exact ⟨c, .copy ha link⟩

/-- **Copies are promised of an entity's own parents**, and each promise is kept or broken. -/
structure Pledges (p : Pass) (plan : Plan) : Prop where
  hasLink : ∀ {i c x}, plan.Promised i c x → p.incoming.HasLink i c x
  accepted : ∀ {i c x}, plan.Promised i c x → p.IncomingIs true x
  kept_or : ∀ {i c x}, plan.Promised i c x → plan.Adds x ∨ plan.Breaks x

theorem Pledges.acyclic (h : plan.Pledges p) (hp : p.incoming.Consistent) : ¬TransGen plan.Awaits i i := by
  intro hcircle
  refine hp.acyclic i (transGen_swap.1 (hcircle.lift id fun j x hawaits => ?_))
  obtain ⟨c, hpromised⟩ := hawaits.promised
  exact (h.hasLink hpromised).isParent

end Plan

theorem planInOrder_pledges {o : Outcome} (hp : p.Consistent) (ho : p.Orders targetOrder incomingOrder)
    (hplan : p.planInOrder fuel targetOrder incomingOrder = .ok (sp, o)) : o.plan.Pledges p := by
  obtain ⟨hsteps, -, hdone, hadd, hop⟩ := planInOrder_ok hp ho hplan
  have hs := hsteps.sound (sound_start p)
  have he := planInOrder_explained hp ho hplan
  have hpromised : ∀ {i c x}, o.plan.Promised i c x → p.incoming.HasLink i c x ∧ sp.Promised p x := by
    intro i c x h
    cases h with
    | @copy a c x addition link =>
      have hreason := he.added (hadd ▸ addition)
      generalize a.links = given at hreason link
      cases hreason with
      | root => cases link
      | placed _ _ places => exact places.promises c x link
      | along _ _ _ _ promises => exact promises c x link
    | move operation link =>
      cases he.target (hs.relabelled_of_operation (hop ▸ operation)) with
      | covered _ _ _ promises => exact promises _ _ link
      | placed _ _ _ places => exact places.promises _ _ link
  refine ⟨fun h => (hpromised h).1, fun h => (hpromised h).2.accepted hs, fun {i c x} h => ?_⟩
  have hadds : o.plan.Adds x ↔ sp.incomingFates.get? x = some .added := by rw [Plan.Adds, hadd, hs.addition]
  rcases (hpromised h).2.fate he hdone with hx | ⟨t, hx⟩
  · exact .inl (hadds.2 hx)
  · obtain ⟨-, links, ht⟩ := hs.relabels hx
    refine .inr ⟨fun hcopied => ?_, t, links, by rw [hop, hs.operation, ht]; rfl⟩
    cases hx.symm.trans (hadds.1 hcopied)

/-! ## Copies that are waited for -/

variable {s : Applying}

/-- Links that cannot be made yet name a copy that is not made yet. -/
theorem Applying.linksOf?_eq_none : ∀ {links : PlannedLinks}, s.linksOf? links = none →
    ∃ c x, (c, .added x) ∈ links ∧ s.copies.get? x = none
  | [], h => by cases h
  | (c, .target t) :: rest, h => by
    obtain ⟨c', x, hmem, hx⟩ := linksOf?_eq_none (Option.map_eq_none_iff.1 h)
    exact ⟨c', x, List.mem_cons_of_mem _ hmem, hx⟩
  | (c, .added x) :: rest, h => by
    rw [linksOf?] at h
    split at h
    · next hx => exact ⟨c, x, List.mem_cons_self, hx⟩
    · obtain ⟨c', x', hmem, hx'⟩ := linksOf?_eq_none (Option.map_eq_none_iff.1 h)
      exact ⟨c', x', List.mem_cons_of_mem _ hmem, hx'⟩

/-- **If what is not copied yet waits, it waits for a broken promise.** -/
theorem Plan.Pledges.broken_of_waiting (hpledges : plan.Pledges p) (hp : p.incoming.Consistent) {l : List Addition}
    (hthere : ∀ a ∈ l, a ∈ plan.additions) (hwaiting : ∀ a ∈ l, s.linksOf? (a.links.getD []) = none)
    (hothers : ∀ a ∈ plan.additions, a ∈ l ∨ s.copies.contains a.incoming = true) {a : Addition} (ha : a ∈ l)
    (hcontains : p.incoming.contains a.incoming = true) : ∃ x, TransGen plan.Awaits a.incoming x ∧ plan.Breaks x := by
  -- up through the incoming graph, which has no circles
  generalize hi : a.incoming = i at hcontains
  induction hp.acc_isParent hcontains generalizing a with
  | intro i _ ih =>
    subst hi
    obtain ⟨c, x, hlink, hx⟩ := Applying.linksOf?_eq_none (hwaiting a ha)
    have hawaits : plan.Awaits a.incoming x := ⟨a, hthere a ha, rfl, c, hlink⟩
    have hpromised : plan.Promised a.incoming c x := .copy (hthere a ha) hlink
    rcases hpledges.kept_or hpromised with hadds | hbreaks
    · obtain ⟨b, hb, rfl⟩ := List.mem_map.1 hadds
      have hbl : b ∈ l := (hothers b hb).resolve_right fun hcopied => by
        obtain ⟨y, hy⟩ := SortedMap.contains_iff.1 hcopied
        cases hx.symm.trans hy
      obtain ⟨z, hz, hbreaks⟩ := ih _ (hpledges.hasLink hpromised).isParent hbl rfl
        (hpledges.accepted hpromised).contains
      exact ⟨z, .head hawaits hz, hbreaks⟩
    · exact ⟨x, .single hawaits, hbreaks⟩

/-! ## Carrying out what is promised -/

theorem Plan.Promised.adds (h : plan.Promised i c x) (hplan : p.Carries plan) {applied : Applied} {g : Graph}
    (happly : Graph.applyPlan p.incoming plan p.target = .ok applied g) : plan.Adds x := by
  obtain ⟨s, hrun, -⟩ := Graph.applyPlan_ok_iff.1 happly
  obtain ⟨-, hcopied, hrelabelled⟩ := (Apply.plan_enacts (p := p) hplan.rests.additions).ok hrun
  have hstart : Naming plan p.target (.start p.target) := naming_start hplan.counted
  cases h with
  | copy addition link =>
    obtain ⟨s₁, s₂, hbefore, hact, -⟩ := hcopied _ addition
    cases hact with
    | copy _ _ _ resolved =>
      obtain ⟨y, -, hy⟩ := (realizes_of_linksOf? (hplan.rests.added addition) resolved).2 link
      exact (hbefore.naming hstart).copied (SortedMap.contains_iff.2 ⟨y, hy⟩)
  | move operation link =>
    obtain ⟨s₁, s₂, hbefore, hact, -⟩ := (hrelabelled operation).2 _ rfl
    cases hact with
    | move _ resolved =>
      obtain ⟨y, -, hy⟩ := (realizes_of_linksOf? (hplan.rests.there operation) resolved).2 link
      exact (hbefore.naming hstart).copied (SortedMap.contains_iff.2 ⟨y, hy⟩)

namespace Plan.Pledges

theorem of_parentsNeverAdded (h : plan.Pledges p) (hplan : p.Carries plan) {ids : List EntityId} {g : Graph}
    (happly : Graph.applyPlan p.incoming plan p.target = .error (.parentsNeverAdded ids) g) :
    ids ≠ [] ∧ ∀ i ∈ ids, plan.Adds i ∧ ∃ x, TransGen plan.Awaits i x ∧ plan.Breaks x := by
  obtain ⟨pending, s, -, hsetback⟩ := applyPlan_stopped hplan happly fun _ _ h => by cases h
  cases hsetback with
  | unadded some_addition additions waiting others =>
    refine ⟨fun hnil => some_addition (List.map_eq_nil_iff.1 hnil), fun i hi => ?_⟩
    obtain ⟨a, ha, rfl⟩ := List.mem_map.1 hi
    exact ⟨List.mem_map_of_mem (additions a ha), h.broken_of_waiting hplan.incoming additions waiting others ha
      (hplan.rests.sources (additions a ha))⟩

theorem of_relabelParentNeverAdded (h : plan.Pledges p) (hplan : p.Carries plan) {g : Graph}
    (happly : Graph.applyPlan p.incoming plan p.target = .error (.relabelParentNeverAdded t) g) :
    ∃ i links c x, plan.operations.get? t = some (.relabel i (some links)) ∧ (c, .added x) ∈ links ∧ plan.Breaks x := by
  obtain ⟨pending, s, -, hsetback⟩ := applyPlan_stopped hplan happly fun _ _ h => by cases h
  cases hsetback with
  | @unparented data links t asks copied unresolved =>
    obtain ⟨c, x, hlink, hx⟩ := Applying.linksOf?_eq_none unresolved
    obtain ⟨_, i, _, _, _, _, operation, -, rfl | rfl⟩ := asks.relabel
    · cases hlink
    refine ⟨i, links, c, x, operation, hlink, (h.kept_or (.move operation hlink)).resolve_left fun hadds => ?_⟩
    -- what is copied at all is copied before the relabels
    obtain ⟨a, ha, rfl⟩ := List.mem_map.1 hadds
    obtain ⟨y, hy⟩ := SortedMap.contains_iff.1 (copied a ha)
    cases hx.symm.trans hy

end Plan.Pledges

/-- **The copies that a pass promises.**  They are copies of an entity's own parents, each promise is kept or broken, and
no copy waits for itself.  A pass that succeeds has broken no promise.  One that fails since parents are never added, or
since the parent of a relabel was never added, waits for the copy of a broken promise. -/
theorem planInOrder_promises {o : Outcome} (hp : p.Consistent) (ho : p.Orders targetOrder incomingOrder)
    (hplan : p.planInOrder fuel targetOrder incomingOrder = .ok (sp, o)) (hcounted : p.target.Counted) :
    o.plan.Pledges p ∧ (∀ i, ¬TransGen o.plan.Awaits i i) ∧
      (∀ {applied g}, Graph.applyPlan p.incoming o.plan p.target = .ok applied g →
        ∀ {i c x}, o.plan.Promised i c x → o.plan.Adds x) ∧
      (∀ {ids g}, Graph.applyPlan p.incoming o.plan p.target = .error (.parentsNeverAdded ids) g →
        ids ≠ [] ∧ ∀ i ∈ ids, o.plan.Adds i ∧ ∃ x, TransGen o.plan.Awaits i x ∧ o.plan.Breaks x) ∧
      ∀ {t g}, Graph.applyPlan p.incoming o.plan p.target = .error (.relabelParentNeverAdded t) g →
        ∃ i links c x, o.plan.operations.get? t = some (.relabel i (some links)) ∧ (c, .added x) ∈ links ∧
          o.plan.Breaks x := by
  have hpledges := planInOrder_pledges hp ho hplan
  have hcarries := planInOrder_carries hp ho hplan hcounted
  exact ⟨hpledges, fun i => hpledges.acyclic hp.incoming, fun happly _ _ _ hpromised => hpromised.adds hcarries happly,
    hpledges.of_parentsNeverAdded hcarries, hpledges.of_relabelParentNeverAdded hcarries⟩

/-- The kinds of `waylaidPass`. -/
def waylaidSchema : Schema :=
  ⟨#[⟨"K", [], []⟩, ⟨"T", [], [⟨0, 1, .many, .optional⟩, ⟨2, 1, .many, .optional⟩]⟩, ⟨"Y", [], []⟩,
    ⟨"C", [], [⟨2, 3, .many, .optional⟩, ⟨4, 3, .many, .optional⟩]⟩, ⟨"R", [], [⟨2, 4, .many, .optional⟩]⟩,
    ⟨"G", [], [⟨3, 5, .many, .optional⟩, ⟨6, 5, .many, .optional⟩]⟩, ⟨"W", [], [⟨4, 6, .many, .optional⟩]⟩]⟩

/-- An entity of which a copy is promised to one of its children, while there is a counterpart in the target that is found
only below that child. -/
def waylaidPass : Pass where
  target := .ofNodes waylaidSchema
    [(⟨0, 0⟩, .new 0 "s", []), (⟨1, 0⟩, .new 1 "s", [(⟨0, 1, .many, .optional⟩, ⟨0, 0⟩)]), (⟨4, 0⟩, .new 4 "s", []),
      (⟨6, 0⟩, .new 6 "s", [(⟨4, 6, .many, .optional⟩, ⟨4, 0⟩)])]
    [(0, 1), (1, 1), (4, 1), (6, 1)]
  incoming := .ofNodes waylaidSchema
    [(⟨0, 0⟩, .new 0 "s", []), (⟨2, 0⟩, .new 2 "s", []),
      (⟨1, 0⟩, .new 1 "s", [(⟨0, 1, .many, .optional⟩, ⟨0, 0⟩), (⟨2, 1, .many, .optional⟩, ⟨2, 0⟩)]),
      (⟨3, 0⟩, .new 3 "s", [(⟨2, 3, .many, .optional⟩, ⟨2, 0⟩), (⟨4, 3, .many, .optional⟩, ⟨4, 0⟩)]),
      (⟨4, 0⟩, .new 4 "s", [(⟨2, 4, .many, .optional⟩, ⟨2, 0⟩)]),
      (⟨5, 0⟩, .new 5 "s", [(⟨3, 5, .many, .optional⟩, ⟨3, 0⟩), (⟨6, 5, .many, .optional⟩, ⟨6, 0⟩)]),
      (⟨6, 0⟩, .new 6 "s", [])]
    [(0, 1), (1, 1), (2, 1), (3, 1), (4, 1), (5, 1), (6, 1)]
  accepts _ := true

theorem waylaidPass_consistent : waylaidPass.Consistent := ⟨by decide +kernel, by decide +kernel, rfl⟩

/-- The copy of the child waits for a copy that is never made. -/
theorem waylaidPass_runs : ∃ r g, waylaidPass.planInOrder waylaidPass.fuel
      (waylaidPass.target.visitOrder waylaidPass.accepts .default)
      (waylaidPass.incoming.visitOrder waylaidPass.accepts .default) = .ok r ∧
    (∃ links, (⟨some links, ⟨3, 0⟩⟩ : Addition) ∈ r.2.plan.additions ∧
      (⟨4, 3, .many, .optional⟩, PlannedParent.added ⟨4, 0⟩) ∈ links) ∧
    ⟨4, 0⟩ ∉ r.2.plan.additions.map Addition.incoming ∧
    Graph.applyPlan waylaidPass.incoming r.2.plan waylaidPass.target =
      .error (.parentsNeverAdded [⟨3, 0⟩, ⟨5, 0⟩]) g := by
  obtain ⟨r, e, g, hplan, happly, hcheck, he⟩ := exists_of_stopsWith (p := waylaidPass)
    (fun plan => ⟨some [(⟨2, 3, .many, .optional⟩, .added ⟨2, 0⟩), (⟨4, 3, .many, .optional⟩, .added ⟨4, 0⟩)],
        ⟨3, 0⟩⟩ ∈ plan.additions && ⟨4, 0⟩ ∉ plan.additions.map Addition.incoming)
    (fun e => e = .parentsNeverAdded [⟨3, 0⟩, ⟨5, 0⟩]) (by decide +kernel)
  simp only [Bool.and_eq_true, decide_eq_true_eq] at hcheck he
  obtain ⟨hpromised, hnot⟩ := hcheck
  subst he
  exact ⟨r, g, hplan, ⟨_, hpromised, List.mem_cons_of_mem _ List.mem_cons_self⟩, hnot, happly⟩

/-- **A pass can promise a copy that it never makes**, and fails for want of it. -/
theorem waylaidPass_breaks : waylaidPass.Consistent ∧ ∃ r g, waylaidPass.planInOrder waylaidPass.fuel
      (waylaidPass.target.visitOrder waylaidPass.accepts .default)
      (waylaidPass.incoming.visitOrder waylaidPass.accepts .default) = .ok r ∧
    (∃ i c x, r.2.plan.Promised i c x ∧ ¬r.2.plan.Adds x) ∧
    Graph.applyPlan waylaidPass.incoming r.2.plan waylaidPass.target =
      .error (.parentsNeverAdded [⟨3, 0⟩, ⟨5, 0⟩]) g := by
  obtain ⟨r, g, hplan, ⟨links, hadd, hlink⟩, hnot, hfails⟩ := waylaidPass_runs
  exact ⟨waylaidPass_consistent, r, g, hplan, ⟨_, _, _, .copy hadd hlink, hnot⟩, hfails⟩

theorem planInOrder_promises_waylaidPass : ∃ r, waylaidPass.planInOrder waylaidPass.fuel
      (waylaidPass.target.visitOrder waylaidPass.accepts .default)
      (waylaidPass.incoming.visitOrder waylaidPass.accepts .default) = .ok r ∧
    r.2.plan.Pledges waylaidPass ∧ ∃ x, TransGen r.2.plan.Awaits ⟨5, 0⟩ x ∧ r.2.plan.Breaks x := by
  obtain ⟨r, g, hplan, -, -, hfails⟩ := waylaidPass_runs
  have hcounted : waylaidPass.target.Counted := by decide +kernel
  obtain ⟨hpledges, -, -, hwaits, -⟩ := planInOrder_promises waylaidPass_consistent
    (visitOrder_orders waylaidPass .default) hplan hcounted
  exact ⟨r, hplan, hpledges, ((hwaits hfails).2 ⟨5, 0⟩ (by decide)).2⟩

end Reconciliation
