import Reconciliation.Proofs.Matrix
import Reconciliation.Proofs.Placing
/-!
# What becomes of accepted incoming entities

Every accepted incoming entity is accounted for (`planInOrder_accounts`): it is copied by one addition, it gives its data
to one target entity, it is counted as lost, or it is a root that the target has an entity for which was decided about on
account of another one.

One whose ancestors are all accepted too can still be lost, and that is so exactly when it is cut off
(`planInOrder_loses_iff`): no target entity stands for it, and above it there are only roots for which the target has
an entity that the plan removes.
-/
namespace Reconciliation

open Relation

namespace Graph

variable {g : Graph} {id r : EntityId}

theorem IsRoot.eq_of_above (h : g.IsRoot r) (habove : ReflTransGen g.IsParent id r) : id = r := by
  cases habove with
  | refl => rfl
  | tail _ hstep =>
    obtain ⟨n, c, hn, hmem⟩ := hstep
    exact absurd ⟨n, hn, hmem⟩ (h.not_hasLink (c := c))

theorem Consistent.acc_isParent (hg : g.Consistent) (h : g.contains id = true) : Acc g.IsParent id := by
  obtain ⟨t, ht⟩ := Track.ofGraph_total hg h
  obtain ⟨hof, rfl⟩ := Track.ofGraph_of ht
  exact hof.acc

end Graph

/-- An incoming entity is accepted, and so is everything above it. -/
def Pass.AcceptsUpTo (p : Pass) (i : EntityId) : Prop :=
  ∀ j, ReflTransGen p.incoming.IsParent j i → p.IncomingIs true j

theorem Pass.AcceptsUpTo.parent {p : Pass} {i q : EntityId} {c : Connection} (h : p.AcceptsUpTo i)
    (hlink : p.incoming.HasLink i c q) : p.AcceptsUpTo q := fun j hj => h j (hj.tail hlink.isParent)

namespace Progress

/-- A target entity stands for an incoming one: it takes over its data or is paired with it. -/
def StandsFor (s : Progress) (t i : EntityId) : Prop :=
  ∃ f, s.incomingFates.get? i = some f ∧ f.asParent i = some (.target t)

/-- **Cut off**: no target entity stands for it, and it is a root for which the target has an entity that goes, or
everything above it is cut off. -/
inductive CutOff (p : Pass) (s : Progress) : EntityId → Prop
  | root {r t : EntityId} (alone : ∀ u, ¬s.StandsFor u r) (root : p.incoming.IsRoot r) (answers : p.Answers t r)
    (removed : s.targetFates.get? t = some .removed) : CutOff p s r
  | nested {i : EntityId} (alone : ∀ u, ¬s.StandsFor u i) (nested : ¬p.incoming.IsRoot i)
    (above : ∀ {c q}, p.incoming.HasLink i c q → CutOff p s q) : CutOff p s i

/-- **What a pass does with an incoming entity**, as its plan and its fates show it: one addition, an operation, a loss,
or a pair with a target entity that stays and was decided about on account of another one or of none. -/
def Shows (p : Pass) (s : Progress) (plan : Plan) (i : EntityId) : IncomingFate → Prop
  | .added => ∃! a, a ∈ plan.additions ∧ a.incoming = i
  | .relabels t => ∃ links, plan.operations.get? t = some (.relabel i links)
  | .lost => s.incomingFates.get? i = some .lost
  | .kept t => s.incomingFates.get? i = some (.kept t) ∧ p.incoming.IsRoot i ∧ p.Answers t i ∧
    ∃ f, s.targetFates.get? t = some f ∧ f ≠ .removed ∧ f.counterpart ≠ some i

variable {p : Pass} {s : Progress} {i r t : EntityId}

theorem not_standsFor_of_lost (h : s.incomingFates.get? i = some .lost) : ¬s.StandsFor t i := by
  rintro ⟨f, hf, hplace⟩
  obtain rfl := Option.some.inj (h.symm.trans hf)
  cases hplace

theorem reason_of_added (hs : s.Sound p) (he : s.Explained p) (h : s.incomingFates.get? i = some .added) :
    ∃ links, AdditionReason p s i links := by
  obtain ⟨a, ha, rfl⟩ := List.mem_map.1 ((hs.addition i).2 h)
  exact ⟨a.links, he.added ha⟩

theorem cutOff_of_lost (hp : p.Consistent) (he : s.Explained p) (habove : p.AcceptsUpTo i)
    (hlost : s.incomingFates.get? i = some .lost) : s.CutOff p i := by
  have hacc := hp.incoming.acc_isParent (habove i .refl).contains
  induction hacc with
  | intro i _ ih =>
    have halone : ∀ u, ¬s.StandsFor u i := fun u => not_standsFor_of_lost hlost
    cases he.incoming hlost with
    | rejected rejected => cases (habove i .refl).unique rejected
    | displaced root answers removed => exact .root halone root answers removed
    | stranded nested above =>
      exact .nested halone nested fun hlink => ih _ hlink.isParent (habove.parent hlink) (above hlink)

/-- What is cut off, with everything above it accepted, is lost: each other fate has a reason that it does not have. -/
theorem lost_of_cutOff (hs : s.Sound p) (he : s.Explained p)
    (hdone : ∀ i, p.IncomingIs true i → s.incomingFates.contains i = true) (habove : p.AcceptsUpTo i) (h : s.CutOff p i) :
    s.incomingFates.get? i = some .lost := by
  have hfate : ∀ {i}, p.IncomingIs true i → (∀ u, ¬s.StandsFor u i) → s.incomingFates.get? i ≠ some .added →
      s.incomingFates.get? i = some .lost := by
    intro i hacc halone hadded
    obtain ⟨f, hf⟩ := SortedMap.contains_iff.1 (hdone i hacc)
    cases f with
    | kept t => exact absurd ⟨_, hf, rfl⟩ (halone t)
    | relabels t => exact absurd ⟨_, hf, rfl⟩ (halone t)
    | added => exact absurd hf hadded
    | lost => exact hf
  induction h with
  | root alone root answers removed =>
    refine hfate (habove _ .refl) alone fun hadded => ?_
    obtain ⟨links, hreason⟩ := reason_of_added hs he hadded
    cases hreason with
    | root _ unanswered => exact unanswered _ answers
    | placed single some_link places =>
      obtain ⟨⟨c, x⟩, hmem⟩ := List.exists_mem_of_ne_nil _ some_link
      obtain ⟨q, f, hlink, -⟩ := places.mem_iff.1 hmem
      exact root.not_hasLink hlink
    | along _ link => exact root.not_hasLink link
  | @nested i alone nested above ih =>
    have hlost : ∀ {c q}, p.incoming.HasLink i c q → s.incomingFates.get? q = some .lost := fun hlink =>
      ih hlink (habove.parent hlink)
    refine hfate (habove _ .refl) alone fun hadded => ?_
    obtain ⟨links, hreason⟩ := reason_of_added hs he hadded
    cases hreason with
    | root root => exact nested root
    | placed single some_link places =>
      obtain ⟨⟨c, x⟩, hmem⟩ := List.exists_mem_of_ne_nil _ some_link
      obtain ⟨q, f, hlink, hf, hx⟩ := places.mem_iff.1 hmem
      obtain rfl := Option.some.inj (hf.symm.trans (hlost hlink))
      cases hx
    | along _ link added => cases added.symm.trans (hlost link)

/-- Above what is cut off there are only roots for which the target has an entity that goes. -/
theorem CutOff.displaced (h : s.CutOff p i) (hroot : p.incoming.IsRoot r) (hr : ReflTransGen p.incoming.IsParent r i) :
    ∃ t, p.Answers t r ∧ s.targetFates.get? t = some .removed := by
  induction h with
  | root _ root answers removed =>
    obtain rfl := root.eq_of_above hr
    exact ⟨_, answers, removed⟩
  | nested _ nested above ih =>
    cases hr with
    | refl => exact absurd hroot nested
    | tail hr hstep =>
      obtain ⟨n, c, hn, hmem⟩ := hstep
      exact ih ⟨n, hn, hmem⟩ hr

/-! ## Accounting -/

theorem Shows.fate (hs : s.Sound p) {f : IncomingFate} (h : s.Shows p s.plan i f) : s.incomingFates.get? i = some f := by
  cases f with
  | kept t => exact h.1
  | relabels t =>
    obtain ⟨links, hop⟩ := h
    exact hs.relabels_of_operation hop
  | added =>
    obtain ⟨a, ⟨ha, rfl⟩, -⟩ := h
    exact (hs.addition _).1 (List.mem_map_of_mem ha)
  | lost => exact h

theorem shows_of_fate (hs : s.Sound p) (he : s.Explained p) (hacc : p.IncomingIs true i) {f : IncomingFate}
    (h : s.incomingFates.get? i = some f) : s.Shows p s.plan i f := by
  cases f with
  | kept t =>
    obtain ⟨-, f, hf, hstays⟩ := hs.keeps h
    -- a target entity that has it as its counterpart would show it as something else
    have hother : f.counterpart ≠ some i := by
      intro heq
      cases f with
      | kept c =>
        obtain rfl : c = some i := heq
        cases hacc.unique (hs.keptPair hf).1
      | relabelled j links =>
        obtain rfl := Option.some.inj heq
        cases h.symm.trans (hs.relabelled hf).2.1
      | removed => cases heq
    cases he.incoming h with
    | bystander rejected => cases hacc.unique rejected
    | answered root answers => exact ⟨h, root, answers, f, hf, hstays, hother⟩
  | relabels t =>
    obtain ⟨-, links, hf⟩ := hs.relabels h
    exact ⟨links, by rw [hs.operation, hf]; rfl⟩
  | added =>
    obtain ⟨a, ha, rfl⟩ := List.mem_map.1 ((hs.addition i).2 h)
    exact ⟨a, ⟨ha, rfl⟩, fun b hb => List.inj_on_of_nodup_map hs.additions hb.1 ha hb.2⟩
  | lost => exact h

theorem traceLost_eq (hs : s.Sound p) :
    s.traceLost = (p.incoming.ids.filter fun i => s.incomingFates.get? i = some .lost).length := by
  have hperm : ((s.incomingFates.toList.filter fun b => b.2 = .lost).map Prod.fst).Perm
      (p.incoming.ids.filter fun i => s.incomingFates.get? i = some .lost) := by
    refine (List.perm_ext_iff_of_nodup ?_ ?_).2 fun i => ?_
    · exact s.incomingFates.keys_nodup.sublist (List.filter_sublist.map _)
    · exact p.incoming.nodes.keys_nodup.filter _
    · simp only [List.mem_map, List.mem_filter, decide_eq_true_eq, Graph.mem_ids_iff, Prod.exists, exists_and_right,
        exists_eq_right, ← SortedMap.get?_eq_some_iff]
      exact ⟨fun hf => ⟨hs.lost hf, hf⟩, fun h => h.2⟩
  rw [← hperm.length_eq, traceLost, SortedMap.values, List.length_map, List.filter_map, List.length_map]
  rfl

end Progress

open Progress Pass

variable {p : Pass} {s : Progress} {fuel : Nat} {targetOrder incomingOrder : List EntityId} {i : EntityId}

/-- **Every accepted incoming entity is accounted for in one way**: by one addition, by the operation on one target
entity, as lost, or as a root that the target has an entity for which stays and was decided about on account of another
one.  The lost ones are counted. -/
theorem planInOrder_accounts {o : Outcome} (hp : p.Consistent) (ho : p.Orders targetOrder incomingOrder)
    (h : p.planInOrder fuel targetOrder incomingOrder = .ok (s, o)) :
    (∀ i, p.IncomingIs true i → ∃! f, s.Shows p o.plan i f) ∧
      o.traceLost = (p.incoming.ids.filter fun i => s.incomingFates.get? i = some .lost).length := by
  obtain ⟨hsteps, -, hdone, hadd, hop⟩ := planInOrder_ok hp ho h
  have hs := hsteps.sound (sound_start p)
  have he := planInOrder_explained hp ho h
  have hplan : ∀ {i f}, s.Shows p o.plan i f ↔ s.Shows p s.plan i f := fun {i f} => by
    cases f <;> simp only [Shows, hadd, hop]
  refine ⟨fun i hacc => ?_, (planInOrder_run h).2.trans (traceLost_eq hs)⟩
  obtain ⟨f, hf⟩ := SortedMap.contains_iff.1 (hdone i hacc)
  refine ⟨f, hplan.2 (shows_of_fate hs he hacc hf), fun g hg => ?_⟩
  exact Option.some.inj (((hplan.1 hg).fate hs).symm.trans hf)

/-- Two incoming roots of equal content, and one such root in the target. -/
def twinRoots : Pass where
  target := .ofNodes ⟨#[⟨"A", [], []⟩]⟩ [(⟨0, 0⟩, .new 0 "s", [])] [(0, 1)]
  incoming := .ofNodes ⟨#[⟨"A", [], []⟩]⟩ [(⟨0, 0⟩, .new 0 "s", []), (⟨0, 1⟩, .new 0 "s", [])] [(0, 2)]
  accepts _ := true

theorem twinRoots_consistent : twinRoots.Consistent := ⟨by decide +kernel, by decide +kernel, rfl⟩

theorem twinRoots_accepted : twinRoots.IncomingIs true ⟨0, 1⟩ := ⟨.new 0 "s", rfl, rfl⟩

/-- **The second of two equal roots leaves no trace**: it is neither copied, nor does it give its data, nor is it lost. -/
theorem twinRoots_keeps : twinRoots.Consistent ∧ twinRoots.IncomingIs true ⟨0, 1⟩ ∧ ∃ r, twinRoots.planInOrder
    twinRoots.fuel (twinRoots.target.visitOrder twinRoots.accepts .default)
    (twinRoots.incoming.visitOrder twinRoots.accepts .default) = .ok r ∧
      (∀ a ∈ r.2.plan.additions, a.incoming ≠ ⟨0, 1⟩) ∧
      (∀ t links, r.2.plan.operations.get? t ≠ some (.relabel ⟨0, 1⟩ links)) ∧
      r.1.incomingFates.get? ⟨0, 1⟩ = some (.kept ⟨0, 0⟩) := by
  have hrun : ((twinRoots.planInOrder twinRoots.fuel (twinRoots.target.visitOrder twinRoots.accepts .default)
      (twinRoots.incoming.visitOrder twinRoots.accepts .default)).toOption.any fun r =>
        r.2.plan.additions = [] && r.2.plan.relabels = [(⟨0, 0⟩, ⟨0, 0⟩, none)] &&
          r.1.incomingFates.get? ⟨0, 1⟩ = some (.kept ⟨0, 0⟩)) = true := by
    decide +kernel
  obtain ⟨r, hplan, hr⟩ := exists_of_any hrun
  simp only [Bool.and_eq_true, decide_eq_true_eq] at hr
  obtain ⟨⟨hadditions, hrelabels⟩, hkept⟩ := hr
  refine ⟨twinRoots_consistent, twinRoots_accepted, r, hplan, fun a ha => ?_, fun t links hop => ?_, hkept⟩
  · rw [hadditions] at ha
    cases ha
  · have hmem := Plan.mem_relabels_iff.2 hop
    rw [hrelabels] at hmem
    cases List.mem_singleton.1 hmem

theorem planInOrder_accounts_twinRoots : ∃ r, twinRoots.planInOrder twinRoots.fuel
    (twinRoots.target.visitOrder twinRoots.accepts .default)
    (twinRoots.incoming.visitOrder twinRoots.accepts .default) = .ok r ∧ twinRoots.IncomingIs true ⟨0, 1⟩ ∧
      (∃! f, r.1.Shows twinRoots r.2.plan ⟨0, 1⟩ f) ∧
      r.2.traceLost = (twinRoots.incoming.ids.filter fun i => r.1.incomingFates.get? i = some .lost).length := by
  have hok : (twinRoots.planInOrder twinRoots.fuel (twinRoots.target.visitOrder twinRoots.accepts .default)
      (twinRoots.incoming.visitOrder twinRoots.accepts .default)).isOk = true := by decide +kernel
  obtain ⟨r, hr⟩ := exists_of_isOk hok
  obtain ⟨hone, hlost⟩ := planInOrder_accounts twinRoots_consistent (visitOrder_orders twinRoots .default) hr
  exact ⟨r, hr, twinRoots_accepted, hone _ twinRoots_accepted, hlost⟩

/-- **An incoming entity with nothing but accepted entities above it is lost exactly when it is cut off.**  For every root
above it the target then has an entity that the plan removes. -/
theorem planInOrder_loses_iff {o : Outcome} (hp : p.Consistent) (ho : p.Orders targetOrder incomingOrder)
    (h : p.planInOrder fuel targetOrder incomingOrder = .ok (s, o))
    (habove : p.AcceptsUpTo i) :
    (s.incomingFates.get? i = some .lost ↔ s.CutOff p i) ∧
      (s.incomingFates.get? i = some .lost → ∀ r, p.incoming.IsRoot r → ReflTransGen p.incoming.IsParent r i →
        ∃ t, p.Answers t r ∧ o.plan.operations.get? t = some .remove) := by
  obtain ⟨hsteps, -, hdone, -, hop⟩ := planInOrder_ok hp ho h
  have hs := hsteps.sound (sound_start p)
  have he := planInOrder_explained hp ho h
  refine ⟨⟨cutOff_of_lost hp he habove, lost_of_cutOff hs he hdone habove⟩, fun hlost r hroot hr => ?_⟩
  obtain ⟨t, hanswers, hremoved⟩ := (cutOff_of_lost hp he habove hlost).displaced hroot hr
  exact ⟨t, hanswers, by rw [hop, hs.operation, hremoved]; rfl⟩

/-- A root of the incoming graph has the natural key of a target entity that has a parent. -/
def displacedRoot : Pass where
  target := { Graph.ofNodes ⟨#[⟨"A", [], []⟩, ⟨"K", ["id"], [⟨0, 1, .many, .optional⟩]⟩]⟩
      [(⟨0, 0⟩, .new 0 "s", []),
        (⟨1, 0⟩, (Entity.new 1 "s").set "id" (.int 1), [(⟨0, 1, .many, .optional⟩, ⟨0, 0⟩)])] [(0, 1), (1, 1)] with
    keys := ⟨.ofList [(⟨1, "1"⟩, ⟨1, 0⟩)], .empty⟩ }
  incoming := { Graph.ofNodes ⟨#[⟨"A", [], []⟩, ⟨"K", ["id"], [⟨0, 1, .many, .optional⟩]⟩]⟩
      [(⟨0, 0⟩, .new 0 "s", []), (⟨1, 0⟩, (Entity.new 1 "s").set "id" (.int 1), [])] [(0, 1), (1, 1)] with
    keys := ⟨.ofList [(⟨1, "1"⟩, ⟨1, 0⟩)], .empty⟩ }
  accepts _ := true

theorem displacedRoot_consistent : displacedRoot.Consistent := ⟨by decide +kernel, by decide +kernel, rfl⟩

theorem displacedRoot_acceptsUpTo : displacedRoot.AcceptsUpTo ⟨1, 0⟩ := by
  have hroot : displacedRoot.incoming.IsRoot ⟨1, 0⟩ := ⟨_, rfl, rfl⟩
  intro j hj
  rw [hroot.eq_of_above hj]
  exact ⟨_, rfl, rfl⟩

/-- The root is lost. -/
theorem displacedRoot_runs : ∃ r, displacedRoot.planInOrder displacedRoot.fuel
      (displacedRoot.target.visitOrder displacedRoot.accepts .default)
      (displacedRoot.incoming.visitOrder displacedRoot.accepts .default) = .ok r ∧
    r.1.incomingFates.get? ⟨1, 0⟩ = some .lost := by
  have hrun : ((displacedRoot.planInOrder displacedRoot.fuel
      (displacedRoot.target.visitOrder displacedRoot.accepts .default)
      (displacedRoot.incoming.visitOrder displacedRoot.accepts .default)).toOption.any fun r =>
        r.1.incomingFates.get? ⟨1, 0⟩ = some .lost) = true := by
    decide +kernel
  obtain ⟨r, hplan, hlost⟩ := exists_of_any hrun
  exact ⟨r, hplan, of_decide_eq_true hlost⟩

/-- **A root can be lost though its source is accepted**: the owner of its natural key is removed, and it is not added. -/
theorem displacedRoot_loses : displacedRoot.Consistent ∧ displacedRoot.AcceptsUpTo ⟨1, 0⟩ ∧
    ∃ r, displacedRoot.planInOrder displacedRoot.fuel
      (displacedRoot.target.visitOrder displacedRoot.accepts .default)
      (displacedRoot.incoming.visitOrder displacedRoot.accepts .default) = .ok r ∧
    r.1.incomingFates.get? ⟨1, 0⟩ = some .lost :=
  ⟨displacedRoot_consistent, displacedRoot_acceptsUpTo, displacedRoot_runs⟩

theorem planInOrder_loses_iff_displacedRoot : ∃ r, displacedRoot.planInOrder displacedRoot.fuel
      (displacedRoot.target.visitOrder displacedRoot.accepts .default)
      (displacedRoot.incoming.visitOrder displacedRoot.accepts .default) = .ok r ∧
    displacedRoot.AcceptsUpTo ⟨1, 0⟩ ∧ r.1.CutOff displacedRoot ⟨1, 0⟩ := by
  obtain ⟨r, hplan, hlost⟩ := displacedRoot_runs
  exact ⟨r, hplan, displacedRoot_acceptsUpTo, (planInOrder_loses_iff displacedRoot_consistent
    (visitOrder_orders displacedRoot .default) hplan displacedRoot_acceptsUpTo).1.1 hlost⟩

end Reconciliation
