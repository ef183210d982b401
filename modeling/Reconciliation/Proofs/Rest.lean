import Reconciliation.Proofs.Certainty
import Reconciliation.Proofs.Checking
import Reconciliation.Proofs.Unchanged
import Reconciliation.Proofs.Visits
/-!
# Targets at rest

A target is at rest when a matching shows that there is nothing left to do for a pass (`Pass.AtRest`): mates have the same
data and the same parents, whatever is accepted in the target has an accepted mate, and nothing has its place at a copy.
Then a pass succeeds in whatever order and changes nothing (`AtRest.reconcile`).

A graph in which nothing can be taken for another entity is at rest against itself (`Distinct.atRest`), so reconciling it
with itself changes nothing.  Where two entities that differ in their source alone can be taken for each other, it may
exchange them (`twins_exchanged`).
-/
namespace Reconciliation

open Relation Progress

theorem Plan.pairRenames_nil {target incoming : Graph} : ∀ l : List (EntityId × Operation),
    pairRenames target incoming l [] = .ok []
  | [] => rfl
  | (_, .relabel _ _) :: rest => pairRenames_nil rest
  | (_, .remove) :: _ => rfl

theorem Plan.findRenames_nil {target incoming : Graph} {plan : Plan} (h : plan.additions = []) :
    findRenames target incoming plan = .ok [] := by
  rw [findRenames, h]
  show ((pairRenames target incoming plan.operations.toList []).mapError ReconcileError.store) = _
  rw [pairRenames_nil]
  rfl

namespace Pass

/-- **A target at rest.**  Mates have the same data and the same parents, what is accepted has an accepted mate, and
nothing has its place at a copy. -/
structure AtRest (p : Pass) (mates : EntityId → EntityId → Prop) : Prop extends Matching p mates where
  exact : p.Exact mates
  data : ∀ {t i}, mates t i → p.IncomingIs true i → p.target.data? t = p.incoming.data? i
  links : ∀ {t i c u}, mates t i → p.IncomingIs true i → p.target.HasLink t c u → ∃ j, mates u j ∧ p.incoming.HasLink i c j
  stays : ∀ {t}, p.TargetIs true t → ∃ i, mates t i ∧ p.IncomingIs true i
  placed : ∀ i, ¬p.HasPlace mates i (.added i)

variable {p : Pass} {mates : EntityId → EntityId → Prop} {s : Progress} {targetOrder incomingOrder : List EntityId}
  {o : Outcome}

theorem AtRest.own (hR : p.AtRest mates) {t i : EntityId} {c : Connection} {q : PlannedParent} (mate : mates t i)
    (accepted : p.IncomingIs true i) :
    (∃ j, p.incoming.HasLink i c j ∧ p.HasPlace mates j q) ↔ ∃ y, q = .target y ∧ p.target.HasLink t c y := by
  constructor
  · rintro ⟨j, hlink, hplace⟩
    obtain ⟨u, hu, hlink'⟩ := hR.exact t i c j mate hlink
    exact ⟨u, (hplace.of_mate hR.toMatching hu).1, hlink'⟩
  · rintro ⟨y, rfl, hlink⟩
    obtain ⟨j, hj, hlink'⟩ := hR.links mate accepted hlink
    obtain ⟨u, hu, stays⟩ := hR.above mate hlink'
    obtain rfl := hR.target_unique hu hj
    exact ⟨j, hlink', .mate hu stays⟩

theorem AtRest.idle (hp : p.Consistent) (hR : p.AtRest mates) (ho : p.Orders targetOrder incomingOrder)
    (hplan : p.planInOrder p.fuel targetOrder incomingOrder = .ok (s, o)) : o.plan.Idle p := by
  have hfollows := planInOrder_follows hp hR.toMatching ho hplan
  obtain ⟨hsteps, -, -, hadd, hop⟩ := planInOrder_ok hp ho hplan
  have hfit := (planInOrder_explained hp ho hplan).plan_links (hsteps.sound (sound_start p)) hp hadd hop
  have hnone : o.plan.additions = [] := List.eq_nil_iff_forall_not_mem.2 fun a ha =>
    hR.placed a.incoming (hfollows.add_iff.1 (List.mem_map_of_mem ha))
  constructor
  case additions =>
    exact hnone
  case renames =>
    have hrenames := planInOrder_renames hplan
    rw [Plan.findRenames_nil hnone] at hrenames
    exact (Except.ok.inj hrenames).symm
  case stays =>
    intro t hremove
    obtain ⟨accepted, rejected⟩ := hfollows.remove_iff.1 hremove
    obtain ⟨i, mate, accepted'⟩ := hR.stays accepted
    cases accepted'.unique (rejected mate)
  case data =>
    intro t i links hrelabel
    obtain ⟨mate, accepted⟩ := hfollows.relabel_iff.1 ⟨links, hrelabel⟩
    obtain ⟨e, -, he, -⟩ := hR.toMatching.alike hp mate
    rw [Graph.entity_ok_iff_data] at he
    exact ⟨e, he, (hR.data mate accepted).symm.trans he⟩
  case single =>
    exact hfit.relabelledOnce
  case own =>
    intro t i links c q hrelabel
    obtain ⟨mate, accepted⟩ := hfollows.relabel_iff.1 ⟨_, hrelabel⟩
    exact (hfollows.relabel_fit hrelabel c q).trans (hR.own mate accepted)

/-- **At rest, a pass succeeds and changes nothing**, with whatever options. -/
theorem AtRest.reconcile (hp : p.Consistent) (hR : p.AtRest mates) (options : Options) :
    ∃ r g, Graph.reconcile p.incoming p.accepts options p.target = .ok r g ∧ r.added = 0 ∧ r.removed = 0 ∧
      p.target.Unchanged g := by
  have ho := visitOrder_orders p options
  obtain ⟨⟨s, o⟩, hplan⟩ := planInOrder_returns hp hR.toMatching hR.exact ho
  obtain ⟨applied, g, happly, hadded, hremoved, hsame⟩ := (hR.idle hp ho hplan).apply hp.target
  have hrun : p.plan options = .ok o := by
    rw [plan, if_neg (not_not_intro hp.schema), hplan]
    rfl
  refine ⟨⟨applied.added, applied.relabeled, applied.removed, o.untouched, o.traceLost⟩, g, ?_, hadded, hremoved, hsame⟩
  simp only [Graph.reconcile, Graph.passFrom, hrun, happly]

end Pass

/-! ## Reconciling a graph with itself -/

namespace Graph

theorem IsRoot.contains {g : Graph} {id : EntityId} (h : g.IsRoot id) : g.contains id = true :=
  let ⟨n, hn, _⟩ := h
  contains_iff.2 ⟨n, hn⟩

/-- **Nothing can be taken for another entity.**  A root without a natural key has its content for itself, and each child
has it for itself among the children of one parent through one connection. -/
structure Distinct (g : Graph) : Prop where
  root : ∀ a ∈ g.nodes.toList, ∀ b ∈ g.nodes.toList, a.2.parents = [] → g.schema.naturalKey? a.2.data = none →
    a.2.data.sameContent b.2.data = true → a.1 = b.1
  sibling : ∀ a ∈ g.nodes.toList, ∀ b ∈ g.nodes.toList, ∀ l ∈ a.2.parents, ∀ k ∈ b.2.parents, l = k →
    a.2.data.sameContent b.2.data = true → a.1 = b.1

instance (g : Graph) : Decidable g.Distinct :=
  decidable_of_iff (_ ∧ _) ⟨fun h => ⟨h.1, h.2⟩, fun h => ⟨h.root, h.sibling⟩⟩

variable {g : Graph} {accepts : Source → Bool} {t i : EntityId}

theorem Distinct.eq_of_answers (hg : g.Consistent) (hd : g.Distinct) (hroot : g.IsRoot t ∨ g.IsRoot i)
    (h : (g.passFrom g accepts).Answers t i) : t = i := by
  obtain ⟨e, d, he, hd', hkeys, hsame⟩ := (Pass.answers_iff (p := g.passFrom g accepts) ⟨hg, hg, rfl⟩).1 h
  obtain ⟨n, hn, rfl⟩ := entity_ok_iff.1 he
  obtain ⟨m, hm, rfl⟩ := entity_ok_iff.1 hd'
  have hn' : (t, n) ∈ g.nodes.toList := SortedMap.get?_eq_some_iff.1 hn
  have hm' : (i, m) ∈ g.nodes.toList := SortedMap.get?_eq_some_iff.1 hm
  cases hkey : g.schema.naturalKey? m.data with
  | some key =>
    have howner : g.resolve key = some i := hg.owner.2 ⟨m, hm, hkey⟩
    have howner' : g.resolve key = some t := hg.owner.2 ⟨n, hn, hkeys.trans hkey⟩
    exact Option.some.inj (howner'.symm.trans howner)
  | none =>
    have hcontent := hsame hkey
    rcases hroot with ⟨n', hn₀, hnil⟩ | ⟨m', hm₀, hnil⟩
    · obtain rfl := Option.some.inj (hn.symm.trans hn₀)
      exact hd.root _ hn' _ hm' hnil (hkeys.trans hkey) hcontent
    · obtain rfl := Option.some.inj (hm.symm.trans hm₀)
      exact (hd.root _ hm' _ hn' hnil hkey (Pass.sameContent_comm hcontent)).symm

/-- **A graph in which nothing can be taken for another entity is at rest against itself.** -/
theorem Distinct.atRest (hg : g.Consistent) (hd : g.Distinct) (accepts : Source → Bool) :
    (g.passFrom g accepts).AtRest fun t i => t = i ∧ g.contains t = true where
  target_unique h h' := h.1.trans h'.1.symm
  incoming_unique h h' := h.1.symm.trans h'.1
  root_iff h := by rw [h.1]; exact Iff.rfl
  answers := by
    rintro t _ ⟨rfl, hthere⟩ -
    obtain ⟨e, he⟩ := exists_entity hthere
    exact (Pass.answers_iff (p := g.passFrom g accepts) ⟨hg, hg, rfl⟩).2
      ⟨e, e, he, he, rfl, fun _ => Pass.sameContent_iff.2 ⟨rfl, rfl⟩⟩
  sameContent := by
    rintro t _ ⟨rfl, hthere⟩ -
    obtain ⟨e, he⟩ := exists_entity hthere
    exact ⟨e, e, he, he, Pass.sameContent_iff.2 ⟨rfl, rfl⟩⟩
  shared := by
    rintro t _ ⟨rfl, hthere⟩ hnested
    obtain ⟨n, hn⟩ := contains_iff.1 hthere
    obtain ⟨⟨c, u⟩, hmem⟩ := List.exists_mem_of_ne_nil _ fun hnil => hnested ⟨n, hn, hnil⟩
    exact ⟨c, u, u, ⟨n, hn, hmem⟩, ⟨n, hn, hmem⟩, rfl, (hg.parent hn hmem).1⟩
  above := by
    rintro t _ c j ⟨rfl, -⟩ ⟨n, hn, hmem⟩
    have hj := (hg.parent hn hmem).1
    obtain ⟨b, hb⟩ := Pass.exists_targetIs (p := g.passFrom g accepts) hj
    refine ⟨j, ⟨rfl, hj⟩, ?_⟩
    cases b with
    | false => exact .inl hb
    | true => exact .inr hb
  target_root hroot _ h := ⟨hd.eq_of_answers hg (.inl hroot) h, hroot.contains⟩
  incoming_root hroot h :=
    have heq := hd.eq_of_answers hg (.inr hroot) h
    ⟨heq, heq ▸ hroot.contains⟩
  child := by
    rintro t u i j c ⟨n, hn, hl⟩ ⟨m, hm, hl'⟩ ⟨rfl, -⟩ - ⟨e, d, he, hd', hsame⟩
    obtain ⟨n', hn', rfl⟩ := entity_ok_iff.1 he
    obtain ⟨m', hm', rfl⟩ := entity_ok_iff.1 hd'
    obtain rfl := Option.some.inj (hn.symm.trans hn')
    obtain rfl := Option.some.inj (hm.symm.trans hm')
    have hmem : (t, n) ∈ g.nodes.toList := SortedMap.get?_eq_some_iff.1 hn
    have hmem' : (i, m) ∈ g.nodes.toList := SortedMap.get?_eq_some_iff.1 hm
    exact ⟨hd.sibling _ hmem _ hmem' _ hl _ hl' rfl hsame, contains_iff.2 ⟨n, hn⟩⟩
  alone accepted free := absurd ⟨rfl, accepted.contains⟩ (free _)
  exact := by
    rintro t _ c j ⟨rfl, -⟩ ⟨n, hn, hmem⟩
    exact ⟨j, ⟨rfl, (hg.parent hn hmem).1⟩, n, hn, hmem⟩
  data h _ := by rw [h.1]; rfl
  links := by
    rintro t _ c u ⟨rfl, -⟩ - ⟨n, hn, hmem⟩
    exact ⟨u, ⟨rfl, (hg.parent hn hmem).1⟩, n, hn, hmem⟩
  stays {t} h := ⟨t, ⟨rfl, h.contains⟩, h⟩
  placed i h := by
    obtain ⟨accepted, free⟩ := h.of_added
    exact free i ⟨rfl, accepted.contains⟩

/-- **Reconciling a graph with itself changes nothing**, whatever is accepted and in whatever order, when nothing in it can
be taken for another entity. -/
theorem reconcile_self (hg : g.Consistent) (hd : g.Distinct) (accepts : Source → Bool) (options : Options) :
    ∃ r g', reconcile g accepts options g = .ok r g' ∧ r.added = 0 ∧ r.removed = 0 ∧ (∀ x, g'.data? x = g.data? x) ∧
      (∀ x, g'.links? x = g.links? x) ∧ (ChangeSet.between g g').isEmpty = true := by
  have hp : (g.passFrom g accepts).Consistent := ⟨hg, hg, rfl⟩
  obtain ⟨r, g', hrun, hadded, hremoved, hsame⟩ := (hd.atRest hg accepts).reconcile hp options
  exact ⟨r, g', hrun, hadded, hremoved, hsame.data, hsame.links, hsame.between⟩

/-- A child of an `A`, and a root of the same kind from another source. -/
def childAndRoot (child root : Entity) : Graph :=
  .ofNodes ⟨#[⟨"A", [], []⟩, ⟨"K", [], [⟨0, 1, .many, .optional⟩]⟩]⟩
    [(⟨0, 0⟩, .new 0 "s", []), (⟨1, 0⟩, child, [(⟨0, 1, .many, .optional⟩, ⟨0, 0⟩)]), (⟨1, 1⟩, root, [])] [(0, 1), (1, 2)]

/-- The two differ in an attribute. -/
def namedChild : Graph := childAndRoot ((Entity.new 1 "b").set "name" (.text "k")) (.new 1 "a")

/-- The two differ in their source alone. -/
def twins : Graph := childAndRoot (.new 1 "b") (.new 1 "a")

theorem reconcile_self_namedChild : namedChild.Consistent ∧ namedChild.Distinct ∧ ∃ r g',
    reconcile namedChild (· = "a") ⟨some 2⟩ namedChild = .ok r g' ∧ r.added = 0 ∧ r.removed = 0 ∧
      (∀ x, g'.data? x = namedChild.data? x) ∧ (∀ x, g'.links? x = namedChild.links? x) ∧
      (ChangeSet.between namedChild g').isEmpty = true :=
  have hg : namedChild.Consistent := by decide +kernel
  have hd : namedChild.Distinct := by decide +kernel
  ⟨hg, hd, reconcile_self hg hd _ _⟩

/-- **A snapshot of the target can change it**: the root is paired with the child that has its content. -/
theorem twins_exchanged : twins.Consistent ∧ ∃ r g', reconcile twins (fun _ => true) .default twins = .ok r g' ∧
    twins.contains ⟨1, 0⟩ = true ∧ g'.contains ⟨1, 0⟩ = false ∧ g'.data? ⟨1, 1⟩ ≠ twins.data? ⟨1, 1⟩ ∧
    (ChangeSet.between twins g').isEmpty = false := by
  have hrun : (succeedsWith (reconcile twins (fun _ => true) .default twins) fun _ g' =>
      decide (twins.contains ⟨1, 0⟩ = true ∧ g'.contains ⟨1, 0⟩ = false ∧ g'.data? ⟨1, 1⟩ ≠ twins.data? ⟨1, 1⟩ ∧
        (ChangeSet.between twins g').isEmpty = false)) = true := by
    decide +kernel
  obtain ⟨r, g', heq, hg'⟩ := exists_of_succeedsWith hrun
  exact ⟨by decide +kernel, r, g', heq, of_decide_eq_true hg'⟩

end Graph
end Reconciliation
