import Reconciliation.Proofs.Conformity
/-!
# Passes that always return

Planning can fail, or go round in circles, only where it looks for a place on the way (`Call`).  When mates are below
mates wherever the incoming one has a parent (`Pass.Exact`), there is nothing to look for: once the parents of a target
entity are decided about, so are those of its mate.  So planning returns (`planInOrder_returns`).
-/
namespace Reconciliation

open Relation Progress Planning

namespace Pass

/-- **Mates are below mates**: each parent of the incoming one is the mate of a parent of the target entity. -/
def Exact (p : Pass) (mates : EntityId → EntityId → Prop) : Prop :=
  ∀ t i c j, mates t i → p.incoming.HasLink i c j → ∃ u, mates u j ∧ p.target.HasLink t c u

variable {p : Pass} {mates : EntityId → EntityId → Prop} {resolve : Resolver} {addSubtree : Adder} {s : Progress}
  {t : EntityId}

theorem Exact.settled (hX : p.Exact mates) (hs : s.Matched p mates) {i : EntityId} (mate : mates t i)
    (hdecided : ∀ {c u}, p.target.HasLink t c u → s.targetFates.contains u = true) {track : Track}
    (hof : track.Of p.incoming) (hentity : track.entity = i) : ∀ x ∈ track.parents, Settled s x.2 := by
  rintro ⟨c, above⟩ hx
  obtain ⟨u, hu, hlink⟩ := hX t i c above.entity mate (hentity ▸ hof.hasLink_iff.2 ⟨_, hx, rfl, rfl⟩)
  cases above
  exact .fate ((hs.together hu).1 (hdecided hlink))

theorem pairUnder_returns (hp : p.Consistent) (hM : p.Matching mates) (hX : p.Exact mates) (hs : s.Sound p)
    (hmatched : s.Matched p mates) (nested : ¬p.target.IsRoot t) (hc : p.target.contains t = true)
    (ht : s.targetFates.get? t = none) {parents : List ResolvedParent} (hparents : p.Resolved mates t parents)
    (hthere : ∀ r ∈ parents, r.There p) (hdecided : ∀ {c u}, p.target.HasLink t c u → s.targetFates.contains u = true) :
    Returns p (p.pairUnder resolve t parents) s (p.Paired t) := by
  obtain ⟨data, hd⟩ := Graph.exists_entity hc
  obtain ⟨hit, hhit, hpost⟩ := firstHit_look data s hthere
  obtain ⟨-, hmate⟩ := firstHit_mate hM hmatched nested ht hd hparents hhit
  refine .bind_look (lookup_run hd s) ?_
  cases hit with
  | none =>
    have hfind : p.findPair resolve data parents s = .ok none s := by
      rw [findPair, bind_of_ok hhit]
      rfl
    exact .bind_look hfind (unpaired_returns hs hc ht)
  | some hit =>
    obtain ⟨i, parent, later⟩ := hit
    obtain ⟨hci, hi, hparent, hlater⟩ := hpost i parent later rfl
    have hfirst : ∀ l ∈ PlannedLinks.link [] parent.connection (.target parent.target), l.2.There p :=
      there_link (fun _ h => by cases h) (hthere parent hparent).1
    obtain ⟨links, hlinks, hthereLinks⟩ := linkLater_look (i := i) (s := s) (fun r h => hthere r (hlater h)) hfirst
    obtain ⟨track, htrack⟩ := Track.ofGraph_total hp.incoming hci
    obtain ⟨hof, hentity⟩ := Track.ofGraph_of htrack
    obtain ⟨links', hlocate, hthere'⟩ : ∃ links', p.locateAll resolve links track.parents s = .ok links' s ∧
        ∀ l ∈ links', l.2.There p := locateAll_look
      (hX.settled hmatched (hmate i parent later rfl).1 hdecided hof hentity) hof.above hthereLinks hs
    have hfind : p.findPair resolve data parents s = .ok (some (i, links')) s := by
      rw [findPair, bind_of_ok hhit]
      show (do
        let links ← p.linkLater i (PlannedLinks.link [] parent.connection (.target parent.target)) later
        let track ← Planning.track p.incoming i
        let links ← p.locateAll resolve links track.parents
        return some (i, links)) s = _
      rw [bind_of_ok hlinks, bind_of_ok (track_ok_iff.2 ⟨htrack, rfl⟩), bind_of_ok hlocate]
      rfl
    refine .bind_look hfind (.get_bind ?_)
    split
    · exact unpaired_returns hs hc ht
    · exact settlePair_returns hs hc ht hci hi hthere'

mutual
theorem pair_returns (hp : p.Consistent) (hM : p.Matching mates) (hX : p.Exact mates)
    (hA : p.Apt mates resolve addSubtree) : ∀ {t : Track} {s : Progress}, t.Of p.target → p.Busy t.entity → s.Sound p →
    s.Matched p mates → Returns p (p.pair resolve t) s (p.Paired t.entity)
  | .node id parents, s, hof, busy, hs, hmatched => by
    have habove : ∀ x ∈ parents, p.Busy x.2.entity := fun x hx =>
      busy.above (hof.hasLink_iff.2 ⟨x, hx, rfl, rfl⟩).isParent
    rw [pair]
    refine .bind (pairAll_returns hp hM hX hA hof.above habove hs hmatched) fun resolved s₁ hrun hs₁ ⟨hthere, hdecided⟩ => ?_
    obtain ⟨hconforms, heq, hcounterparts⟩ := (pairAll_conforms hp hM hA hof.above habove hmatched).ok hrun
    have hsound := hs₁.sound hs
    refine .get_bind ?_
    cases hf : s₁.targetFates.get? id with
    | some f => exact .pure ⟨SortedMap.contains_iff.2 ⟨f, hf⟩, fun j hj => hsound.contains_counterpart hf hj⟩
    | none =>
      cases parents with
      | nil => exact pairRoot_returns hp hsound hof.contains hf
      | cons l rest =>
        have nested : ¬p.target.IsRoot id := fun hroot => by cases hof.isRoot_iff.1 hroot
        refine pairUnder_returns hp hM hX hsound (hconforms.matched hmatched) nested hof.contains hf
          (.of_track hof heq hcounterparts) hthere fun hlink => ?_
        obtain ⟨x, hx, -, rfl⟩ := hof.hasLink_iff.1 hlink
        exact hdecided x hx
theorem pairAll_returns (hp : p.Consistent) (hM : p.Matching mates) (hX : p.Exact mates)
    (hA : p.Apt mates resolve addSubtree) : ∀ {l : List (Connection × Track)} {s : Progress}, (∀ x ∈ l, x.2.Of p.target) →
    (∀ x ∈ l, p.Busy x.2.entity) → s.Sound p → s.Matched p mates → Returns p (p.pairAll resolve l) s fun out s' =>
      (∀ r ∈ out, r.There p) ∧ ∀ x ∈ l, s'.targetFates.contains x.2.entity = true
  | [], _, _, _, _, _ => .pure ⟨fun _ h => (by cases h), fun _ h => by cases h⟩
  | (c, t) :: rest, s, hof, hbusy, hs, hmatched => by
    have hoft := hof _ List.mem_cons_self
    have hbusyt := hbusy _ List.mem_cons_self
    rw [pairAll]
    refine .bind (pair_returns hp hM hX hA hoft hbusyt hs hmatched) fun counterpart s₁ hrun hs₁ ⟨hcl, hthere⟩ => ?_
    have hmatched₁ := ((pair_conforms hp hM hA hoft hbusyt hmatched).ok hrun).1.matched hmatched
    refine .bind (pairAll_returns hp hM hX hA (fun x hx => hof x (List.mem_cons_of_mem _ hx))
      (fun x hx => hbusy x (List.mem_cons_of_mem _ hx)) (hs₁.sound hs) hmatched₁) fun resolved s₂ _ hs₂ ⟨hrest, hall⟩ => ?_
    exact .pure ⟨List.forall_mem_cons.2 ⟨⟨hoft.contains, hthere⟩, hrest⟩,
      List.forall_mem_cons.2 ⟨hs₂.targetClassified hcl, hall⟩⟩
end

theorem classifyTarget_returns (hp : p.Consistent) (hM : p.Matching mates) (hX : p.Exact mates)
    (hA : p.Apt mates resolve addSubtree) (hs : s.Sound p) (hmatched : s.Matched p mates) (accepted : p.TargetIs true t) :
    Returns p (p.classifyTarget resolve t) s fun _ _ => True := by
  obtain ⟨track, htrack⟩ := Track.ofGraph_total hp.target accepted.contains
  obtain ⟨hof, rfl⟩ := Track.ofGraph_of htrack
  refine .get_bind ?_
  split
  · exact .pure trivial
  · exact .bind_look (track_ok_iff.2 ⟨htrack, rfl⟩) ((pair_returns hp hM hX hA hof ⟨_, accepted, .refl⟩ hs hmatched).bind
      fun _ _ _ _ _ => .pure trivial)

/-- **Where mates are below mates planning returns.** -/
theorem planInOrder_returns {targetOrder incomingOrder : List EntityId} (hp : p.Consistent) (hM : p.Matching mates)
    (hX : p.Exact mates) (ho : p.Orders targetOrder incomingOrder) :
    ∃ r, p.planInOrder p.fuel targetOrder incomingOrder = .ok r := by
  cases h : p.planInOrder p.fuel targetOrder incomingOrder with
  | ok r => exact ⟨r, rfl⟩
  | error halt =>
    obtain ⟨s, herr⟩ := (planInOrder_error_iff hp ho).1 h
    rcases (classify_ends hp ho).error herr with ⟨before, t, after, s₁, heq, hfirst, hs, hopen, s₂, hhalts⟩ | ⟨-, hlt⟩
    · have hmatched := targets_matched hp hM (fun t ht => (ho.target t).1 (by rw [heq]; exact List.mem_append_left _ ht)) hfirst
      exact ((classifyTarget_returns hp hM hX (apt hp hM p.fuel) hs hmatched hopen.1).error hhalts).elim
    · exact absurd hlt (Nat.lt_irrefl _)

end Pass
end Reconciliation
