import Reconciliation.Proofs.Rest
import Reconciliation.Proofs.Rounds
/-!
# A report that adds up

What a plan counts is what it lists: each addition once, each relabel once.  What it removes is counted as it goes, be it
to make room, when its turn comes, or along with something else, and never twice.  So the target ends with as many
entities as it had, and those that were added, without those that were removed (`plan_tally`).

A pass that counts nothing had nothing to add or to relabel.  Then its first removal would have found the entity still
there, so it had nothing to remove either, and without additions there are no renames.  Nothing at all has happened
(`report_balances`).
-/
namespace Reconciliation
namespace Apply

variable {incoming target : Graph} {operations : SortedMap EntityId Operation} {plan : Plan} {s s' : Applying}
  {t i : EntityId} {links : Option PlannedLinks} {applied : Applied} {u : Unit}

/-! ## Relabels, removals and renames -/

theorem edit_tally {α : Type} {x : Edit α} {a : α} (h : edit x s = .ok a s')
    (hx : ∀ {g}, x s.graph = .ok a g →
      (∀ y, g.contains y = s.graph.contains y) ∧ ∀ kind, g.nextIndex kind = s.graph.nextIndex kind) : Tally 0 0 s s' := by
  obtain ⟨hrun, -, happlied⟩ := edit_same h
  exact .same (hx hrun).1 (hx hrun).2 happlied

theorem modify_tally {change : Entity → Entity} (h : edit (Graph.modify t change) s = .ok u s') : Tally 0 0 s s' :=
  edit_tally h fun hrun => ⟨(Graph.modify_ok hrun).2.contains, (Graph.modify_ok hrun).2.counters⟩

theorem relabel_tally (h : relabel incoming operations t i links s = .ok u s') : Tally 0 1 s s' := by
  have hend : ∀ {s₁ : Applying}, Tally 0 0 s s₁ →
      (do
        copyExternals t (incoming.externalsOf i)
        modify fun s => { s with applied := { s.applied with relabeled := s.applied.relabeled + 1 } } :
          Apply Unit) s₁ = .ok u s' → Tally 0 1 s s' := by
    intro s₁ hs₁ hthen
    obtain ⟨_, s₂, hext, hcount⟩ := bind_ok_iff.1 hthen
    obtain ⟨-, rfl⟩ := EStateM.Result.ok.inj hcount
    have hs₂ := hs₁.trans (.of_sameLinks (copyExternals_ok hext).1 (copyExternals_keeps hext).2)
    exact ⟨hs₂.added, congrArg (· + 1) hs₂.relabeled, hs₂.removed, hs₂.counted, hs₂.size⟩
  rw [relabel] at h
  obtain ⟨data, _, hlook, hthen⟩ := bind_ok_iff.1 h
  obtain rfl := lookup_ok hlook
  obtain ⟨_, s₁, hmake, hthen⟩ := bind_ok_iff.1 hthen
  obtain ⟨_, s₂, hmodify, hthen⟩ := bind_ok_iff.1 hthen
  have hs₂ := (makeRoom_spares.ok hmake).1.tally.trans (modify_tally hmodify)
  cases links with
  | none => exact hend hs₂ hthen
  | some links =>
    dsimp only at hthen
    rw [get_bind] at hthen
    cases hparents : s₂.linksOf? links with
    | none =>
      rw [hparents] at hthen
      cases hthen
    | some parents =>
      rw [hparents] at hthen
      obtain ⟨_, s₃, hmake, hthen⟩ := bind_ok_iff.1 hthen
      obtain ⟨_, s₄, hset, hthen⟩ := bind_ok_iff.1 hthen
      have hs₃ := hs₂.trans (makeRoom_spares.ok hmake).1.tally
      have hs₄ : Tally 0 0 s₃ s₄ := edit_tally hset fun hrun => ⟨Graph.contains_setParents hrun, (Graph.setParents_ok hrun).2.2.2⟩
      exact hend (hs₃.trans hs₄) hthen

theorem relabels_tally : ∀ {l : List (EntityId × EntityId × Option PlannedLinks)} {s : Applying},
    (l.forM fun r => relabel incoming operations r.1 r.2.1 r.2.2) s = .ok u s' → Tally 0 l.length s s'
  | [], s, h => by
    obtain ⟨-, rfl⟩ := EStateM.Result.ok.inj h
    exact .refl s
  | r :: l, s, h => by
    obtain ⟨s₁, hrelabel, hrest⟩ := forM_cons_ok.1 h
    rw [List.length_cons, Nat.add_comm]
    exact (relabel_tally hrelabel).trans (relabels_tally hrest)

theorem removals_tally {l : List EntityId} (h : (l.forM remove) s = .ok u s') : Tally 0 0 s s' :=
  forM_ok_induct .refl .trans (fun _ _ {_ _ _} h => (remove_spares.ok h).1.tally) h

theorem followInto_tally {rename : Rename} : ∀ {l : List EntityId} {s : Applying},
    followInto operations rename l s = .ok u s' → Tally 0 0 s s'
  | [], s, h => by
    obtain ⟨-, rfl⟩ := EStateM.Result.ok.inj h
    exact .refl s
  | x :: l, s, h => by
    rw [followInto, get_bind] at h
    split at h
    · exact followInto_tally h
    · obtain ⟨_, s₁, hmodify, hrest⟩ := bind_ok_iff.1 h
      exact (modify_tally hmodify).trans (followInto_tally hrest)

theorem renames_tally {l : List Rename} (h : (l.forM (follow operations)) s = .ok u s') : Tally 0 0 s s' := by
  refine forM_ok_induct .refl .trans (fun _ _ {_ _ _} hfollow => ?_) h
  rw [follow, get_bind] at hfollow
  exact followInto_tally hfollow

/-! ## The whole plan -/

theorem plan_stages (h : Apply.plan incoming plan s = .ok applied s') : applied = s'.applied ∧ ∃ s₁ s₂ s₃ order,
    order.Perm plan.additions ∧ Makes incoming plan.operations order s s₁ ∧
    (plan.relabels.forM fun r => relabel incoming plan.operations r.1 r.2.1 r.2.2) s₁ = .ok () s₂ ∧
    plan.removals.forM remove s₂ = .ok () s₃ ∧ plan.renames.forM (follow plan.operations) s₃ = .ok () s' := by
  rw [Apply.plan] at h
  obtain ⟨_, s₁, hadds, h⟩ := bind_ok_iff.1 h
  obtain ⟨_, s₂, hrelabels, h⟩ := bind_ok_iff.1 h
  obtain ⟨_, s₃, hremovals, h⟩ := bind_ok_iff.1 h
  obtain ⟨_, s₄, hrenames, h⟩ := bind_ok_iff.1 h
  obtain ⟨rfl, rfl⟩ := EStateM.Result.ok.inj h
  obtain ⟨order, hperm, hmakes⟩ := (rounds_iff.2 hadds).makes
  exact ⟨rfl, s₁, s₂, s₃, order, hperm, hmakes, hrelabels, hremovals, hrenames⟩

theorem plan_tally (h : Apply.plan incoming plan s = .ok applied s') :
    applied = s'.applied ∧ Tally plan.additions.length plan.relabels.length s s' := by
  obtain ⟨happlied, s₁, s₂, s₃, order, hperm, hmakes, hrelabels, hremovals, hrenames⟩ := plan_stages h
  have hrelabels := relabels_tally hrelabels
  have hrest := (removals_tally hremovals).trans (renames_tally hrenames)
  have hall := (hmakes.tally.trans hrelabels).trans hrest
  rw [hperm.length_eq] at hall
  simp only [Nat.add_zero, Nat.zero_add] at hall
  exact ⟨happlied, hall⟩

end Apply

namespace Graph

theorem reconcile_stages {target incoming g : Graph} {accepts : Source → Bool} {options : Options} {report : Report}
    (h : reconcile incoming accepts options target = .ok report g) :
    target.schema = incoming.schema ∧ ∃ s o applied, (target.passFrom incoming accepts).planInOrder
        (target.passFrom incoming accepts).fuel (target.visitOrder accepts options) (incoming.visitOrder accepts options) =
          .ok (s, o) ∧
      applyPlan incoming o.plan target = .ok applied g ∧
      report = ⟨applied.added, applied.relabeled, applied.removed, o.untouched, o.traceLost⟩ := by
  rw [reconcile] at h
  split at h
  · cases h
  next o hplan =>
  split at h
  · cases h
  next applied g' happly =>
  obtain ⟨rfl, rfl⟩ := EStateM.Result.ok.inj h
  rw [Pass.plan] at hplan
  split at hplan
  · cases hplan
  next hschema =>
  generalize hrun : Pass.planInOrder _ _ _ _ = r at hplan
  cases r with
  | error halt => cases hplan
  | ok r =>
    obtain rfl := Except.ok.inj hplan
    exact ⟨not_not.1 hschema, r.1, r.2, applied, hrun, happly, rfl⟩

theorem applyPlan_counted {target incoming g : Graph} {plan : Plan} {applied : Applied}
    (h : applyPlan incoming plan target = .ok applied g) (hcounted : target.Counted) : g.Counted := by
  obtain ⟨s, hrun, rfl⟩ := applyPlan_ok_iff.1 h
  exact (Apply.plan_tally hrun).2.counted hcounted

theorem reconcile_counted {target incoming g : Graph} {accepts : Source → Bool} {options : Options} {report : Report}
    (h : reconcile incoming accepts options target = .ok report g) (hcounted : target.Counted) : g.Counted := by
  obtain ⟨-, s, o, applied, -, happly, -⟩ := reconcile_stages h
  exact applyPlan_counted happly hcounted

end Graph
end Reconciliation
