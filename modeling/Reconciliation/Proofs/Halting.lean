import Reconciliation.Proofs.Assignment
import Reconciliation.Proofs.Following
import Reconciliation.Proofs.Setbacks
/-!
# Where a plan stops

After its additions and relabels a plan makes its removals, which always succeed, and lets references follow its renames.
There natural keys can change, and the data is ahead of the look-ups: who follows a rename of a key that others are made
of renames in turn.  But every referrer that is listed is there (`Graph.Referred`), so following a rename is refused only
where it would give an entity a natural key that another one owns (`Plan.Rekeys`).

So a plan that cannot be carried out stops on the way for one of the reasons of `Setback`, or at such an entity
(`applyPlan_halts`).
-/
namespace Reconciliation

open Relation Progress Pass Reconciliation.Graph

variable {p : Pass} {plan : Plan} {s s' : Applying} {id t : EntityId} {e : ReconcileError} {rename : Rename}

/-- **A rename would give an entity that the plan leaves alone another natural key**, after renames that it has followed
already. -/
inductive Plan.Rekeys (p : Pass) (plan : Plan) (t : EntityId) (k : NaturalKey) : Prop
  | intro {e d : Entity} {rename : Rename} (rename_mem : rename ∈ plan.renames) (alone : plan.LeavesAlone p t)
    (data : p.target.entity t = .ok e) (follows : e.Follows d) (before : p.target.schema.naturalKey? d ≠ some k)
    (after : p.target.schema.naturalKey? (d.rename rename.old rename.new) = some k)

/-- **Following a rename is refused** where another entity has the natural key that it would give, or got it that way. -/
def Plan.Blocks (p : Pass) (plan : Plan) (e : ReconcileError) : Prop :=
  ∃ t k x holder, e = .store (.duplicateKey k holder) ∧ plan.Rekeys p t k ∧ x ≠ .target t ∧
    (plan.HasKey p x k ∨ x = .target holder ∧ plan.Rekeys p holder k)

/-- **A state in which renames are followed**: listed referrers are there, and what the plan leaves alone has followed
renames. -/
structure Trailing (p : Pass) (plan : Plan) (s : Applying) : Prop extends Naming plan p.target s where
  schema : s.graph.schema = p.target.schema
  referred : s.graph.Referred
  data : ∀ {t d}, plan.LeavesAlone p t → s.graph.data? t = some d → ∃ e, p.target.entity t = .ok e ∧ e.Follows d
  owner : ∀ {k h}, s.graph.resolve k = some h → ∃ x, s.Names p.target x h ∧
    (plan.HasKey p x k ∨ x = .target h ∧ plan.Rekeys p h k)

theorem Regular.trailing (hplan : plan.Rests p) (hs : Regular p plan s) : Trailing p plan s where
  toNaming := hs.toNaming
  schema := hs.schema
  referred := hs.consistent.referred
  data {t d} halone hd := by
    cases hs.data (q := .target t) ⟨halone.there, rfl⟩ hd with
    | own data => exact ⟨d, data, .refl⟩
    | given operation => cases operation.symm.trans halone.operation
  owner {k h} hh := by
    obtain ⟨x, hx⟩ := hs.named (hs.consistent.contains_of_resolve hh)
    obtain ⟨e, hbears, hk⟩ := hs.bears_of_resolve hx hh
    refine ⟨x, hx, .inl (hbears.hasKey hplan.keys (fun i hi => hs.copied (i := i) ?_) hk)⟩
    subst hi
    exact SortedMap.contains_iff.2 ⟨h, hx⟩

theorem Naming.leavesAlone (hs : Naming plan p.target s) (hthere : s.graph.contains id = true)
    (hop : plan.operations.contains id = false) (horiginal : s.copies.values.contains id = false) :
    plan.LeavesAlone p id := by
  obtain ⟨q, hq⟩ := hs.named hthere
  cases q with
  | target t =>
    obtain ⟨ht, rfl⟩ := hq
    exact ⟨ht, SortedMap.contains_eq_false_iff.1 hop⟩
  | added i =>
    have hmem : id ∈ s.copies.values := List.mem_map.2 ⟨(i, id), SortedMap.get?_eq_some_iff.1 hq, rfl⟩
    rw [List.contains_eq_mem, decide_eq_false_iff_not] at horiginal
    exact absurd hmem horiginal

/-- Following a rename into an entity that is left alone can give it another natural key. -/
theorem Trailing.rekeys (hs : Trailing p plan s) (hrename : rename ∈ plan.renames) (halone : plan.LeavesAlone p id)
    {d : Entity} {k : NaturalKey} (hd : s.graph.data? id = some d) (hbefore : s.graph.schema.naturalKey? d ≠ some k)
    (hafter : s.graph.schema.naturalKey? (d.rename rename.old rename.new) = some k) : plan.Rekeys p id k := by
  obtain ⟨e, he, hfollows⟩ := hs.data halone hd
  rw [hs.schema] at hbefore hafter
  exact ⟨hrename, halone, he, hfollows, hbefore, hafter⟩

theorem Act.trailing (h : Act p plan (.follow id rename) s s')
    (hs : Trailing p plan s) : Trailing p plan s' := by
  have hnaming := h.naming hs.toNaming
  have hschema := h.schema.trans hs.schema
  cases h with
  | follow hrename hop horiginal edit copies =>
    obtain ⟨hreferred, hdata⟩ := hs.referred.rename edit
    refine ⟨hnaming, hschema, hreferred, fun {t d} halone hd => ?_, fun {k h} hh => ?_⟩
    · obtain ⟨d₀, hd₀, hfollows⟩ := hdata hd
      obtain ⟨e, he, hfollows₀⟩ := hs.data halone hd₀
      exact ⟨e, he, hfollows₀.trans hfollows⟩
    · rw [Applying.names_congr p.target copies]
      rcases modify_resolve edit hh with hh | ⟨rfl, d, hd, hbefore, hafter⟩
      · exact hs.owner hh
      · have halone := hs.leavesAlone (contains_of_data hd) hop horiginal
        exact ⟨.target h, ⟨halone.there, rfl⟩, .inr ⟨rfl, hs.rekeys hrename halone hd hbefore hafter⟩⟩

namespace Apply

/-- Referrers follow a rename, or one of them would take over a natural key. -/
theorem followInto_trails (hrename : rename ∈ plan.renames) :
    ∀ {l : List EntityId} {s : Applying}, Trailing p plan s →
    Leads (Acts p plan) (followInto plan.operations rename l) s (fun _ s' => Trailing p plan s') (plan.Blocks p)
  | [], _, hs => .pure hs
  | id :: rest, s, hs => by
    rw [followInto]
    refine .get_bind ?_
    split
    · exact followInto_trails hrename hs
    · next hfollows =>
      simp only [Bool.or_eq_true, not_or, Bool.not_eq_true', Bool.not_eq_true, Bool.not_eq_false] at hfollows
      obtain ⟨⟨hthere, hop⟩, horiginal⟩ := hfollows
      cases hedit : Graph.modify id (fun e => e.rename rename.old rename.new) s.graph with
      | ok u g =>
        have hact : Act p plan (.follow id rename) s { s with graph := g } := .follow hrename hop horiginal hedit rfl
        refine .bind (P := fun _ s' => s' = { s with graph := g }) (.of_ok (by rw [edit, hedit]) hact.acts rfl) ?_
        rintro _ _ - rfl
        exact followInto_trails hrename (hact.trailing hs)
      | error cause g =>
        have hrefused : edit (Graph.modify id fun e => e.rename rename.old rename.new) s =
            .error (.store cause) { s with graph := g } := by rw [edit, hedit]
        obtain ⟨d, k, holder, hd, hbefore, hafter, hother, hholder, rfl⟩ :=
          modify_refused hs.referred hthere hedit fun _ => rfl
        have halone := hs.leavesAlone hthere hop horiginal
        obtain ⟨x, hx, howner⟩ := hs.owner hholder
        refine .of_error (bind_of_error hrefused)
          ⟨id, k, x, holder, rfl, hs.rekeys hrename halone hd hbefore hafter, ?_, howner⟩
        rintro rfl
        exact hother hx.2

theorem renames_trail : ∀ {l : List Rename} {s : Applying},
    (∀ r ∈ l, r ∈ plan.renames) → Trailing p plan s →
    Leads (Acts p plan) (l.forM (follow plan.operations)) s (fun _ s' => Trailing p plan s') (plan.Blocks p)
  | [], _, _, hs => .pure hs
  | r :: rest, s, hmem, hs => by
    obtain ⟨hr, hmem'⟩ := List.forall_mem_cons.1 hmem
    exact .bind (.get_bind (followInto_trails hr hs)) fun _ s₁ _ hs₁ => renames_trail hmem' hs₁

theorem removals_run (hplan : p.Carries plan) : ∀ {l : List EntityId} {s : Applying},
    (∀ r ∈ l, plan.operations.get? r = some .remove) → Regular p plan s →
    ∃ s', l.forM remove s = .ok () s' ∧ Regular p plan s'
  | [], s, _, hs => ⟨s, rfl, hs⟩
  | r :: rest, s, hmem, hs => by
    obtain ⟨hr, hmem'⟩ := List.forall_mem_cons.1 hmem
    obtain ⟨s₁, hrun, hcases⟩ := remove_run r s
    have hs₁ : Regular p plan s₁ := by
      rcases hcases with ⟨rfl, -⟩ | ⟨gone, hcut, hcopies⟩
      · exact hs
      · have hact : Act p plan (.cut r) s s₁ := .cut hr hcut hcopies
        exact hact.regular hplan.rests (fun _ _ h => by cases h) hs
    obtain ⟨s', hrest, hs'⟩ := removals_run hplan hmem' hs₁
    exact ⟨s', forM_cons_ok.2 ⟨s₁, hrun, hrest⟩, hs'⟩

theorem plan_halts (hplan : p.Carries plan) (h : Apply.plan p.incoming plan (.start p.target) = .error e s') :
    Halts p plan e ∨ plan.Blocks p e := by
  have hadditions := addAll_proceeds hplan
  rw [Apply.plan] at h
  rcases bind_error_iff.1 h with hadds | ⟨_, s₁, hadds, h⟩
  · exact .inl (hadditions.error hadds)
  obtain ⟨-, hs₁, hcopied⟩ := hadditions.ok hadds
  have hrelabels := relabels_proceed hplan [] (l := plan.relabels) (List.append_nil _).symm (by rwa [List.append_nil]) hcopied
  rcases bind_error_iff.1 h with hrelabel | ⟨_, s₂, hrelabel, h⟩
  · exact .inl (hrelabels.error hrelabel)
  obtain ⟨-, hs₂, -⟩ := hrelabels.ok hrelabel
  obtain ⟨s₃, hremovals, hs₃⟩ := removals_run hplan (l := plan.removals) (fun r hr => Plan.mem_removals_iff.1 hr)
    (hs₂.stage hplan).toRegular
  rw [bind_of_ok hremovals] at h
  rcases bind_error_iff.1 h with hrenames | ⟨_, s₄, -, h⟩
  · exact .inr ((renames_trail (fun _ hr => hr) (hs₃.trailing hplan.rests)).error hrenames)
  · cases h

end Apply

variable {sp : Progress} {fuel : Nat} {targetOrder incomingOrder : List EntityId}

theorem planInOrder_carries {o : Outcome} (hp : p.Consistent) (ho : p.Orders targetOrder incomingOrder)
    (hplan : p.planInOrder fuel targetOrder incomingOrder = .ok (sp, o))
    (hcounted : p.target.Counted) : p.Carries o.plan := by
  obtain ⟨hsteps, hdone, -, hadd, hop⟩ := planInOrder_ok hp ho hplan
  have hs := hsteps.sound (sound_start p)
  refine ⟨⟨planInOrder_fits hp ho hplan, planInOrder_keepsKeys hp ho hplan, fun {a} ha => ?_, ?_⟩, hp.target, hp.incoming,
    hcounted⟩
  · exact (hs.added ((hs.addition _).1 (List.mem_map_of_mem (hadd ▸ ha)))).contains
  · rw [hadd, Plan.relabels, hop]
    exact (hs.decides hdone).once

/-- **What a pass that fails was stopped by**: a setback on the way, or a rename at the end. -/
theorem applyPlan_halts {g : Graph} (hplan : p.Carries plan)
    (happly : Graph.applyPlan p.incoming plan p.target = .error e g) : Halts p plan e ∨ plan.Blocks p e := by
  obtain ⟨s', hrun, -⟩ := Graph.applyPlan_error_iff.1 happly
  exact Apply.plan_halts hplan hrun

/-- Following renames fails only at a natural key that is taken. -/
theorem applyPlan_stopped {g : Graph} (hplan : p.Carries plan)
    (happly : Graph.applyPlan p.incoming plan p.target = .error e g) (hkey : ∀ k h, e ≠ .store (.duplicateKey k h)) :
    Halts p plan e := by
  rcases applyPlan_halts hplan happly with hhalts | ⟨_, k, _, holder, he, -⟩
  · exact hhalts
  · exact absurd he (hkey k holder)

end Reconciliation
