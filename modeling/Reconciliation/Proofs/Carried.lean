import Reconciliation.Proofs.Carrying
import Reconciliation.Reconcile
/-!
# Carrying out a whole plan

Each step of carrying out a plan, when it succeeds, comes to edits that leave the links alone and to the moves of
`Carrying`: making room only removes what the plan removes, a round copies additions whose parents are there, a relabel
gives links or none.  So when the plan is carried out, exactly what is doomed is missing (`plan_carried`).
-/
namespace Reconciliation
namespace Apply

variable {p : Pass} {plan : Plan} {pending : List EntityId} {s s' : Applying} {u : Unit}

theorem edit_ok {α : Type} {e : Edit α} {a : α} (h : edit e s = .ok a s') :
    e s.graph = .ok a s'.graph ∧ s'.copies = s.copies := by
  rw [edit] at h
  split at h
  · next heq =>
    obtain ⟨rfl, rfl⟩ := EStateM.Result.ok.inj h
    exact ⟨heq, rfl⟩
  · cases h

theorem lookup_ok_iff {α : Type} {x : Except StoreError α} {a : α} : lookup x s = .ok a s' ↔ x = .ok a ∧ s' = s := by
  cases x with
  | error cause => exact ⟨fun h => (by cases h), fun h => (by cases h.1)⟩
  | ok b =>
    rw [Except.ok.injEq]
    exact ⟨fun h => ⟨(EStateM.Result.ok.inj h).1, (EStateM.Result.ok.inj h).2.symm⟩, fun ⟨h, h'⟩ => h' ▸ h ▸ rfl⟩

theorem lookup_ok {α : Type} {x : Except StoreError α} {a : α} (h : lookup x s = .ok a s') : s' = s :=
  (lookup_ok_iff.1 h).2

theorem copyExternals_ok {id : EntityId} : ∀ {l : List (String × Json)} {s : Applying},
    copyExternals id l s = .ok u s' → s.SameLinks s'
  | [], s, h => by
    obtain ⟨-, rfl⟩ := EStateM.Result.ok.inj h
    exact .refl s
  | (mapping, value) :: rest, s, h => by
    obtain ⟨_, s₁, hset, hrest⟩ := bind_ok_iff.1 h
    obtain ⟨hset, hcopies⟩ := edit_ok hset
    have hsame : s.SameLinks s₁ := ⟨Graph.setExternal_ok hset, hcopies⟩
    exact hsame.trans (copyExternals_ok hrest)

/-! ## Removing and making room -/

theorem remove_carries (hf : plan.Fits p) (hs : Carrying plan p.target pending s) {r : EntityId}
    (hr : plan.operations.get? r = some .remove) (h : remove r s = .ok u s') :
    Carrying plan p.target pending s' ∧ s'.copies = s.copies ∧ s'.graph.contains r = false ∧
      ∀ x, s.graph.contains x = false → s'.graph.contains x = false := by
  rw [remove, get_bind] at h
  split at h
  · obtain ⟨gone, s₁, hremove, h⟩ := bind_ok_iff.1 h
    obtain ⟨hremove, hcopies⟩ := edit_ok hremove
    obtain ⟨-, rfl⟩ := EStateM.Result.ok.inj h
    obtain ⟨rfl, hcut⟩ := Graph.remove_ok hremove
    have hcarries := hs.cut hr (hf.operations hr) hremove hcopies
    refine ⟨hcarries.same ⟨.refl _, rfl⟩, hcopies, ?_, fun x hx => ?_⟩
    · exact Graph.contains_eq_false_iff_links.2 (hcut.taken (Graph.mem_requiredClosure_iff.2 .refl))
    · exact Graph.contains_eq_false_iff_links.2 (hcut.absent (Graph.contains_eq_false_iff_links.1 hx))
  · next hgone =>
    obtain ⟨-, rfl⟩ := EStateM.Result.ok.inj h
    exact ⟨hs, rfl, by simpa using hgone, fun _ hx => hx⟩

theorem displace_carries (hf : plan.Fits p) {kind : Kind} : ∀ {holders : List EntityId} {s : Applying},
    Carrying plan p.target pending s → displace plan.operations kind holders s = .ok u s' →
    Carrying plan p.target pending s' ∧ s'.copies = s.copies
  | [], s, hs, h => by
    obtain ⟨-, rfl⟩ := EStateM.Result.ok.inj h
    exact ⟨hs, rfl⟩
  | holder :: rest, s, hs, h => by
    rw [displace, get_bind] at h
    split at h
    · exact displace_carries hf hs h
    split at h
    · next hremove =>
      obtain ⟨_, s₁, hr, h⟩ := bind_ok_iff.1 h
      obtain ⟨hs₁, hcopies, -⟩ := remove_carries hf hs hremove hr
      obtain ⟨hs', hcopies'⟩ := displace_carries hf hs₁ h
      exact ⟨hs', hcopies'.trans hcopies⟩
    · cases h

theorem makeRoom_carries (hf : plan.Fits p) (hs : Carrying plan p.target pending s) {data : Entity} {links : List Link}
    {moving : Option EntityId} (h : makeRoom plan.operations data links moving s = .ok u s') :
    Carrying plan p.target pending s' ∧ s'.copies = s.copies := by
  rw [makeRoom, get_bind] at h
  obtain ⟨holders, s₁, hlook, h⟩ := bind_ok_iff.1 h
  obtain rfl := lookup_ok hlook
  exact displace_carries hf hs h

/-! ## Additions -/

theorem add_carries (hf : plan.Fits p)
    (hpending : ∀ u ∈ pending, p.target.contains u = true) (hs : Carrying plan p.target pending s) {a : Addition}
    {parents : List Link} (ha : a ∈ plan.additions) (hnew : s.copies.get? a.incoming = none)
    (hparents : s.linksOf? (a.links.getD []) = some parents)
    (h : add p.incoming plan.operations a.incoming parents s = .ok u s') :
    Carrying plan p.target pending s' ∧ ∃ x, s'.copies = s.copies.insert a.incoming x := by
  rw [add] at h
  obtain ⟨data, s₁, hlook, hrest⟩ := bind_ok_iff.1 h
  obtain rfl := lookup_ok hlook
  obtain ⟨_, s₂, hmake, hrest⟩ := bind_ok_iff.1 hrest
  obtain ⟨hs₂, hcopies₂⟩ := makeRoom_carries hf hs hmake
  obtain ⟨x, s₃, hadd, hrest⟩ := bind_ok_iff.1 hrest
  obtain ⟨hadd, hcopies₃⟩ := edit_ok hadd
  obtain ⟨_, s₄, hext, hrest⟩ := bind_ok_iff.1 hrest
  obtain ⟨hlinks, hcopies₄⟩ := copyExternals_ok hext
  obtain ⟨-, rfl⟩ := EStateM.Result.ok.inj hrest
  have hcopies : s₄.copies = s₁.copies := hcopies₄.trans (hcopies₃.trans hcopies₂)
  have hrealizes := realizes_of_linksOf? (hf.added ha) hparents
  have hrealizes₂ : s₂.Realizes p.target (a.links.getD []) parents := by
    rw [Applying.Realizes, Applying.names_congr p.target hcopies₂]
    exact hrealizes
  have hnew₂ : s₂.copies.get? a.incoming = none := by rw [hcopies₂, hnew]
  have hcopied : Carrying plan p.target pending { s₃ with copies := s₂.copies.insert a.incoming x } :=
    hs₂.copy hf.additions hpending ha hnew₂ hrealizes₂ hadd rfl
  refine ⟨hcopied.same ⟨hlinks, ?_⟩, x, congrArg (·.insert a.incoming x) hcopies⟩
  show s₄.copies.insert a.incoming x = s₂.copies.insert a.incoming x
  rw [hcopies, hcopies₂]

theorem addRound_carries (hf : plan.Fits p)
    (hpending : ∀ u ∈ pending, p.target.contains u = true) : ∀ {l deferred : List Addition} {s : Applying},
    Carrying plan p.target pending s → (l.map Addition.incoming).Nodup →
    (∀ a ∈ l, a ∈ plan.additions ∧ s.copies.get? a.incoming = none) →
    addRound p.incoming plan.operations l s = .ok deferred s' →
    Carrying plan p.target pending s' ∧ deferred.Sublist l ∧
      (∀ i, i ∉ l.map Addition.incoming → s'.copies.get? i = s.copies.get? i) ∧
      ∀ a ∈ deferred, s'.copies.get? a.incoming = none
  | [], _, s, hs, _, _, h => by
    obtain ⟨rfl, rfl⟩ := EStateM.Result.ok.inj h
    exact ⟨hs, .slnil, fun _ _ => rfl, fun _ h => by cases h⟩
  | a :: rest, deferred, s, hs, hnodup, hnew, h => by
    obtain ⟨ha, hnew'⟩ := List.forall_mem_cons.1 hnew
    rw [List.map_cons, List.nodup_cons] at hnodup
    rw [addRound, get_bind] at h
    cases hparents : s.linksOf? (a.links.getD []) with
    | some parents =>
      rw [hparents] at h
      obtain ⟨_, s₁, hadd, h⟩ := bind_ok_iff.1 h
      obtain ⟨hs₁, x, hcopies⟩ := add_carries hf hpending hs ha.1 ha.2 hparents hadd
      have hother : ∀ i, i ≠ a.incoming → s₁.copies.get? i = s.copies.get? i := fun i hi => by
        rw [hcopies, SortedMap.get?_insert_of_ne _ _ hi]
      have hnew₁ : ∀ b ∈ rest, b ∈ plan.additions ∧ s₁.copies.get? b.incoming = none := by
        intro b hb
        refine ⟨(hnew' b hb).1, ?_⟩
        rw [hother _ fun heq => hnodup.1 (heq ▸ List.mem_map_of_mem hb)]
        exact (hnew' b hb).2
      obtain ⟨hs', hsub, hframe, hdeferred⟩ := addRound_carries hf hpending hs₁ hnodup.2 hnew₁ h
      refine ⟨hs', hsub.cons a, fun i hi => ?_, hdeferred⟩
      rw [List.map_cons, List.mem_cons, not_or] at hi
      rw [hframe i hi.2, hother i hi.1]
    | none =>
      rw [hparents] at h
      obtain ⟨later, s₁, hround, h⟩ := bind_ok_iff.1 h
      obtain ⟨hlater, hs₁⟩ := EStateM.Result.ok.inj h
      rw [hs₁] at hround
      obtain ⟨hs', hsub, hframe, hdeferred⟩ := addRound_carries hf hpending hs hnodup.2 hnew' hround
      subst hlater
      refine ⟨hs', hsub.cons_cons a, fun i hi => ?_, List.forall_mem_cons.2 ⟨?_, hdeferred⟩⟩
      · rw [List.map_cons, List.mem_cons, not_or] at hi
        exact hframe i hi.2
      · rw [hframe _ hnodup.1]
        exact ha.2

theorem addRounds_carries (hf : plan.Fits p)
    (hpending : ∀ u ∈ pending, p.target.contains u = true) : ∀ {rounds : Nat} {l : List Addition} {s : Applying},
    Carrying plan p.target pending s → (l.map Addition.incoming).Nodup →
    (∀ a ∈ l, a ∈ plan.additions ∧ s.copies.get? a.incoming = none) →
    addRounds p.incoming plan.operations rounds l s = .ok u s' → Carrying plan p.target pending s'
  | _, [], s, hs, _, _, h => by
    rw [addRounds] at h
    obtain ⟨-, rfl⟩ := EStateM.Result.ok.inj h
    exact hs
  | 0, _ :: _, s, hs, _, _, h => by
    obtain ⟨-, rfl⟩ := EStateM.Result.ok.inj h
    exact hs
  | rounds + 1, a :: rest, s, hs, hnodup, hnew, h => by
    rw [addRounds] at h
    obtain ⟨deferred, s₁, hround, h⟩ := bind_ok_iff.1 h
    obtain ⟨hs₁, hsub, -, hdeferred⟩ := addRound_carries hf hpending hs hnodup hnew hround
    split at h
    · cases h
    · exact addRounds_carries hf hpending hs₁ ((hsub.map _).nodup hnodup)
        (fun b hb => ⟨(hnew b (hsub.subset hb)).1, hdeferred b hb⟩) h

/-! ## Relabels -/

theorem relabel_carries (hf : plan.Fits p) {t i : EntityId} {links : Option PlannedLinks} {rest : List EntityId}
    (ht : t ∉ rest) (hop : plan.operations.get? t = some (.relabel i links))
    (hs : Carrying plan p.target (t :: rest) s) (h : relabel p.incoming plan.operations t i links s = .ok u s') :
    Carrying plan p.target rest s' := by
  have hthere := hf.operations hop
  have hlinksFor : plan.linksFor? t = links := Plan.linksFor?_of_relabel hop
  have hend : ∀ {s₃ : Applying}, Carrying plan p.target rest s₃ →
      (do
        copyExternals t (p.incoming.externalsOf i)
        modify fun s => { s with applied := { s.applied with relabeled := s.applied.relabeled + 1 } } :
          Apply Unit) s₃ = .ok u s' → Carrying plan p.target rest s' := by
    intro s₃ hs₃ h
    obtain ⟨_, s₄, hext, h⟩ := bind_ok_iff.1 h
    have hsame := copyExternals_ok hext
    obtain ⟨-, rfl⟩ := EStateM.Result.ok.inj h
    exact hs₃.same hsame
  rw [relabel] at h
  obtain ⟨data, s₁, hlook, hrest⟩ := bind_ok_iff.1 h
  obtain rfl := lookup_ok hlook
  obtain ⟨_, s₂, hmake, hrest⟩ := bind_ok_iff.1 hrest
  obtain ⟨hs₂, -⟩ := makeRoom_carries hf hs hmake
  obtain ⟨_, s₃, hmodify, hrest⟩ := bind_ok_iff.1 hrest
  obtain ⟨hmodify, hcopies₃⟩ := edit_ok hmodify
  obtain ⟨hpresent, hsame⟩ := Graph.modify_ok hmodify
  have hs₃ := hs₂.same ⟨hsame, hcopies₃⟩
  cases links with
  | none => exact hend (hs₃.skip hlinksFor ((hsame.contains t).trans hpresent)) hrest
  | some links =>
    dsimp only at hrest
    rw [get_bind] at hrest
    cases hparents : s₃.linksOf? links with
    | none =>
      rw [hparents] at hrest
      cases hrest
    | some parents =>
      rw [hparents] at hrest
      obtain ⟨_, s₄, hmake, hrest⟩ := bind_ok_iff.1 hrest
      obtain ⟨hs₄, hcopies₄⟩ := makeRoom_carries hf hs₃ hmake
      obtain ⟨_, s₅, hset, hrest⟩ := bind_ok_iff.1 hrest
      obtain ⟨hset, hcopies₅⟩ := edit_ok hset
      have hrealizes : s₄.Realizes p.target links parents := by
        rw [Applying.Realizes, Applying.names_congr p.target hcopies₄]
        exact realizes_of_linksOf? (hf.there hop) hparents
      exact hend (hs₄.move ht hthere hlinksFor hrealizes hset hcopies₅) hrest

theorem relabels_carry (hf : plan.Fits p) : ∀ {l : List (EntityId × EntityId × Option PlannedLinks)} {s : Applying},
    (l.map (·.1)).Nodup → (∀ r ∈ l, r ∈ plan.relabels) → Carrying plan p.target (l.map (·.1)) s →
    (l.forM fun r => relabel p.incoming plan.operations r.1 r.2.1 r.2.2) s = .ok u s' → Carrying plan p.target [] s'
  | [], s, _, _, hs, h => by
    obtain ⟨-, rfl⟩ := EStateM.Result.ok.inj h
    exact hs
  | (t, i, links) :: rest, s, hnodup, hmem, hs, h => by
    obtain ⟨ht, hnodup'⟩ := List.nodup_cons.1 hnodup
    obtain ⟨hr, hmem'⟩ := List.forall_mem_cons.1 hmem
    obtain ⟨s₁, hrelabel, h⟩ := forM_cons_ok.1 h
    have hs₁ := relabel_carries hf ht (Plan.mem_relabels_iff.1 hr) hs hrelabel
    exact relabels_carry hf hnodup' hmem' hs₁ h

/-! ## The whole plan -/

theorem removals_carry (hf : plan.Fits p) : ∀ {l : List EntityId} {s : Applying},
    (∀ r ∈ l, r ∈ plan.removals) → Carrying plan p.target [] s → (l.forM remove) s = .ok u s' →
    Carrying plan p.target [] s' ∧ (∀ r ∈ l, s'.graph.contains r = false) ∧
      ∀ x, s.graph.contains x = false → s'.graph.contains x = false
  | [], s, _, hs, h => by
    obtain ⟨-, rfl⟩ := EStateM.Result.ok.inj h
    exact ⟨hs, fun _ h => (by cases h), fun _ hx => hx⟩
  | r :: rest, s, hmem, hs, h => by
    obtain ⟨hr, hmem'⟩ := List.forall_mem_cons.1 hmem
    obtain ⟨s₁, hremove, h⟩ := forM_cons_ok.1 h
    obtain ⟨hs₁, -, hgone, hless⟩ := remove_carries hf hs (Plan.mem_removals_iff.1 hr) hremove
    obtain ⟨hs', hgone', hless'⟩ := removals_carry hf hmem' hs₁ h
    exact ⟨hs', List.forall_mem_cons.2 ⟨hless' r hgone, hgone'⟩, fun x hx => hless' x (hless x hx)⟩

theorem followInto_ok {operations : SortedMap EntityId Operation} {rename : Rename} :
    ∀ {l : List EntityId} {s : Applying}, followInto operations rename l s = .ok u s' → s.SameLinks s'
  | [], s, h => by
    obtain ⟨-, rfl⟩ := EStateM.Result.ok.inj h
    exact .refl s
  | id :: rest, s, h => by
    rw [followInto, get_bind] at h
    split at h
    · exact followInto_ok h
    · obtain ⟨_, s₁, hmodify, h⟩ := bind_ok_iff.1 h
      obtain ⟨hmodify, hcopies⟩ := edit_ok hmodify
      have hsame : s.SameLinks s₁ := ⟨(Graph.modify_ok hmodify).2, hcopies⟩
      exact hsame.trans (followInto_ok h)

theorem renames_ok {operations : SortedMap EntityId Operation} {l : List Rename}
    (h : (l.forM (follow operations)) s = .ok u s') : s.SameLinks s' := by
  refine forM_ok_induct Applying.SameLinks.refl Applying.SameLinks.trans (fun rename _ s s' u h => ?_) h
  rw [follow, get_bind] at h
  exact followInto_ok h

theorem plan_carrying (hf : plan.Fits p) (hg : p.target.Consistent) (hcounted : p.target.Counted)
    {applied : Applied} (h : Apply.plan p.incoming plan (.start p.target) = .ok applied s') :
    Carrying plan p.target [] s' ∧ ∀ r, plan.operations.get? r = some .remove → s'.graph.contains r = false := by
  rw [Apply.plan] at h
  obtain ⟨_, s₁, hadds, h⟩ := bind_ok_iff.1 h
  obtain ⟨_, s₂, hrelabels, h⟩ := bind_ok_iff.1 h
  obtain ⟨_, s₃, hremovals, h⟩ := bind_ok_iff.1 h
  obtain ⟨_, s₄, hrenames, h⟩ := bind_ok_iff.1 h
  obtain ⟨-, rfl⟩ := EStateM.Result.ok.inj h
  have hpending : ∀ u ∈ plan.relabels.map (·.1), p.target.contains u = true := by
    intro u hu
    obtain ⟨r, hr, rfl⟩ := List.mem_map.1 hu
    exact hf.operations (Plan.mem_relabels_iff.1 hr)
  have hs₁ := addRounds_carries hf hpending (carrying_start plan hg hcounted) hf.additions
    (fun a ha => ⟨ha, rfl⟩) hadds
  have hs₂ := relabels_carry hf plan.relabels_nodup (fun r hr => hr) hs₁ hrelabels
  obtain ⟨hs₃, hgone, -⟩ := removals_carry hf (fun r hr => hr) hs₂ hremovals
  have hsame := renames_ok hrenames
  refine ⟨hs₃.same hsame, fun r hr => ?_⟩
  rw [hsame.1.contains]
  exact hgone r (Plan.mem_removals_iff.2 hr)

/-- **When a plan is carried out, what is missing is what is doomed.** -/
theorem plan_missing_iff (hf : plan.Fits p) (hg : p.target.Consistent) (hcounted : p.target.Counted)
    {applied : Applied} (h : Apply.plan p.incoming plan (.start p.target) = .ok applied s') {q : PlannedParent}
    {x : EntityId} (hx : s'.Names p.target q x) : s'.graph.contains x = false ↔ plan.Doomed p.target q :=
  have ⟨hs, hremoved⟩ := plan_carrying hf hg hcounted h
  hs.missing_iff hremoved hx

theorem plan_carried (hf : plan.Fits p) (hg : p.target.Consistent) (hcounted : p.target.Counted)
    {applied : Applied} (h : Apply.plan p.incoming plan (.start p.target) = .ok applied s') {t : EntityId}
    (ht : p.target.contains t = true) : s'.graph.contains t = false ↔ plan.Doomed p.target (.target t) :=
  plan_missing_iff hf hg hcounted h (q := .target t) ⟨ht, rfl⟩

end Apply

namespace Graph

variable {incoming target g : Graph} {plan : Plan}

theorem applyPlan_ok_iff {applied : Applied} : applyPlan incoming plan target = .ok applied g ↔
    ∃ s, Apply.plan incoming plan (.start target) = .ok applied s ∧ s.graph = g := by
  rw [applyPlan]
  cases Apply.plan incoming plan (.start target) with
  | ok applied' s => simp
  | error e s => simp

theorem applyPlan_error_iff {e : ReconcileError} : applyPlan incoming plan target = .error e g ↔
    ∃ s, Apply.plan incoming plan (.start target) = .error e s ∧ s.graph = g := by
  rw [applyPlan]
  cases Apply.plan incoming plan (.start target) with
  | ok applied s => simp
  | error e' s => simp

end Graph
end Reconciliation
