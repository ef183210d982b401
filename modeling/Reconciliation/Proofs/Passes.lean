import Reconciliation.Proofs.Blame
import Reconciliation.Proofs.Visits
/-!
# The two halves of a pass

The first half classifies the accepted target entities, the second one the accepted incoming entities.  In the second
half no call enters a target entity any more, since all that are accepted have fates (`TargetDone`).  What is left goes
deeper only when an addition is written down in between, so the second half returns when it has a fuel of twice the
number of things that can be written down (`incoming_halts`).
-/
namespace Reconciliation

open Progress Planning Pass

/-- Every accepted target entity has a fate. -/
def Progress.TargetDone (p : Pass) (s : Progress) : Prop :=
  ∀ t, p.TargetIs true t → s.targetFates.contains t = true

/-- How many calls may follow before something is written down: a root may add itself. -/
def Call.level : Call → Nat
  | .root _ => 1
  | .target _ | .pairing _ _ | .add _ _ => 0

namespace Pass

variable {p : Pass} {resolve : Resolver} {addSubtree : Adder} {s s' : Progress} {i t : EntityId} {links : PlannedLinks}
  {h : Halt}

theorem targetDone_after (hs : Steps p s s') (hd : s.TargetDone p) : s'.TargetDone p := fun t ht =>
  hs.targetClassified (hd t ht)

/-! ## Placing -/

theorem placeUnder_ends (hT : Trusted p resolve addSubtree) (hs : s.Sound p) (hd : s.TargetDone p)
    (hc : p.incoming.contains i = true) (hi : s.incomingFates.get? i = none) (hl : ∀ x ∈ links, x.2.There p) :
    Ends p (p.placeUnder addSubtree i links) s (p.Placed i) (Culprit p resolve addSubtree s fun y _ => y.cost = 1) := by
  have hlinks : ThereAll p (some links) := hl
  obtain ⟨data, hdata⟩ := Graph.exists_entity hc
  obtain ⟨found, hfound, hpost⟩ := firstTargetChild_look data s hl
  refine .bind_look (lookup_run hdata s) (.bind_look hfound ?_)
  cases found with
  | some t =>
    obtain ⟨hct, ht⟩ := hpost t rfl
    obtain ⟨accepted, hacc⟩ := exists_targetIs hct
    cases accepted with
    | true =>
      have hcl := hd t hacc
      rw [SortedMap.contains_eq_false_iff.2 ht] at hcl
      cases hcl
    | false =>
      exact (settleIncoming_returns hs hacc ht hc hi hlinks).mono
        (fun r s' ⟨hcl, hr⟩ => ⟨hcl, fun q hq => by rw [hr] at hq; exact Option.some.inj hq ▸ hct⟩) fun _ => False.elim
  | none =>
    obtain ⟨accepted, hacc⟩ := exists_incomingIs hc
    refine .bind_look (acceptsIncoming_run hacc s) ?_
    cases accepted with
    | true =>
      have hopen : (Call.add (some links) i).Open p s := ⟨hacc, hi, hlinks⟩
      have hadd : Ends p (addSubtree (some links) i) s (fun _ s' => s'.incomingFates.contains i = true)
          (Culprit p resolve addSubtree s fun y _ => y.cost = 1) :=
        ⟨fun h => hT.add hs hopen h, fun h => ⟨.add (some links) i, s, rfl, .refl s, hopen, _, h⟩⟩
      exact hadd.bind fun _ _ _ _ hcl => .pure ⟨hcl, fun q hq => Option.some.inj hq ▸ hc⟩
    | false => exact (lose_returns hc hi).ends.bind fun _ _ _ _ hcl => .pure ⟨hcl, fun q hq => by cases hq⟩

mutual
/-- Placing an entity halts only when a root or an addition does. -/
theorem place_ends (hT : Trusted p resolve addSubtree) : ∀ {t : Track} {s : Progress}, t.Of p.incoming → s.Sound p →
    s.TargetDone p → Ends p (p.place resolve addSubtree t) s (p.Placed t.entity)
      (Culprit p resolve addSubtree s fun y _ => y.cost = 1)
  | .node id parents, s, hof, hs, hd => by
    rw [place]
    refine .get_bind ?_
    cases hf : s.incomingFates.get? id with
    | some f => exact .pure ⟨SortedMap.contains_iff.2 ⟨f, hf⟩, there_asParent hs hf⟩
    | none =>
      cases parents with
      | nil =>
        have hopen : (Call.root id).Open p s := ⟨hof.contains, hf⟩
        exact ⟨fun h => hT.root hs hopen h, fun h => ⟨.root id, s, rfl, .refl s, hopen, _, h⟩⟩
      | cons l rest =>
        refine (placeAll_ends hT hof.above (fun _ h => by cases h) hs hd).bind ?_
        intro links s₁ _ hs₁ hlinks
        have hsound := hs₁.sound hs
        refine .get_bind ?_
        cases hf₁ : s₁.incomingFates.get? id with
        | some f => exact .pure ⟨SortedMap.contains_iff.2 ⟨f, hf₁⟩, there_asParent hsound hf₁⟩
        | none =>
          dsimp only
          split
          · exact (lose_returns hof.contains hf₁).ends.bind fun _ _ _ _ hcl => .pure ⟨hcl, fun q hq => by cases hq⟩
          · exact (placeUnder_ends hT hsound (targetDone_after hs₁ hd) hof.contains hf₁ hlinks).mono (fun _ _ h => h)
              fun h hc => hc.after hs₁ fun h => h
theorem placeAll_ends (hT : Trusted p resolve addSubtree) : ∀ {l : List (Connection × Track)} {links : PlannedLinks}
    {s : Progress}, (∀ x ∈ l, x.2.Of p.incoming) → (∀ x ∈ links, x.2.There p) → s.Sound p → s.TargetDone p →
    Ends p (p.placeAll resolve addSubtree links l) s (fun links' _ => ∀ x ∈ links', x.2.There p)
      (Culprit p resolve addSubtree s fun y _ => y.cost = 1)
  | [], _, _, _, hl, _, _ => .pure hl
  | (c, t) :: rest, links, s, hof, hl, hs, hd => by
    rw [placeAll]
    refine (place_ends hT (hof _ List.mem_cons_self) hs hd).bind ?_
    intro q s₁ _ hs₁ ⟨_, hthere⟩
    have hof' : ∀ x ∈ rest, x.2.Of p.incoming := fun x hx => hof x (List.mem_cons_of_mem _ hx)
    have hrest : ∀ {links' : PlannedLinks}, (∀ x ∈ links', x.2.There p) →
        Ends p (p.placeAll resolve addSubtree links' rest) s₁ (fun links' _ => ∀ x ∈ links', x.2.There p)
          (Culprit p resolve addSubtree s fun y _ => y.cost = 1) := fun hl' =>
      (placeAll_ends hT hof' hl' (hs₁.sound hs) (targetDone_after hs₁ hd)).mono (fun _ _ h => h)
        fun h hc => hc.after hs₁ fun h => h
    cases q with
    | none => exact hrest hl
    | some q => exact hrest (there_link hl (hthere q rfl))
end

/-! ## Visits -/

theorem visitTarget_ends (fuel : Nat) (hp : p.Consistent) (hs : s.Sound p) (hacc : p.TargetIs true t) :
    Ends p (p.classifyTarget (p.resolveRoot fuel) t) s (fun _ s' => s'.targetFates.contains t = true)
      fun h => (Call.target t).Open p s ∧ (Call.target t).HaltsIn p fuel s h := by
  cases hcl : s.targetFates.contains t with
  | true =>
    refine .of_ok (a := ()) ?_ (.refl s) hcl
    simp only [classifyTarget, get_bind, hcl]
    rfl
  | false =>
    have hopen : (Call.target t).Open p s := ⟨hacc, SortedMap.contains_eq_false_iff.1 hcl⟩
    have hends := classifyTarget_ends hp (trusted hp fuel) hs hopen
    exact ⟨fun h => hends.ok h, fun h => ⟨hopen, _, h⟩⟩

theorem classifyIncoming_ends (fuel : Nat) (hp : p.Consistent) (hs : s.Sound p) (hd : s.TargetDone p)
    (hc : p.incoming.contains i = true) :
    Ends p (p.classifyIncoming fuel i) s (fun _ s' => s'.incomingFates.contains i = true)
      (Culprit p (p.resolveRoot fuel) (p.addSubtree fuel) s fun y _ => y.cost = 1) := by
  obtain ⟨track, htrack⟩ := Track.ofGraph_total hp.incoming hc
  obtain ⟨hof, hentity⟩ := Track.ofGraph_of htrack
  refine .get_bind ?_
  split
  · next h => exact .pure h
  · exact .bind_look (track_ok_iff.2 ⟨htrack, rfl⟩) ((place_ends (trusted hp fuel) hof hs hd).bind
      fun _ _ _ _ hplaced => .pure (hentity ▸ hplaced.1))

/-- **Once the accepted target entities have fates, roots and additions only run out of fuel**, and not when they have
two units for everything that can still be written down. -/
theorem incoming_halts (hp : p.Consistent) : ∀ {fuel : Nat} {x : Call} {s : Progress}, s.Sound p → s.TargetDone p →
    x.Open p s → x.cost = 1 → x.HaltsIn p fuel s h →
    h = .outOfFuel ∧ fuel ≤ 2 * (2 * (p.target.size + p.incoming.size) - s.weight) + x.level
  | 0, x, s, _, _, _, hcost, hx => by
    cases x with
    | target | pairing => cases hcost
    | root | add =>
      obtain ⟨s', herr⟩ := hx
      exact ⟨(EStateM.Result.error.inj herr).1.symm, Nat.zero_le _⟩
  | fuel + 1, x, s, hs, hd, ho, hcost, hx => by
    have hx' : x.HaltsIn p (fuel + x.cost) s h := by rwa [hcost]
    rcases hx'.blame hp hs ho with ⟨y, s', henters, hs', ho', hy⟩ | ⟨t, parents, rfl, -, -⟩
    · have hall := ho.begun.trans hs'
      have hsound := hall.sound hs
      have hd' := targetDone_after hall hd
      have hweight' := hs'.weight_le
      have hbound := hsound.weight_le
      cases henters with
      | pairing | place => cases hcost
      | target _ _ free accepted =>
        have hcl := hd' _ accepted
        rw [SortedMap.contains_eq_false_iff.2 free] at hcl
        cases hcl
      | copy =>
        obtain ⟨hh, hle⟩ := incoming_halts hp hsound hd' ho' rfl hy
        have hle' : fuel ≤ 2 * (2 * (p.target.size + p.incoming.size) - s'.weight) + 0 := hle
        have hweight : s.weight ≤ s'.weight := hweight'
        refine ⟨hh, ?_⟩
        show fuel + 1 ≤ 2 * (2 * (p.target.size + p.incoming.size) - s.weight) + 1
        omega
      | child _ _ _ enters =>
        have hcost' : y.cost = 1 := by cases enters <;> rfl
        have hlevel : y.level ≤ 1 := by cases enters <;> simp [Call.level]
        have hweight := ho.weight_begun
        obtain ⟨hh, hle⟩ := incoming_halts hp hsound hd' ho' hcost' hy
        refine ⟨hh, ?_⟩
        show fuel + 1 ≤ 2 * (2 * (p.target.size + p.incoming.size) - s.weight) + 0
        omega
    · cases hcost

end Pass
end Reconciliation
