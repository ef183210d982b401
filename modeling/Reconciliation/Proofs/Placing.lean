import Reconciliation.Proofs.Guidance
/-!
# Every fate has a reason

Once the accepted target entities have fates, placing an entity decides about it and about its parents, and the links
that it gets lead to exactly the places of these (`place_proceeds`).  So when planning returns, everything that it wrote
down is explained (`planInOrder_explained`).
-/
namespace Reconciliation

open Progress Planning

theorem IncomingFate.asParent_eq_none_iff {f : IncomingFate} {i : EntityId} : f.asParent i = none ↔ f = .lost := by
  cases f <;> simp [asParent]

theorem Progress.Places.lost_of_notMem {p : Pass} {s : Progress} {i q : EntityId} {links : PlannedLinks} {c : Connection}
    (h : s.Places p i links) (hlink : p.incoming.HasLink i c q) (hnot : c ∉ links.map Prod.fst) :
    s.incomingFates.get? q = some .lost := by
  obtain ⟨f, hf⟩ := SortedMap.contains_iff.1 (h.decided hlink)
  cases hplace : f.asParent q with
  | none => rw [hf, IncomingFate.asParent_eq_none_iff.1 hplace]
  | some x => exact absurd (List.mem_map.2 ⟨(c, x), h.mem_iff.2 ⟨q, f, hlink, hf, hplace⟩, rfl⟩) hnot

/-- **The places of the parents on a track**, each with the connection to it. -/
def Progress.placesOf (s : Progress) (parents : List (Connection × Track)) : PlannedLinks :=
  parents.filterMap fun x =>
    ((s.incomingFates.get? x.2.entity).bind fun f => f.asParent x.2.entity).map fun place => (x.1, place)

namespace Progress

variable {p : Pass} {s : Progress} {i : EntityId} {c : Connection} {t : Track} {parents : List (Connection × Track)}

theorem mem_placesOf_iff {x : PlannedParent} : (c, x) ∈ s.placesOf parents ↔
    ∃ l ∈ parents, l.1 = c ∧ ∃ f, s.incomingFates.get? l.2.entity = some f ∧ f.asParent l.2.entity = some x := by
  simp only [placesOf, List.mem_filterMap, Option.map_eq_some_iff, Option.bind_eq_some_iff, Prod.mk.injEq]
  exact exists_congr fun l => and_congr_right fun _ => ⟨fun ⟨_, hf, hc, hx⟩ => ⟨hc, hx ▸ hf⟩, fun ⟨hc, hf⟩ => ⟨x, hf, hc, rfl⟩⟩

theorem placesOf_sublist (s : Progress) (parents : List (Connection × Track)) :
    ((s.placesOf parents).map Prod.fst).Sublist (parents.map Prod.fst) := by
  induction parents with
  | nil => exact .slnil
  | cons l rest ih =>
    rw [placesOf, List.filterMap_cons]
    cases (s.incomingFates.get? l.2.entity).bind fun f => f.asParent l.2.entity with
    | none => exact ih.cons l.1
    | some x => exact ih.cons_cons l.1

theorem places_placesOf (hof : t.Of p.incoming) (hdecided : ∀ l ∈ t.parents, s.incomingFates.contains l.2.entity = true) :
    s.Places p t.entity (s.placesOf t.parents) where
  decided hlink := by
    obtain ⟨l, hl, -, rfl⟩ := hof.hasLink_iff.1 hlink
    exact hdecided l hl
  mem_iff {c x} := by
    simp only [mem_placesOf_iff, hof.hasLink_iff]
    constructor
    · rintro ⟨l, hl, rfl, f, hf, hx⟩
      exact ⟨l.2.entity, f, ⟨l, hl, rfl, rfl⟩, hf, hx⟩
    · rintro ⟨q, f, ⟨l, hl, rfl, rfl⟩, hf, hx⟩
      exact ⟨l, hl, rfl, f, hf, hx⟩

theorem lost_of_placesOf_eq_nil (hof : t.Of p.incoming)
    (hdecided : ∀ l ∈ t.parents, s.incomingFates.contains l.2.entity = true) (hnil : s.placesOf t.parents = [])
    {q : EntityId} (hlink : p.incoming.HasLink t.entity c q) : s.incomingFates.get? q = some .lost := by
  refine (places_placesOf hof hdecided).lost_of_notMem hlink ?_
  rw [hnil]
  exact List.not_mem_nil

end Progress

namespace Pass

variable {p : Pass} {resolve : Resolver} {addSubtree : Adder} {s : Progress} {t i : EntityId} {links : PlannedLinks}

theorem placeUnder_proceeds (hG : Guided p resolve addSubtree) (hs : s.Explained p) (hsingle : links.Single)
    (hsome : links ≠ []) (hplaces : s.Places p i links) :
    Proceeds p (p.placeUnder addSubtree i links) s fun q s' => s'.PlaceIs i q := by
  refine .looking lookup_ok_iff.1 fun data hd => .looking firstTargetChild_ok fun found hfound => ?_
  cases found with
  | some t =>
    obtain ⟨e, he, hsame⟩ := hfound t rfl
    exact settleIncoming_proceeds fun hrejected =>
      .placed (alike_of_sameContent he hd hsame) hsingle hrejected hplaces
  | none =>
    refine .looking acceptsIncoming_ok_iff.1 fun accepted hacc => ?_
    cases accepted with
    | true =>
      exact .bind (hG.add hs fun _ => .placed hsingle hsome hplaces) fun _ _ _ hf => .pure ⟨_, hf, rfl⟩
    | false => exact .bind (lose_proceeds (.rejected hacc)) fun _ _ _ hf => .pure ⟨_, hf, rfl⟩

theorem onward_targetDone {s' : Progress} (h : Onward p s s') (hd : s.TargetDone p) : s'.TargetDone p := fun t ht =>
  let ⟨f, hf⟩ := SortedMap.contains_iff.1 (hd t ht)
  SortedMap.contains_iff.2 ⟨f, h.target hf⟩

mutual
theorem place_proceeds (hp : p.Consistent) (hG : Guided p resolve addSubtree) : ∀ {t : Track} {s : Progress},
    t.Of p.incoming → s.Explained p → s.TargetDone p →
    Proceeds p (p.place resolve addSubtree t) s fun q s' => s'.PlaceIs t.entity q
  | .node id parents, s, hof, hs, hd => by
    rw [place]
    refine .get_bind ?_
    cases hf : s.incomingFates.get? id with
    | some f => exact .pure ⟨f, hf, rfl⟩
    | none =>
      cases parents with
      | nil => exact (hG.root hs (hof.isRoot_iff.2 rfl)).mono (fun _ _ _ hq => hq.1 hd hf) fun _ h => h
      | cons l rest =>
        have hnodup := hof.connections_nodup hp.incoming
        refine .bind (placeAll_proceeds hp hG hof.above hnodup hs hd) ?_
        rintro links s₁ h₁ ⟨hdecided, rfl⟩
        refine .get_bind ?_
        cases hf₁ : s₁.incomingFates.get? id with
        | some f => exact .pure ⟨f, hf₁, rfl⟩
        | none =>
          dsimp only
          split
          · next hempty =>
            have hnil : s₁.placesOf (l :: rest) = [] := List.isEmpty_iff.1 hempty
            have hnested : ¬p.incoming.IsRoot id := fun hroot => by cases hof.isRoot_iff.1 hroot
            refine .bind (lose_proceeds (.stranded hnested fun hlink => ?_)) fun _ _ _ hf => .pure ⟨_, hf, rfl⟩
            exact lost_of_placesOf_eq_nil hof hdecided hnil hlink
          · next hsome =>
            have hsingle : (s₁.placesOf (l :: rest)).Single := hnodup.sublist (placesOf_sublist s₁ _)
            exact placeUnder_proceeds hG (h₁.explained hs) hsingle (fun hnil => hsome (List.isEmpty_iff.2 hnil))
              (places_placesOf hof hdecided)
/-- Placing parents decides about all of them, and adds links to exactly their places. -/
theorem placeAll_proceeds (hp : p.Consistent) (hG : Guided p resolve addSubtree) : ∀ {l : List (Connection × Track)}
    {links : PlannedLinks} {s : Progress}, (∀ x ∈ l, x.2.Of p.incoming) →
    (links.map Prod.fst ++ l.map Prod.fst).Nodup → s.Explained p → s.TargetDone p →
    Proceeds p (p.placeAll resolve addSubtree links l) s fun links' s' =>
      (∀ x ∈ l, s'.incomingFates.contains x.2.entity = true) ∧ links' = links ++ s'.placesOf l
  | [], links, _, _, _, _, _ => .pure ⟨fun _ h => (by cases h), (List.append_nil links).symm⟩
  | (c, t) :: rest, links, s, hof, hnodup, hs, hd => by
    have hof' : ∀ x ∈ rest, x.2.Of p.incoming := fun x hx => hof x (List.mem_cons_of_mem _ hx)
    rw [placeAll]
    refine .bind (place_proceeds hp hG (hof _ List.mem_cons_self) hs hd) ?_
    rintro q s₁ h₁ ⟨f, hf, rfl⟩
    have hs₁ := h₁.explained hs
    have hd₁ := onward_targetDone h₁ hd
    cases hq : f.asParent t.entity with
    | none =>
      have hnodup' : (links.map Prod.fst ++ rest.map Prod.fst).Nodup :=
        hnodup.sublist ((List.sublist_cons_self ..).append_left _)
      refine (placeAll_proceeds hp hG hof' hnodup' hs₁ hd₁).mono (fun links' s' h' ⟨hdecided, heq⟩ => ?_) fun _ h => h
      have hf' := h'.incoming hf
      refine ⟨List.forall_mem_cons.2 ⟨SortedMap.contains_iff.2 ⟨f, hf'⟩, hdecided⟩, ?_⟩
      rw [heq, placesOf, placesOf, List.filterMap_cons, hf', Option.bind_some, hq]
      rfl
    | some x =>
      have hnew : c ∉ links.map Prod.fst := fun hmem =>
        (List.nodup_append.1 hnodup).2.2 c hmem c List.mem_cons_self rfl
      have hlink : links.link c x = links ++ [(c, x)] := by
        rw [PlannedLinks.link, if_neg]
        simpa using hnew
      have hnodup' : ((links ++ [(c, x)]).map Prod.fst ++ rest.map Prod.fst).Nodup := by
        rwa [List.map_append, List.append_assoc]
      dsimp only
      rw [hlink]
      refine (placeAll_proceeds hp hG hof' hnodup' hs₁ hd₁).mono (fun links' s' h' ⟨hdecided, heq⟩ => ?_) fun _ h => h
      have hf' := h'.incoming hf
      refine ⟨List.forall_mem_cons.2 ⟨SortedMap.contains_iff.2 ⟨f, hf'⟩, hdecided⟩, ?_⟩
      rw [heq, placesOf, placesOf, List.filterMap_cons, hf', Option.bind_some, hq, List.append_assoc]
      rfl
end

/-! ## A whole pass -/

theorem classifyIncoming_proceeds (fuel : Nat) (hp : p.Consistent) (hs : s.Explained p) (hd : s.TargetDone p) :
    Proceeds p (p.classifyIncoming fuel i) s fun _ _ => True := by
  refine .get_bind ?_
  split
  · exact .pure trivial
  · refine .looking track_ok_iff.1 fun track htrack => ?_
    exact .bind (place_proceeds hp (guided hp fuel) (Track.ofGraph_of htrack).1 hs hd) fun _ _ _ _ => .pure trivial

/-- What planning returns is the end of its two halves, with the counts of what it wrote down. -/
theorem planInOrder_run {fuel : Nat} {targetOrder incomingOrder : List EntityId} {o : Outcome}
    (h : p.planInOrder fuel targetOrder incomingOrder = .ok (s, o)) :
    (∃ u, p.classify fuel targetOrder incomingOrder .start = .ok u s) ∧ o.traceLost = s.traceLost := by
  rw [planInOrder] at h
  split at h
  · cases h
  · next u s' hrun =>
    split at h
    · cases h
    · obtain ⟨rfl, rfl⟩ := Prod.mk.inj (Except.ok.inj h)
      exact ⟨⟨u, hrun⟩, rfl⟩

/-- The first half ends with fates for all accepted target entities, each for a reason. -/
theorem firstHalf {fuel : Nat} {targetOrder incomingOrder : List EntityId} {u : PUnit} (hp : p.Consistent)
    (ho : p.Orders targetOrder incomingOrder)
    (h : targetOrder.forM (p.classifyTarget (p.resolveRoot fuel)) .start = .ok u s) :
    Steps p .start s ∧ s.TargetDone p ∧ s.Explained p := by
  have hends := Ends.forM (I := Sound p) (D := fun t s => s.targetFates.contains t = true) Steps.sound
    (fun hs h => hs.targetClassified h) (sound_start p) fun t ht s hs =>
    visitTarget_ends fuel hp hs ((ho.target t).1 ht)
  obtain ⟨hsteps, hdone⟩ := hends.ok h
  have hproceeds : Proceeds p (targetOrder.forM (p.classifyTarget (p.resolveRoot fuel))) .start fun _ _ => True :=
    .forM_keeping (I := Explained p) (fun h hs => h.explained hs) (explained_start p)
      fun _ _ _ hs => classifyTarget_proceeds hp (guided hp fuel) hs
  exact ⟨hsteps, fun t ht => hdone t ((ho.target t).2 ht), (hproceeds.ok h).1.explained (explained_start p)⟩

/-- **When planning returns, everything that it wrote down has a reason.** -/
theorem planInOrder_explained {fuel : Nat} {targetOrder incomingOrder : List EntityId} {o : Outcome} (hp : p.Consistent)
    (ho : p.Orders targetOrder incomingOrder) (h : p.planInOrder fuel targetOrder incomingOrder = .ok (s, o)) :
    s.Explained p := by
  obtain ⟨⟨u, hclassify⟩, -⟩ := planInOrder_run h
  obtain ⟨_, s₁, htarget, hincoming⟩ := bind_ok_iff.1 hclassify
  obtain ⟨-, hd, hs₁⟩ := firstHalf hp ho htarget
  have hsecond : Proceeds p (incomingOrder.forM (p.classifyIncoming fuel)) s₁ fun _ _ => True :=
    .forM_keeping (I := fun s => s.Explained p ∧ s.TargetDone p)
      (fun h hs => ⟨h.explained hs.1, onward_targetDone h hs.2⟩) ⟨hs₁, hd⟩
      fun _ _ _ hs => classifyIncoming_proceeds fuel hp hs.1 hs.2
  exact (hsecond.ok hincoming).1.explained hs₁

end Pass
end Reconciliation
