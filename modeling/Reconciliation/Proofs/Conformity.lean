import Reconciliation.Proofs.Conforming
import Reconciliation.Proofs.Matrix
/-!
# A pass goes by a matching

Roots find their mates, and one without a mate is copied, with everything below it that is accepted; there is no mate
among that, since the parents of a mate have mates.  What is copied along with a parent gets links to the places of its
other parents too, which can be told since they have mates that stay.  Placing decides about the parents first, so its
links lead to their places.  In the end all fates are as the matching has them (`planInOrder_matched`).
-/
namespace Reconciliation

open Relation Progress Planning

namespace Pass

variable {p : Pass} {mates : EntityId → EntityId → Prop} {resolve : Resolver} {addSubtree : Adder} {s s' : Progress}
  {t i : EntityId} {c : Connection} {data : Entity} {links : Option PlannedLinks}

/-! ## Roots -/

theorem findRoot_conforms (hp : p.Consistent) (hM : p.Matching mates) (hs : s.Matched p mates) (root : p.incoming.IsRoot i)
    (hd : p.incoming.entity i = .ok data) : Conforming p mates (p.findRoot data) s fun r _ => ∀ t, r = some t ↔ mates t i := by
  rw [findRoot]
  cases hkey : p.target.schema.naturalKey? data with
  | some key =>
    refine .pure fun t => ⟨fun ht => hM.incoming_root root ⟨data, hd, by rwa [hkey]⟩, fun mate => ?_⟩
    obtain ⟨d, hd', ht⟩ := hM.answers mate root
    obtain rfl := Except.ok.inj (hd.symm.trans hd')
    rwa [hkey] at ht
  | none =>
    have hmate : ∀ {t}, (∃ e, p.target.entity t = .ok e ∧ e.sameContent data = true) ↔ mates t i := fun {t} => by
      refine ⟨fun h => hM.incoming_root root ⟨data, hd, by rwa [hkey]⟩, fun mate => ?_⟩
      obtain ⟨d, hd', ht⟩ := hM.answers mate root
      obtain rfl := Except.ok.inj (hd.symm.trans hd')
      rwa [hkey] at ht
    -- whatever is found is the mate
    have hfound : ∀ {t u}, mates t i → (some t = some u ↔ mates u i) := fun ht =>
      ⟨fun heq => Option.some.inj heq ▸ ht, fun hu => by rw [hM.target_unique ht hu]⟩
    refine .get_bind (.bind (findInTarget_conforms hp hs) ?_)
    rintro found s₁ h₁ ⟨hsome, -⟩
    cases found with
    | some t => exact .pure fun u => hfound (hmate.1 (hsome t rfl))
    | none =>
      refine (findInTarget_conforms hp (h₁.matched hs)).mono ?_ fun _ h => h
      rintro r - - ⟨hsome', hnone⟩ u
      cases r with
      | some t => exact hfound (hmate.1 (hsome' t rfl))
      | none =>
        refine ⟨fun h => (by cases h), fun mate => ?_⟩
        obtain ⟨e, he, hsame⟩ := hmate.2 mate
        rw [hnone rfl u rfl e he] at hsame
        cases hsame

theorem settleIncoming_conforms (hM : p.Matching mates) (mate : mates t i) (fit : p.LinksFit mates i links) :
    Conforming p mates (p.settleIncoming i t links) s fun r _ => p.PlaceOf mates i r := by
  refine .looking acceptsTarget_ok_iff.1 fun targetAccepted htacc => ?_
  cases targetAccepted with
  | true => exact .of_error (throw_run _ s) trivial
  | false =>
    refine .looking acceptsIncoming_ok_iff.1 fun accepted hacc => ?_
    have hplace : p.PlaceOf mates i (some (.target t)) := placeOf_some hM (.mate mate (.inl htacc))
    cases accepted with
    | true => exact .bind (relabel_conforms hM mate hacc fit) fun _ _ _ _ => .pure hplace
    | false => exact .bind (keep_some_conforms hM mate htacc hacc) fun _ _ _ _ => .pure hplace

theorem setIfUnclassified_run {f : IncomingFate} (h : s.incomingFates.contains i = true) :
    setIfUnclassified i f s = .ok () s := by
  rw [setIfUnclassified, Reconciliation.get_bind, if_pos h]
  rfl

theorem settleRoot_conforms (hM : p.Matching mates) (hs : s.Matched p mates) (mate : mates t i)
    (root : p.incoming.IsRoot i) : Conforming p mates (p.settleRoot i t) s fun r _ => p.PlaceOf mates i r := by
  refine .get_bind ?_
  cases hf : s.targetFates.get? t with
  | none => exact settleIncoming_conforms hM mate (linksFit_root root)
  | some f =>
    have hdecided : s.incomingFates.contains i = true := (hs.together mate).1 (SortedMap.contains_iff.2 ⟨f, hf⟩)
    have hstays : p.Stays t i → Conforming p mates (do
        setIfUnclassified i (.kept t)
        return some (.target t)) s fun r _ => p.PlaceOf mates i r := fun stays =>
      .bind_look (setIfUnclassified_run hdecided) (.pure (placeOf_some hM (.mate mate stays)))
    cases hs.target hf with
    | removed accepted rejected =>
      exact .bind_look (setIfUnclassified_run hdecided)
        (.pure (placeOf_none fun _ => not_hasPlace_of_removed hM mate accepted (rejected mate)))
    | relabelled mate' accepted _ => exact hstays (.inr (hM.incoming_unique mate mate' ▸ accepted))
    | kept _ rejected _ => exact hstays (.inl rejected)
    | unpaired _ free => exact absurd mate (free i)

theorem resolveRootWith_conforms (hp : p.Consistent) (hM : p.Matching mates) (hA : p.Apt mates resolve addSubtree)
    (hs : s.Matched p mates) (root : p.incoming.IsRoot i) :
    Conforming p mates (p.resolveRootWith resolve addSubtree i) s fun r _ => p.PlaceOf mates i r := by
  refine .looking lookup_ok_iff.1 fun data hd => .bind (findRoot_conforms hp hM hs root hd) fun found s₁ h₁ hfound => ?_
  have hs₁ := h₁.matched hs
  cases found with
  | none =>
    have free : ∀ t, ¬mates t i := fun t ht => by cases (hfound t).2 ht
    refine .looking acceptsIncoming_ok_iff.1 fun accepted hacc => ?_
    cases accepted with
    | true =>
      have hplace : p.HasPlace mates i (.added i) := .root root hacc free
      exact .bind (hA.add hs₁ hacc free (linksFit_root root) hplace) fun _ _ _ _ => .pure (placeOf_some hM hplace)
    | false =>
      have hplace : p.PlaceOf mates i none := placeOf_none fun _ => not_hasPlace_of_rejected free hacc
      exact .bind (setIncomingFate_conforms (f := .lost) free hplace) fun _ _ _ _ => .pure hplace
  | some t =>
    have mate := (hfound t).1 rfl
    refine .get_bind (.looking acceptsTarget_ok_iff.1 fun accepted hacc => ?_)
    dsimp only
    split
    · next hcond =>
      obtain ⟨-, rfl⟩ : s₁.targetFates.contains t = false ∧ accepted = true := by simpa using hcond
      exact .bind (classifyTarget_conforms hp hM hA hs₁ hacc) fun _ s₂ h₂ _ =>
        settleRoot_conforms hM (h₂.matched hs₁) mate root
    · exact settleRoot_conforms hM hs₁ mate root

/-! ## Additions -/

theorem findable_parents (hM : p.Matching mates) {k : EntityId} (accepted : p.IncomingIs true k) (free : ∀ t, ¬mates t k)
    (hlink : p.incoming.HasLink k c i) (free' : ∀ t, ¬mates t i) (hdecided : s.incomingFates.contains i = true)
    {c' : Connection} {j : EntityId} (hlink' : p.incoming.HasLink k c' j) : p.Findable mates s j := by
  by_cases heq : (c, i) = (c', j)
  · exact .inl ((Prod.mk.inj heq).2 ▸ hdecided)
  · exact .inr (hM.alone_parent accepted free hlink free' hlink' heq)

theorem copyChild_conforms (hp : p.Consistent) (hM : p.Matching mates) (hA : p.Apt mates resolve addSubtree)
    (hs : s.Matched p mates) {track : Track} (hof : track.Of p.incoming) (accepted : p.IncomingIs true track.entity)
    (free : ∀ t, ¬mates t track.entity) (hlink : p.incoming.HasLink track.entity c i) (free' : ∀ t, ¬mates t i)
    (hdecided : s.incomingFates.contains i = true) (place : p.HasPlace mates i (.added i)) :
    Conforming p mates (p.copyChild resolve addSubtree i (c, track.entity) track.parents) s fun _ _ => True := by
  refine .get_bind ?_
  split
  · exact .pure trivial
  · have hsub : track.parents.filter (fun t => t.2.entity ≠ i) ⊆ track.parents := List.filter_sublist.subset
    have hfind : ∀ x ∈ track.parents.filter fun t => t.2.entity ≠ i, p.Findable mates s x.2.entity := fun x hx =>
      findable_parents hM accepted free hlink free' hdecided (hof.hasLink_iff.2 ⟨x, hsub hx, rfl, rfl⟩)
    refine .bind (locateAll_conforms hp hM hA (fun x hx => hof.above x (hsub hx)) hs hfind) fun l s₁ h₁ hfound => ?_
    have hfit : p.LinksFit mates track.entity (some l) := by
      refine hfound.fit hp.incoming hM hof hsub (fun {c' x} hmem => ?_) fun {c' j} hlink' => ?_
      · obtain ⟨rfl, rfl⟩ : c' = c ∧ x = .added i := by simpa [PlannedLinks.link] using hmem
        exact ⟨i, hlink, place⟩
      · by_cases hji : j = i
        · subst hji
          by_cases hcc : (c, j) = (c', j)
          · exact .inr (by simp [PlannedLinks.link, (Prod.mk.inj hcc).1])
          · obtain ⟨u, hu, -⟩ := hM.alone_parent accepted free hlink free' hlink' hcc
            exact absurd hu (free' u)
        · obtain ⟨x, hx, rfl, rfl⟩ := hof.hasLink_iff.1 hlink'
          exact .inl (List.mem_map_of_mem (List.mem_filter.2 ⟨hx, decide_eq_true hji⟩))
    exact (hA.add (h₁.matched hs) accepted free hfit (.child hlink place accepted free)).mono (fun _ _ _ _ => trivial)
      fun _ h => h

theorem addChild_conforms (hp : p.Consistent) (hM : p.Matching mates) (hA : p.Apt mates resolve addSubtree)
    (hs : s.Matched p mates) {l : Link} (hlink : p.incoming.HasLink l.2 l.1 i) (free : ∀ t, ¬mates t i)
    (hdecided : s.incomingFates.contains i = true) (place : p.HasPlace mates i (.added i)) :
    Conforming p mates (p.addChild resolve addSubtree i l) s fun _ _ => True := by
  -- the parents of a mate have mates
  have free' : ∀ t, ¬mates t l.2 := fun t ht =>
    let ⟨u, hu, _⟩ := hM.above ht hlink
    free u hu
  refine .get_bind ?_
  split
  · exact .pure trivial
  refine .looking acceptsIncoming_ok_iff.1 fun accepted hacc => ?_
  cases accepted with
  | false =>
    exact (setIncomingFate_conforms (f := .lost) free' (placeOf_none fun _ => not_hasPlace_of_rejected free' hacc)).mono
      (fun _ _ _ _ => trivial) fun _ h => h
  | true =>
    refine .looking track_ok_iff.1 fun track htrack => ?_
    obtain ⟨hof, hentity⟩ := Track.ofGraph_of htrack
    obtain ⟨c, k⟩ := l
    subst hentity
    have hfind : ∀ x ∈ track.parents, p.Findable mates s x.2.entity := fun x hx =>
      findable_parents hM hacc free' hlink free hdecided (hof.hasLink_iff.2 ⟨x, hx, rfl, rfl⟩)
    refine .bind (locate_conforms hp hM hA hof hs (.inr hfind)) fun q s₁ h₁ _ => ?_
    obtain ⟨f, hf⟩ := SortedMap.contains_iff.1 hdecided
    have hcopy := copyChild_conforms hp hM hA (h₁.matched hs) hof hacc free' hlink free
      (SortedMap.contains_iff.2 ⟨f, h₁.incoming hf⟩) place
    cases q with
    | none => exact hcopy
    | some q =>
      cases q with
      | target u => exact .pure trivial
      | added j => exact hcopy

theorem addSubtreeWith_conforms (hp : p.Consistent) (hM : p.Matching mates) (hA : p.Apt mates resolve addSubtree)
    (hs : s.Matched p mates) (free : ∀ t, ¬mates t i) (fit : p.LinksFit mates i links)
    (place : p.HasPlace mates i (.added i)) :
    Conforming p mates (p.addSubtreeWith resolve addSubtree links i) s fun _ s' => s'.incomingFates.contains i = true := by
  refine .get_bind ?_
  cases hf : s.incomingFates.get? i with
  | some f =>
    cases f with
    | added => exact .pure (SortedMap.contains_iff.2 ⟨_, hf⟩)
    | kept | relabels | lost => exact .of_error (throw_run _ s) trivial
  | none =>
    have hi : p.incoming.contains i = true := (place.of_free free).2.contains
    refine .bind (add_conforms hM free fit place) fun _ s₁ h₁ hadded => ?_
    refine .bind_look (lookup_run (Graph.children_eq hi) _) ?_
    have hkeep : ∀ {s s' : Progress}, Conforms p mates s s' → s.incomingFates.contains i = true →
        s'.incomingFates.contains i = true := fun h hs =>
      let ⟨f, hf⟩ := SortedMap.contains_iff.1 hs
      SortedMap.contains_iff.2 ⟨f, h.incoming hf⟩
    have hloop : Conforming p mates ((p.incoming.childLinks i).forM (p.addChild resolve addSubtree i)) s₁ fun _ _ => True :=
      .forM_keeping (I := fun s => s.Matched p mates ∧ s.incomingFates.contains i = true)
        (fun h hI => ⟨h.matched hI.1, hkeep h hI.2⟩) ⟨h₁.matched hs, hadded⟩
        fun l hl s hI => addChild_conforms hp hM hA hI.1 (Graph.mem_childLinks_iff.1 hl) free hI.2 place
    exact hloop.mono (fun _ _ h _ => hkeep h hadded) fun _ h => h

/-- **With every amount of fuel roots and additions go by the matching.** -/
theorem apt (hp : p.Consistent) (hM : p.Matching mates) : ∀ fuel : Nat, p.Apt mates (p.resolveRoot fuel) (p.addSubtree fuel)
  | 0 => ⟨fun {_ s} _ _ => .of_error (throw_run _ s) trivial, fun {_ _ s} _ _ _ _ _ => .of_error (throw_run _ s) trivial⟩
  | fuel + 1 =>
    ⟨fun hs root => resolveRootWith_conforms hp hM (apt hp hM fuel) hs root,
     fun hs _ free fit place => addSubtreeWith_conforms hp hM (apt hp hM fuel) hs free fit place⟩

/-! ## Placing -/

theorem placeUnder_conforms (hM : p.Matching mates) (hA : p.Apt mates resolve addSubtree)
    (hs : s.Matched p mates) (nested : ¬p.incoming.IsRoot i) (hi : s.incomingFates.get? i = none) {l : PlannedLinks}
    (fit : p.LinksFit mates i (some l)) (hsome : l ≠ []) :
    Conforming p mates (p.placeUnder addSubtree i l) s fun r _ => p.PlaceOf mates i r := by
  refine .looking lookup_ok_iff.1 fun data hd => ?_
  refine .look (fun h => ⟨firstTargetChild_mate hM hs nested hi hd fit h, (firstTargetChild_ok h).2⟩) (fun _ => trivial) ?_
  intro found hfound
  cases found with
  | some t => exact settleIncoming_conforms hM ((hfound t).1 rfl) fit
  | none =>
    have free : ∀ t, ¬mates t i := fun t ht => by cases (hfound t).2 ht
    refine .looking acceptsIncoming_ok_iff.1 fun accepted hacc => ?_
    cases accepted with
    | true =>
      obtain ⟨⟨c, q⟩, hmem⟩ := List.exists_mem_of_ne_nil l hsome
      obtain ⟨j, hlink, hplace⟩ := (fit c q).1 hmem
      have hself : p.HasPlace mates i (.added i) := .child hlink hplace hacc free
      exact .bind (hA.add hs hacc free fit hself) fun _ _ _ _ => .pure (placeOf_some hM hself)
    | false =>
      have hplace : p.PlaceOf mates i none := placeOf_none fun _ => not_hasPlace_of_rejected free hacc
      exact .bind (setIncomingFate_conforms (f := .lost) free hplace) fun _ _ _ _ => .pure hplace

theorem LinksFit.free (hM : p.Matching mates) (nested : ¬p.incoming.IsRoot i) (fit : p.LinksFit mates i (some [])) :
    (∀ t, ¬mates t i) ∧ p.PlaceOf mates i none := by
  have hnone : ∀ {c j q}, p.incoming.HasLink i c j → ¬p.HasPlace mates j q := fun hlink hplace => by
    cases (fit _ _).2 ⟨_, hlink, hplace⟩
  have free : ∀ t, ¬mates t i := fun t mate => by
    obtain ⟨c, u, j, -, hlink, -⟩ := hM.shared mate nested
    obtain ⟨u', -, hplace⟩ := hM.place_above mate hlink
    exact hnone hlink hplace
  refine ⟨free, placeOf_none fun q hplace => ?_⟩
  cases hplace with
  | mate mate _ => exact free _ mate
  | root root _ _ => exact nested root
  | child hlink parent _ _ => exact hnone hlink parent

mutual
theorem place_conforms (hp : p.Consistent) (hM : p.Matching mates) (hA : p.Apt mates resolve addSubtree) : ∀ {t : Track}
    {s : Progress}, t.Of p.incoming → s.Matched p mates →
    Conforming p mates (p.place resolve addSubtree t) s fun r _ => p.PlaceOf mates t.entity r
  | .node id parents, s, hof, hs => by
    rw [place]
    refine .get_bind ?_
    cases hf : s.incomingFates.get? id with
    | some f => exact .pure fun _ => hs.incoming hf
    | none =>
      cases parents with
      | nil => exact hA.root hs (hof.isRoot_iff.2 rfl)
      | cons l rest =>
        have hnested : ¬p.incoming.IsRoot id := fun hroot => by cases hof.isRoot_iff.1 hroot
        refine .bind (placeAll_conforms hp hM hA hof.above hs) fun links s₁ h₁ hfound => .get_bind ?_
        have hs₁ := h₁.matched hs
        have hfit := hfound.fit_all hp.incoming hM hof
        cases hf₁ : s₁.incomingFates.get? id with
        | some f => exact .pure fun _ => hs₁.incoming hf₁
        | none =>
          dsimp only
          split
          · next hempty =>
            rw [List.isEmpty_iff.1 hempty] at hfit
            obtain ⟨free, hplace⟩ := hfit.free hM hnested
            exact .bind (setIncomingFate_conforms (f := .lost) free hplace) fun _ _ _ _ => .pure hplace
          · next hsome =>
            exact placeUnder_conforms hM hA hs₁ hnested hf₁ hfit fun hnil => hsome (List.isEmpty_iff.2 hnil)
theorem placeAll_conforms (hp : p.Consistent) (hM : p.Matching mates) (hA : p.Apt mates resolve addSubtree) :
    ∀ {l : List (Connection × Track)} {links : PlannedLinks} {s : Progress}, (∀ x ∈ l, x.2.Of p.incoming) →
    s.Matched p mates → Conforming p mates (p.placeAll resolve addSubtree links l) s fun links' _ => p.Found mates links l links'
  | [], _, _, _, _ => .pure ⟨List.Subset.refl _, .inl, fun h => by cases h⟩
  | (c, t) :: rest, links, s, hof, hs => by
    rw [placeAll]
    refine .bind (place_conforms hp hM hA (hof _ List.mem_cons_self) hs) fun q s₁ h₁ hq => ?_
    have hrest {links : PlannedLinks} : Conforming p mates (p.placeAll resolve addSubtree links rest) s₁
        fun links' _ => p.Found mates links rest links' := placeAll_conforms hp hM hA
      (fun x hx => hof x (List.mem_cons_of_mem _ hx)) (h₁.matched hs)
    cases q with
    | none => exact hrest.mono (fun _ _ _ h => .cons hq h) fun _ h => h
    | some q => exact hrest.mono (fun _ _ _ h => .cons hq h) fun _ h => h
end

theorem classifyIncoming_conforms (fuel : Nat) (hp : p.Consistent) (hM : p.Matching mates) (hs : s.Matched p mates) :
    Conforming p mates (p.classifyIncoming fuel i) s fun _ _ => True := by
  refine .get_bind ?_
  split
  · exact .pure trivial
  · refine .looking track_ok_iff.1 fun track htrack => ?_
    exact .bind (place_conforms hp hM (apt hp hM fuel) (Track.ofGraph_of htrack).1 hs) fun _ _ _ _ => .pure trivial

/-! ## A whole pass -/

theorem targets_matched {fuel : Nat} {order : List EntityId} {u : PUnit} (hp : p.Consistent) (hM : p.Matching mates)
    (haccepted : ∀ t ∈ order, p.TargetIs true t)
    (h : order.forM (p.classifyTarget (p.resolveRoot fuel)) .start = .ok u s) : s.Matched p mates := by
  have hends : Conforming p mates (order.forM (p.classifyTarget (p.resolveRoot fuel))) .start fun _ _ => True :=
    .forM_keeping (I := fun s => s.Matched p mates) (fun h hs => h.matched hs) (matched_start p mates)
      fun t ht _ hs => classifyTarget_conforms hp hM (apt hp hM fuel) hs (haccepted t ht)
  exact (hends.ok h).1.matched (matched_start p mates)

/-- **Planning goes by an unambiguous matching**, in whatever order. -/
theorem planInOrder_matched {fuel : Nat} {targetOrder incomingOrder : List EntityId} {o : Outcome} (hp : p.Consistent)
    (hM : p.Matching mates) (ho : p.Orders targetOrder incomingOrder)
    (h : p.planInOrder fuel targetOrder incomingOrder = .ok (s, o)) : s.Matched p mates := by
  obtain ⟨⟨u, hclassify⟩, -⟩ := planInOrder_run h
  obtain ⟨_, s₁, htarget, hincoming⟩ := bind_ok_iff.1 hclassify
  have hs₁ := targets_matched hp hM (fun t => (ho.target t).1) htarget
  have hsecond : Conforming p mates (incomingOrder.forM (p.classifyIncoming fuel)) s₁ fun _ _ => True :=
    .forM_keeping (I := fun s => s.Matched p mates) (fun h hs => h.matched hs) hs₁
      fun _ _ _ hs => classifyIncoming_conforms fuel hp hM hs
  exact (hsecond.ok hincoming).1.matched hs₁

end Pass

/-! ## The plan -/

/-- **A plan that goes by a matching**: the mates of accepted incoming entities take over their data, accepted target
entities without such a mate are removed, and copied is what has its place at its copy.  All links lead to the places of
parents. -/
structure Plan.Follows (p : Pass) (mates : EntityId → EntityId → Prop) (plan : Plan) : Prop where
  relabel_iff : ∀ {t i}, (∃ links, plan.operations.get? t = some (.relabel i links)) ↔ mates t i ∧ p.IncomingIs true i
  relabel_fit : ∀ {t i links}, plan.operations.get? t = some (.relabel i links) → p.LinksFit mates i links
  remove_iff : ∀ {t}, plan.operations.get? t = some .remove ↔
    p.TargetIs true t ∧ ∀ {i}, mates t i → p.IncomingIs false i
  add_iff : ∀ {i}, i ∈ plan.additions.map Addition.incoming ↔ p.HasPlace mates i (.added i)
  add_fit : ∀ {a}, a ∈ plan.additions → p.LinksFit mates a.incoming a.links

namespace Progress

variable {p : Pass} {mates : EntityId → EntityId → Prop} {s : Progress} {t i : EntityId}

theorem Matched.relabelled (hM : p.Matching mates) (hs : s.Matched p mates) (mate : mates t i)
    (accepted : p.IncomingIs true i) (hdecided : s.incomingFates.contains i = true) :
    ∃ links, s.targetFates.get? t = some (.relabelled i links) := by
  obtain ⟨f, hf⟩ := SortedMap.contains_iff.1 ((hs.together mate).2 hdecided)
  cases hs.target hf with
  | relabelled mate' _ _ => exact ⟨_, hM.incoming_unique mate mate' ▸ hf⟩
  | removed _ rejected => cases accepted.unique (rejected mate)
  | kept mate' _ rejected => cases accepted.unique (hM.incoming_unique mate mate' ▸ rejected)
  | unpaired _ free => exact absurd mate (free i)

end Progress

theorem Pass.planInOrder_follows {p : Pass} {mates : EntityId → EntityId → Prop} {s : Progress} {fuel : Nat}
    {targetOrder incomingOrder : List EntityId} {o : Outcome} (hp : p.Consistent) (hM : p.Matching mates)
    (ho : p.Orders targetOrder incomingOrder) (h : p.planInOrder fuel targetOrder incomingOrder = .ok (s, o)) :
    o.plan.Follows p mates := by
  obtain ⟨hsteps, hdone, hincoming, hadd, hop⟩ := planInOrder_ok hp ho h
  have hs := hsteps.sound (sound_start p)
  have hmatched := planInOrder_matched hp hM ho h
  constructor
  case relabel_iff =>
    intro t i
    rw [hop]
    constructor
    · rintro ⟨links, ht⟩
      cases hmatched.target (hs.relabelled_of_operation ht) with
      | relabelled mate accepted _ => exact ⟨mate, accepted⟩
    · rintro ⟨mate, accepted⟩
      obtain ⟨links, hf⟩ := hmatched.relabelled hM mate accepted (hincoming i accepted)
      exact ⟨links, by rw [hs.operation, hf]; rfl⟩
  case relabel_fit =>
    intro t i links ht
    rw [hop] at ht
    cases hmatched.target (hs.relabelled_of_operation ht) with
    | relabelled _ _ fit => exact fit
  case remove_iff =>
    intro t
    rw [hop]
    constructor
    · intro ht
      obtain ⟨f, hf, hfate⟩ := hs.fate_of_operation ht
      cases hmatched.target hf with
      | removed accepted rejected => exact ⟨accepted, rejected⟩
      | relabelled | kept | unpaired => cases hfate
    · rintro ⟨accepted, rejected⟩
      obtain ⟨f, hf⟩ := SortedMap.contains_iff.1 (hdone t accepted)
      rw [hs.operation, hf]
      cases hmatched.target hf with
      | removed => rfl
      | relabelled mate accepted' _ => cases accepted'.unique (rejected mate)
      | kept _ rejected' _ | unpaired rejected' _ => cases accepted.unique rejected'
  case add_iff =>
    intro i
    rw [hadd, hs.addition]
    constructor
    · exact fun hf => (hmatched.incoming hf).1 rfl
    · intro hplace
      obtain ⟨f, hf⟩ := SortedMap.contains_iff.1 (hincoming i hplace.of_added.1)
      have hplace' := (hmatched.incoming hf).2 hplace
      cases f with
      | added => exact hf
      | kept | relabels | lost => cases hplace'
  case add_fit =>
    intro a ha
    exact hmatched.added (hadd ▸ ha)

end Reconciliation
