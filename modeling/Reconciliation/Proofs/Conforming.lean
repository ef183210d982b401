import Reconciliation.Proofs.Matching
/-!
# Planning goes by a matching

Where the matching of two graphs is unambiguous planning goes by it, in whatever order it visits them
(`planInOrder_matched`).  Every search finds the mate: one that finds something finds nothing else, and the mate is among
what it looks at, since its own parents were paired before.  So the fates that are written down are the ones that the
matching has, and what is looked up on the way has the place that it is going to have.

As in the code, what is needed of roots and additions comes in as an argument (`Apt`) and is supplied by induction on the
fuel (`apt`).
-/
namespace Reconciliation

open Relation Progress Planning

/-- **A computation that succeeds goes by a matching**, and ends with `post`. -/
abbrev Planning.Conforming {α : Type} (p : Pass) (mates : EntityId → EntityId → Prop) (x : Planning α) (s : Progress)
    (post : α → Progress → Prop) : Prop := Leads (Progress.Conforms p mates) x s post fun _ => True

namespace Pass

/-- What is found for a target entity is its mate, if they stay. -/
def CounterpartIs (p : Pass) (mates : EntityId → EntityId → Prop) (t : EntityId) (r : Option EntityId) : Prop :=
  ∀ i, r = some i ↔ mates t i ∧ p.Stays t i

/-- What is found for an incoming entity is the place that it is going to have. -/
def PlaceOf (p : Pass) (mates : EntityId → EntityId → Prop) (i : EntityId) (r : Option PlannedParent) : Prop :=
  ∀ q, r = some q ↔ p.HasPlace mates i q

variable {p : Pass} {mates : EntityId → EntityId → Prop} {resolve : Resolver} {addSubtree : Adder} {s s' : Progress}
  {t u i j : EntityId} {c : Connection} {data : Entity} {links : Option PlannedLinks}

theorem counterpartIs_some (hM : p.Matching mates) (mate : mates t i) (stays : p.Stays t i) :
    p.CounterpartIs mates t (some i) := fun _ =>
  ⟨fun h => Option.some.inj h ▸ ⟨mate, stays⟩, fun h => congrArg some (hM.incoming_unique mate h.1)⟩

theorem counterpartIs_none (h : ∀ i, mates t i → ¬p.Stays t i) : p.CounterpartIs mates t none := fun i =>
  ⟨fun h => (by cases h), fun hi => absurd hi.2 (h i hi.1)⟩

theorem placeOf_some (hM : p.Matching mates) {q : PlannedParent} (h : p.HasPlace mates i q) : p.PlaceOf mates i (some q) :=
  fun _ => ⟨fun heq => Option.some.inj heq ▸ h, fun h' => congrArg some (h.unique hM h')⟩

theorem placeOf_none (h : ∀ q, ¬p.HasPlace mates i q) : p.PlaceOf mates i none := fun q =>
  ⟨fun h => (by cases h), fun hq => absurd hq (h q)⟩

theorem Stays.not_of_removed (hacc : p.TargetIs true t) (hrej : p.IncomingIs false i) : ¬p.Stays t i := by
  rintro (h | h)
  · cases h.unique hacc
  · cases h.unique hrej

theorem TargetFits.counterpartIs {f : TargetFate} (hM : p.Matching mates) (h : p.TargetFits mates t f) :
    p.CounterpartIs mates t f.counterpart := by
  cases h with
  | relabelled mate accepted _ => exact counterpartIs_some hM mate (.inr accepted)
  | removed accepted rejected => exact counterpartIs_none fun _ mate => Stays.not_of_removed accepted (rejected mate)
  | kept mate rejected _ => exact counterpartIs_some hM mate (.inl rejected)
  | unpaired _ free => exact counterpartIs_none fun i mate => absurd mate (free i)

/-! ## Decisions -/

theorem relabel_conforms (hM : p.Matching mates) (mate : mates t i) (accepted : p.IncomingIs true i)
    (fit : p.LinksFit mates i links) : Conforming p mates (relabel t i links) s fun _ _ => True :=
  .of_success fun h => by
    obtain ⟨-, -, hi, rfl⟩ := relabel_ok_iff.1 h
    have hpair := conforms_pair (s := s.schedule t (.relabel i links)) (g := .relabels t) hM mate hi
      (.relabelled mate accepted fit) fun {q} => placeOf_some hM (.mate mate (.inr accepted)) q
    exact ⟨trans_of _ (conforms_schedule s t (.relabel i links)) hpair, trivial⟩

theorem remove_none_conforms (free : ∀ i, ¬mates t i) (accepted : p.TargetIs true t) :
    Conforming p mates (remove t none) s fun _ _ => True :=
  .of_success fun h => by
    obtain ⟨-, -, rfl⟩ := remove_none_ok_iff.1 h
    have htarget := conforms_setTarget (s := s.schedule t .remove) free (.removed accepted fun mate => absurd mate (free _))
    exact ⟨trans_of _ (conforms_schedule s t .remove) htarget, trivial⟩

theorem remove_some_conforms (hM : p.Matching mates) (mate : mates t i) (accepted : p.TargetIs true t)
    (rejected : p.IncomingIs false i) : Conforming p mates (remove t (some i)) s fun _ _ => True :=
  .of_success fun h => by
    obtain ⟨-, -, hi, rfl⟩ := remove_some_ok_iff.1 h
    have hpair := conforms_pair (s := s.schedule t .remove) (g := .lost) hM mate hi
      (.removed accepted fun mate' => hM.incoming_unique mate mate' ▸ rejected)
      fun {q} => placeOf_none (fun _ => not_hasPlace_of_removed hM mate accepted rejected) q
    exact ⟨trans_of _ (conforms_schedule s t .remove) hpair, trivial⟩

theorem keep_none_conforms (free : ∀ i, ¬mates t i) (rejected : p.TargetIs false t) :
    Conforming p mates (keep t none) s fun _ _ => True :=
  .of_success fun h => by
    obtain ⟨-, rfl⟩ := keep_none_ok_iff.1 h
    exact ⟨conforms_setTarget free (.unpaired rejected free), trivial⟩

theorem keep_some_conforms (hM : p.Matching mates) (mate : mates t i) (rejected : p.TargetIs false t)
    (rejected' : p.IncomingIs false i) : Conforming p mates (keep t (some i)) s fun _ _ => True :=
  .of_success fun h => by
    obtain ⟨-, hi, rfl⟩ := keep_some_ok_iff.1 h
    have hpair := conforms_pair (s := s) (g := .kept t) hM mate hi (.kept mate rejected rejected')
      fun {q} => placeOf_some hM (.mate mate (.inl rejected)) q
    exact ⟨hpair, trivial⟩

theorem setIncomingFate_conforms {f : IncomingFate} (free : ∀ t, ¬mates t i) (place : p.PlaceOf mates i (f.asParent i)) :
    Conforming p mates (setIncomingFate i f) s fun _ s' => s'.incomingFates.contains i = true :=
  .of_success fun h => by
    obtain ⟨hi, rfl⟩ := setIncomingFate_ok_iff.1 h
    exact ⟨conforms_setIncoming free hi fun {q} => place q, SortedMap.contains_insert_self⟩

theorem add_conforms (hM : p.Matching mates) (free : ∀ t, ¬mates t i) (fit : p.LinksFit mates i links)
    (place : p.HasPlace mates i (.added i)) :
    Conforming p mates (add links i) s fun _ s' => s'.incomingFates.contains i = true :=
  .of_success fun h => by
    obtain ⟨hi, rfl⟩ := add_ok_iff.1 h
    have hincoming := conforms_setIncoming (s := s.addition ⟨links, i⟩) (g := .added) free hi
      fun {q} => placeOf_some hM place q
    exact ⟨trans_of _ (conforms_addition fit) hincoming, SortedMap.contains_insert_self⟩

/-! ## Pairs -/

theorem unpaired_conforms (free : ∀ i, ¬mates t i) :
    Conforming p mates (p.unpaired t) s fun r _ => p.CounterpartIs mates t r := by
  have hnone : p.CounterpartIs mates t none := counterpartIs_none fun i hi => absurd hi (free i)
  refine .looking acceptsTarget_ok_iff.1 fun accepted hacc => ?_
  cases accepted with
  | true => exact .bind (remove_none_conforms free hacc) fun _ _ _ _ => .pure hnone
  | false => exact .bind (keep_none_conforms free hacc) fun _ _ _ _ => .pure hnone

theorem unpaired_of_decided {post : Option EntityId → Progress → Prop} (ht : s.targetFates.contains t = true) :
    Conforming p mates (p.unpaired t) s post := by
  refine .looking acceptsTarget_ok_iff.1 fun accepted _ => ?_
  have hfail : ∀ {x : Planning Unit}, (∀ {s'}, x s = .ok () s' → s.targetFates.get? t = none) →
      Conforming p mates (do
        x
        return none) s post := fun hx => .of_success fun h => by
    obtain ⟨_, _, h, -⟩ := bind_ok_iff.1 h
    rw [SortedMap.contains_eq_false_iff.2 (hx h)] at ht
    cases ht
  cases accepted with
  | true => exact hfail fun h => (remove_none_ok_iff.1 h).2.1
  | false => exact hfail fun h => (keep_none_ok_iff.1 h).1

theorem settlePair_conforms (hM : p.Matching mates) (mate : mates t i) (fit : p.LinksFit mates i links) :
    Conforming p mates (p.settlePair t i links) s fun r _ => p.CounterpartIs mates t r := by
  refine .looking acceptsTarget_ok_iff.1 fun targetAccepted htacc => .looking acceptsIncoming_ok_iff.1 fun accepted hacc => ?_
  cases accepted with
  | true =>
    exact .bind (relabel_conforms hM mate hacc fit) fun _ _ _ _ => .pure (counterpartIs_some hM mate (.inr hacc))
  | false =>
    cases targetAccepted with
    | true =>
      refine .bind (remove_some_conforms hM mate htacc hacc) fun _ _ _ _ => .pure (counterpartIs_none fun k hk => ?_)
      exact hM.incoming_unique mate hk ▸ Stays.not_of_removed htacc hacc
    | false =>
      exact .bind (keep_some_conforms hM mate htacc hacc) fun _ _ _ _ => .pure (counterpartIs_some hM mate (.inl htacc))

theorem findInIncoming_conforms (hp : p.Consistent) (hs : s.Matched p mates) {skip : EntityId → Bool} :
    Conforming p mates (p.findInIncoming data skip) s fun r _ =>
      (∀ i, r = some i → ∃ d, p.incoming.entity i = .ok d ∧ d.sameContent data = true) ∧
      (r = none → ∀ i, skip i = false → ∀ d, p.incoming.entity i = .ok d → d.sameContent data = false) := by
  refine .of_success fun h => ?_
  simp only [findInIncoming, get_bind, modify_bind] at h
  obtain ⟨hfound, rfl⟩ := lookup_ok_iff.1 h
  refine ⟨conforms_incomingIndex s data, fun i hi => ?_, fun hnone =>
    hs.incomingIndex.findByContent_none hp.incoming (hnone ▸ hfound)⟩
  subst hi
  rw [hs.incomingIndex.findByContent_eq] at hfound
  exact (Graph.firstMatch_some hfound).2.2

theorem findInTarget_conforms (hp : p.Consistent) (hs : s.Matched p mates) {skip : EntityId → Bool} :
    Conforming p mates (p.findInTarget data skip) s fun r _ =>
      (∀ t, r = some t → ∃ e, p.target.entity t = .ok e ∧ e.sameContent data = true) ∧
      (r = none → ∀ t, skip t = false → ∀ e, p.target.entity t = .ok e → e.sameContent data = false) := by
  refine .of_success fun h => ?_
  simp only [findInTarget, get_bind, modify_bind] at h
  obtain ⟨hfound, rfl⟩ := lookup_ok_iff.1 h
  refine ⟨conforms_targetIndex s data, fun i hi => ?_, fun hnone =>
    hs.targetIndex.findByContent_none hp.target (hnone ▸ hfound)⟩
  subst hi
  rw [hs.targetIndex.findByContent_eq] at hfound
  exact (Graph.firstMatch_some hfound).2.2

theorem settleRootPair_conforms (hM : p.Matching mates) (root : p.target.IsRoot t) {found : Option EntityId}
    (hsome : ∀ i, found = some i → mates t i) (hnone : found = none → ∀ i, ¬mates t i) :
    Conforming p mates (p.settleRootPair t found) s fun r _ => p.CounterpartIs mates t r := by
  cases found with
  | none => exact unpaired_conforms (hnone rfl)
  | some i => exact settlePair_conforms hM (hsome i rfl) (linksFit_root ((hM.root_iff (hsome i rfl)).1 root))

theorem pairRoot_conforms (hp : p.Consistent) (hM : p.Matching mates) (busy : p.Busy t) (root : p.target.IsRoot t)
    (hs : s.Matched p mates) (ht : s.targetFates.get? t = none) :
    Conforming p mates (p.pairRoot t) s fun r _ => p.CounterpartIs mates t r := by
  -- the mate answers, and it has no fate yet
  have hanswers : ∀ {i}, mates t i → p.Answers t i ∧ s.incomingFates.contains i = false := fun hi =>
    ⟨hM.answers hi ((hM.root_iff hi).1 root), SortedMap.contains_eq_false_iff.2 (hs.free hi ht)⟩
  refine .looking lookup_ok_iff.1 fun e he => .get_bind ?_
  cases hkey : p.target.schema.naturalKey? e with
  | none =>
    refine .bind (findInIncoming_conforms hp hs) fun found s₁ _ h =>
      settleRootPair_conforms hM root (fun i hi => ?_) fun hfound i hi => ?_
    · obtain ⟨d, hd, hsame⟩ := h.1 i hi
      have hkeys := naturalKey?_congr p.target.schema (sameContent_iff.1 hsame).1 (sameContent_iff.1 hsame).2
      exact hM.target_root root busy ((answers_iff hp).2 ⟨e, d, he, hd, hkeys.symm, fun _ => sameContent_comm hsame⟩)
    · obtain ⟨hans, hfree⟩ := hanswers hi
      obtain ⟨e', d, he', hd, hkeys, hsame⟩ := (answers_iff hp).1 hans
      obtain rfl := Except.ok.inj (he.symm.trans he')
      have hnot := h.2 hfound i hfree d hd
      rw [sameContent_comm (hsame (hkeys ▸ hkey))] at hnot
      cases hnot
  | some key =>
    refine .bind_look (pure_run _ s) (settleRootPair_conforms hM root (fun i hi => ?_) fun hfound i hi => ?_)
    · obtain ⟨n, hn, hnkey⟩ := hp.incoming.owner.1 (Option.filter_eq_some_iff.1 hi).1
      rw [← hp.schema] at hnkey
      refine hM.target_root root busy ((answers_iff hp).2 ⟨e, n.data, he, Graph.entity_ok_iff.2 ⟨n, hn, rfl⟩,
        hkey.trans hnkey.symm, fun hnone => ?_⟩)
      cases hnkey.symm.trans hnone
    · obtain ⟨hans, hfree⟩ := hanswers hi
      obtain ⟨e', d, he', hd, hkeys, -⟩ := (answers_iff hp).1 hans
      obtain rfl := Except.ok.inj (he.symm.trans he')
      obtain ⟨n, hn, rfl⟩ := Graph.entity_ok_iff.1 hd
      rw [hkey, hp.schema] at hkeys
      have howner : p.incoming.resolve key = some i := hp.incoming.owner.2 ⟨n, hn, hkeys.symm⟩
      rw [howner, Option.filter_some, if_pos (by simp [hfree])] at hfound
      cases hfound

/-! ## Searches below parents -/

theorem firstHit_none {s' : Progress} : ∀ {parents : List ResolvedParent}, p.firstHit data parents s = .ok none s' →
    ∀ r ∈ parents, ∀ j, r.counterpart = some j → ∀ i d, p.incoming.HasLink i r.connection j →
      s.incomingFates.get? i = none → p.incoming.entity i = .ok d → d.sameContent data = false
  | [], _ => fun _ h => by cases h
  | ⟨c, target, none⟩ :: rest, h => by
    rw [firstHit] at h
    exact List.forall_mem_cons.2 ⟨fun _ h => (by cases h), firstHit_none h⟩
  | ⟨c, target, some parent⟩ :: rest, h => by
    simp only [firstHit, get_bind] at h
    obtain ⟨found, s₁, hlook, hrest⟩ := bind_ok_iff.1 h
    obtain ⟨hfound, hs₁⟩ := lookup_ok_iff.1 hlook
    subst s₁
    cases found with
    | some i => cases hrest
    | none =>
      refine List.forall_mem_cons.2 ⟨fun j hj i d hlink hi hd => ?_, firstHit_none hrest⟩
      obtain rfl := Option.some.inj hj
      exact Graph.findChild_none hfound i (Graph.mem_childIds_iff.2 hlink) (SortedMap.contains_eq_false_iff.2 hi) d hd

theorem firstTargetChild_some {s' : Progress} : ∀ {links : PlannedLinks}, p.firstTargetChild data links s = .ok (some t) s' →
    ∃ c u, (c, .target u) ∈ links ∧ p.target.HasLink t c u ∧ ∃ e, p.target.entity t = .ok e ∧ e.sameContent data = true
  | [], h => by cases h
  | (c, .added _) :: rest, h => by
    rw [firstTargetChild] at h
    obtain ⟨c, u, hmem, h⟩ := firstTargetChild_some h
    exact ⟨c, u, List.mem_cons_of_mem _ hmem, h⟩
  | (c, .target parent) :: rest, h => by
    simp only [firstTargetChild, get_bind] at h
    obtain ⟨found, s₁, hlook, hrest⟩ := bind_ok_iff.1 h
    obtain ⟨hfound, hs₁⟩ := lookup_ok_iff.1 hlook
    subst s₁
    cases found with
    | none =>
      obtain ⟨c, u, hmem, h⟩ := firstTargetChild_some hrest
      exact ⟨c, u, List.mem_cons_of_mem _ hmem, h⟩
    | some u =>
      obtain ⟨rfl, -⟩ : u = t ∧ _ := by simpa using EStateM.Result.ok.inj hrest
      obtain ⟨hchild, -, hsame⟩ := Graph.findChild_some hfound
      exact ⟨c, parent, List.mem_cons_self, Graph.mem_childIds_iff.1 hchild, hsame⟩

theorem firstTargetChild_none {s' : Progress} : ∀ {links : PlannedLinks}, p.firstTargetChild data links s = .ok none s' →
    ∀ c u, (c, .target u) ∈ links → ∀ t e, p.target.HasLink t c u → s.targetFates.get? t = none →
      p.target.entity t = .ok e → e.sameContent data = false
  | [], _ => fun _ _ h => by cases h
  | (c, .added _) :: rest, h => by
    rw [firstTargetChild] at h
    intro c' u hmem
    rcases List.mem_cons.1 hmem with heq | hmem
    · cases heq
    · exact firstTargetChild_none h c' u hmem
  | (c, .target parent) :: rest, h => by
    simp only [firstTargetChild, get_bind] at h
    obtain ⟨found, s₁, hlook, hrest⟩ := bind_ok_iff.1 h
    obtain ⟨hfound, hs₁⟩ := lookup_ok_iff.1 hlook
    subst s₁
    cases found with
    | some u => cases hrest
    | none =>
      intro c' u hmem
      rcases List.mem_cons.1 hmem with heq | hmem
      · obtain ⟨rfl, rfl⟩ : c' = c ∧ u = parent := by simpa using heq
        intro t e hlink ht he
        exact Graph.findChild_none hfound t (Graph.mem_childIds_iff.2 hlink) (SortedMap.contains_eq_false_iff.2 ht) e he
      · exact firstTargetChild_none hrest c' u hmem

theorem firstTargetChild_mate {l : PlannedLinks} {r : Option EntityId} {s' : Progress} (hM : p.Matching mates)
    (hs : s.Matched p mates) (nested : ¬p.incoming.IsRoot i) (hi : s.incomingFates.get? i = none)
    (hd : p.incoming.entity i = .ok data) (fit : p.LinksFit mates i (some l))
    (h : p.firstTargetChild data l s = .ok r s') : ∀ t, r = some t ↔ mates t i := by
  have hsome : ∀ t, r = some t → mates t i := by
    rintro t rfl
    obtain ⟨c, u, hmem, hlink, e, he, hsame⟩ := firstTargetChild_some h
    obtain ⟨j, hlink', hplace⟩ := (fit c (.target u)).1 hmem
    obtain ⟨mate, stays⟩ := hasPlace_target_iff.1 hplace
    exact hM.child hlink hlink' mate stays ⟨e, data, he, hd, hsame⟩
  refine fun t => ⟨hsome t, fun mate => ?_⟩
  cases r with
  | some u => rw [hM.target_unique (hsome u rfl) mate]
  | none =>
    obtain ⟨c, u, j, hlink, hlink', hu⟩ := hM.shared mate nested
    obtain ⟨u', hu', stays⟩ := hM.above mate hlink'
    obtain rfl := hM.target_unique hu hu'
    have hmem : (c, .target u) ∈ l := (fit c (.target u)).2 ⟨j, hlink', .mate hu stays⟩
    obtain ⟨e, d, he, hd', hsame⟩ := hM.sameContent mate nested
    obtain rfl := Except.ok.inj (hd.symm.trans hd')
    rw [firstTargetChild_none h c u hmem t e hlink (hs.free_target mate hi) he] at hsame
    cases hsame

/-! ## Locating -/

/-- **Roots and additions go by the matching.** -/
structure Apt (p : Pass) (mates : EntityId → EntityId → Prop) (resolve : Resolver) (addSubtree : Adder) : Prop where
  root : ∀ {r s}, s.Matched p mates → p.incoming.IsRoot r → Conforming p mates (resolve r) s fun q _ => p.PlaceOf mates r q
  add : ∀ {i links s}, s.Matched p mates → p.IncomingIs true i → (∀ t, ¬mates t i) → p.LinksFit mates i links →
    p.HasPlace mates i (.added i) → Conforming p mates (addSubtree links i) s fun _ s' => s'.incomingFates.contains i = true

/-- **An entity whose place can be told**: it has its fate, or a mate that stays. -/
def Findable (p : Pass) (mates : EntityId → EntityId → Prop) (s : Progress) (i : EntityId) : Prop :=
  s.incomingFates.contains i = true ∨ ∃ t, mates t i ∧ p.Stays t i

theorem Findable.grow (h : p.Findable mates s i) (hn : Grows s.incomingFates s'.incomingFates) : p.Findable mates s' i :=
  h.imp (fun h =>
    let ⟨f, hf⟩ := SortedMap.contains_iff.1 h
    SortedMap.contains_iff.2 ⟨f, hn hf⟩) id

/-- **What locating some parents adds to links**: the places that they have, one for each connection. -/
structure Found (p : Pass) (mates : EntityId → EntityId → Prop) (old : PlannedLinks) (l : List (Connection × Track))
    (links : PlannedLinks) : Prop where
  subset : old ⊆ links
  found : ∀ {c x}, (c, x) ∈ links → (c, x) ∈ old ∨ ∃ t, (c, t) ∈ l ∧ p.HasPlace mates t.entity x
  all : ∀ {c t x}, (c, t) ∈ l → p.HasPlace mates t.entity x → c ∈ links.map Prod.fst

theorem Found.cons {old links : PlannedLinks} {l : List (Connection × Track)} {c : Connection} {t : Track}
    {q : Option PlannedParent} (hq : p.PlaceOf mates t.entity q)
    (h : p.Found mates (match q with
      | some parent => old.link c parent
      | none => old) l links) : p.Found mates old ((c, t) :: l) links := by
  cases q with
  | none =>
    refine ⟨h.subset, fun hmem => (h.found hmem).imp id ?_, fun hmem hx => ?_⟩
    · rintro ⟨u, hu, hplace⟩
      exact ⟨u, List.mem_cons_of_mem _ hu, hplace⟩
    · rcases List.mem_cons.1 hmem with heq | hmem
      · obtain ⟨rfl, rfl⟩ := Prod.mk.inj heq
        cases (hq _).2 hx
      · exact h.all hmem hx
  | some parent =>
    have hc : c ∈ (old.link c parent).map Prod.fst := by
      rw [PlannedLinks.link]
      split
      · next hany => simpa using hany
      · simp
    refine ⟨List.Subset.trans (subset_link old c parent) h.subset, fun {c' x} hmem => ?_, fun hmem hx => ?_⟩
    · rcases h.found hmem with hmem | ⟨u, hu, hplace⟩
      · rcases mem_link hmem with hmem | heq
        · exact .inl hmem
        · obtain ⟨rfl, rfl⟩ := Prod.mk.inj heq
          exact .inr ⟨t, List.mem_cons_self, (hq _).1 rfl⟩
      · exact .inr ⟨u, List.mem_cons_of_mem _ hu, hplace⟩
    · rcases List.mem_cons.1 hmem with heq | hmem
      · obtain ⟨rfl, rfl⟩ := Prod.mk.inj heq
        exact List.map_subset _ h.subset hc
      · exact h.all hmem hx

/-- Links that lead to places of parents lead to all of them in the end. -/
theorem Found.fit (hp : p.incoming.Consistent) (hM : p.Matching mates) {track : Track} (hof : track.Of p.incoming)
    {old links : PlannedLinks} {l : List (Connection × Track)} (h : p.Found mates old l links) (hsub : l ⊆ track.parents)
    (hold : ∀ {c x}, (c, x) ∈ old → ∃ j, p.incoming.HasLink track.entity c j ∧ p.HasPlace mates j x)
    (hall : ∀ {c j}, p.incoming.HasLink track.entity c j → c ∈ l.map Prod.fst ∨ c ∈ old.map Prod.fst) :
    p.LinksFit mates track.entity (some links) := by
  have hto : ∀ {c x}, (c, x) ∈ links → ∃ j, p.incoming.HasLink track.entity c j ∧ p.HasPlace mates j x := fun hmem => by
    rcases h.found hmem with hmem | ⟨u, hu, hplace⟩
    · exact hold hmem
    · exact ⟨u.entity, hof.hasLink_iff.2 ⟨_, hsub hu, rfl, rfl⟩, hplace⟩
  refine fun c x => ⟨hto, fun ⟨j, hlink, hplace⟩ => ?_⟩
  have hconn : c ∈ links.map Prod.fst := by
    rcases hall hlink with hc | hc
    · obtain ⟨⟨c, u⟩, hu, rfl⟩ := List.mem_map.1 hc
      obtain rfl := hlink.unique hp (hof.hasLink_iff.2 ⟨_, hsub hu, rfl, rfl⟩)
      exact h.all hu hplace
    · exact List.map_subset _ h.subset hc
  obtain ⟨⟨c, y⟩, hmem, rfl⟩ := List.mem_map.1 hconn
  obtain ⟨j', hlink', hplace'⟩ := hto hmem
  obtain rfl := hlink.unique hp hlink'
  rw [hplace.unique hM hplace']
  exact hmem

theorem Found.fit_all (hp : p.incoming.Consistent) (hM : p.Matching mates) {track : Track} (hof : track.Of p.incoming)
    {l : PlannedLinks} (h : p.Found mates [] track.parents l) : p.LinksFit mates track.entity (some l) :=
  h.fit hp hM hof (List.Subset.refl _) (fun h => by cases h) fun hlink => by
    obtain ⟨x, hx, rfl, -⟩ := hof.hasLink_iff.1 hlink
    exact .inl (List.mem_map_of_mem hx)

theorem locateUnder_conforms {l : PlannedLinks} (hM : p.Matching mates) (hs : s.Matched p mates)
    (nested : ¬p.incoming.IsRoot i) (hi : s.incomingFates.get? i = none) (fit : p.LinksFit mates i (some l)) :
    Conforming p mates (p.locateUnder i l) s fun q _ => ∀ t, mates t i → q = some (.target t) := by
  refine .looking lookup_ok_iff.1 fun data hd => ?_
  refine .look (fun h => ⟨firstTargetChild_mate hM hs nested hi hd fit h, (firstTargetChild_ok h).2⟩) (fun _ => trivial) ?_
  intro found hfound
  cases found with
  | some t => exact .pure fun u hu => by rw [← hM.target_unique ((hfound t).1 rfl) hu]
  | none =>
    have hfree : ∀ t, mates t i → False := fun t ht => by cases (hfound t).2 ht
    refine .looking acceptsIncoming_ok_iff.1 fun accepted _ => ?_
    split
    · exact .pure fun t ht => (hfree t ht).elim
    · exact .pure fun t ht => (hfree t ht).elim

mutual
theorem locate_conforms (hp : p.Consistent) (hM : p.Matching mates) (hA : p.Apt mates resolve addSubtree) : ∀ {t : Track}
    {s : Progress}, t.Of p.incoming → s.Matched p mates →
    p.Findable mates s t.entity ∨ (∀ x ∈ t.parents, p.Findable mates s x.2.entity) →
    Conforming p mates (p.locate resolve t) s fun q _ => p.Findable mates s t.entity → p.PlaceOf mates t.entity q
  | .node id parents, s, hof, hs, hfind => by
    rw [locate]
    refine .get_bind ?_
    simp only [Track.entity] at hfind ⊢
    cases hf : s.incomingFates.get? id with
    | some f => exact .pure fun _ _ => hs.incoming hf
    | none =>
      -- the parents of a mate have mates that stay
      have hmates : ∀ {t}, mates t id → ∀ x ∈ parents, p.Findable mates s x.2.entity := fun ht x hx =>
        .inr (hM.above ht (hof.hasLink_iff.2 ⟨x, hx, rfl, rfl⟩))
      cases parents with
      | nil => exact (hA.root hs (hof.isRoot_iff.2 rfl)).mono (fun _ _ _ h _ => h) fun _ h => h
      | cons l rest =>
        have hparents : ∀ x ∈ l :: rest, p.Findable mates s x.2.entity := by
          rcases hfind with (hdecided | ⟨t, ht, _⟩) | hparents
          · rw [SortedMap.contains_eq_false_iff.2 hf] at hdecided
            cases hdecided
          · exact hmates ht
          · exact hparents
        have hnested : ¬p.incoming.IsRoot id := fun hroot => by cases hof.isRoot_iff.1 hroot
        refine .bind (locateAll_conforms hp hM hA hof.above hs hparents) fun links s₁ h₁ hfound => .get_bind ?_
        have hs₁ := h₁.matched hs
        cases hf₁ : s₁.incomingFates.get? id with
        | some f => exact .pure fun _ _ => hs₁.incoming hf₁
        | none =>
          refine (locateUnder_conforms hM hs₁ hnested hf₁ (hfound.fit_all hp.incoming hM hof)).mono
            (fun q _ _ hq hfind => ?_) fun _ h => h
          rcases hfind with hdecided | ⟨t, ht, stays⟩
          · rw [SortedMap.contains_eq_false_iff.2 hf] at hdecided
            cases hdecided
          · rw [hq t ht]
            exact placeOf_some hM (.mate ht stays)
theorem locateAll_conforms (hp : p.Consistent) (hM : p.Matching mates) (hA : p.Apt mates resolve addSubtree) :
    ∀ {l : List (Connection × Track)} {links : PlannedLinks} {s : Progress}, (∀ x ∈ l, x.2.Of p.incoming) →
    s.Matched p mates → (∀ x ∈ l, p.Findable mates s x.2.entity) →
    Conforming p mates (p.locateAll resolve links l) s fun links' _ => p.Found mates links l links'
  | [], _, _, _, _, _ => .pure ⟨List.Subset.refl _, .inl, fun h => by cases h⟩
  | (c, t) :: rest, links, s, hof, hs, hfind => by
    have hfindt := hfind _ List.mem_cons_self
    rw [locateAll]
    refine .bind (locate_conforms hp hM hA (hof _ List.mem_cons_self) hs (.inl hfindt)) fun q s₁ h₁ hq => ?_
    have hrest {links : PlannedLinks} : Conforming p mates (p.locateAll resolve links rest) s₁
        fun links' _ => p.Found mates links rest links' := locateAll_conforms hp hM hA
      (fun x hx => hof x (List.mem_cons_of_mem _ hx)) (h₁.matched hs)
      fun x hx => (hfind x (List.mem_cons_of_mem _ hx)).grow h₁.incoming
    cases q with
    | none => exact hrest.mono (fun _ _ _ h => .cons (hq hfindt) h) fun _ h => h
    | some q => exact hrest.mono (fun _ _ _ h => .cons (hq hfindt) h) fun _ h => h
end

/-! ## Pairing -/

theorem Busy.above (h : p.Busy t) (hparent : p.target.IsParent u t) : p.Busy u :=
  let ⟨d, hd, hbelow⟩ := h
  ⟨d, hd, hbelow.head hparent⟩

/-- **The parents of a target entity with their counterparts.** -/
structure Resolved (p : Pass) (mates : EntityId → EntityId → Prop) (t : EntityId) (parents : List ResolvedParent) : Prop where
  link : ∀ {r}, r ∈ parents → p.target.HasLink t r.connection r.target
  counterpart : ∀ {r}, r ∈ parents → p.CounterpartIs mates r.target r.counterpart
  all : ∀ {c u}, p.target.HasLink t c u → ∃ r ∈ parents, r.connection = c ∧ r.target = u

theorem firstHit_mate {parents : List ResolvedParent} {hit : Option (EntityId × ResolvedParent × List ResolvedParent)}
    (hM : p.Matching mates) (hs : s.Matched p mates) (nested : ¬p.target.IsRoot t) (ht : s.targetFates.get? t = none)
    (he : p.target.entity t = .ok data) (hparents : p.Resolved mates t parents)
    (h : p.firstHit data parents s = .ok hit s') :
    (hit = none → ∀ i, ¬mates t i) ∧ ∀ i r later, hit = some (i, r, later) → mates t i ∧ r ∈ parents ∧ later ⊆ parents ∧
      ∃ j, p.incoming.HasLink i r.connection j ∧ p.HasPlace mates j (.target r.target) := by
  constructor
  · rintro rfl i mate
    have nested' : ¬p.incoming.IsRoot i := fun hroot => nested ((hM.root_iff mate).2 hroot)
    obtain ⟨c, u, j, hlink, hlink', hu⟩ := hM.shared mate nested'
    obtain ⟨u', hu', stays⟩ := hM.above mate hlink'
    obtain rfl := hM.target_unique hu hu'
    obtain ⟨r, hr, rfl, rfl⟩ := hparents.all hlink
    obtain ⟨e, d, he', hd, hsame⟩ := hM.sameContent mate nested'
    obtain rfl := Except.ok.inj (he.symm.trans he')
    have hnot := firstHit_none h r hr j ((hparents.counterpart hr j).2 ⟨hu, stays⟩) i d hlink' (hs.free mate ht) hd
    rw [sameContent_comm hsame] at hnot
    cases hnot
  · rintro i r later rfl
    obtain ⟨hr, hlater, j, hj, hlink'⟩ := firstHit_hasLink h
    obtain ⟨hu, stays⟩ := (hparents.counterpart hr j).1 hj
    obtain ⟨d, hd, hsame⟩ := (firstHit_ok h).1 _ rfl
    exact ⟨hM.child (hparents.link hr) hlink' hu stays ⟨data, d, he, hd, sameContent_comm hsame⟩, hr, hlater, j, hlink',
      .mate hu stays⟩

/-- **What a target entity is paired with is its mate**, and the links lead to the places of the mate's parents. -/
theorem findPair_conforms (hp : p.Consistent) (hM : p.Matching mates) (hA : p.Apt mates resolve addSubtree)
    (hs : s.Matched p mates) (nested : ¬p.target.IsRoot t) (ht : s.targetFates.get? t = none)
    (he : p.target.entity t = .ok data) {parents : List ResolvedParent} (hparents : p.Resolved mates t parents) :
    Conforming p mates (p.findPair resolve data parents) s fun found _ =>
      (found = none → ∀ i, ¬mates t i) ∧ ∀ i l, found = some (i, l) → mates t i ∧ p.LinksFit mates i (some l) := by
  refine .look (fun h => ⟨firstHit_mate hM hs nested ht he hparents h, (firstHit_ok h).2⟩) (fun _ => trivial) fun hit hhit => ?_
  cases hit with
  | none => exact .pure ⟨fun _ => hhit.1 rfl, fun _ _ h => by cases h⟩
  | some hit =>
    obtain ⟨i, r, later⟩ := hit
    obtain ⟨mate, hr, hlater, j, hlink, hplace⟩ := hhit.2 i r later rfl
    refine .look (fun h => ⟨linkLater_hasLink h, (linkLater_ok h).2⟩) (fun _ => trivial) fun old hold => ?_
    refine .looking track_ok_iff.1 fun track htrack => ?_
    obtain ⟨hof, rfl⟩ := Track.ofGraph_of htrack
    have hfind : ∀ x ∈ track.parents, p.Findable mates s x.2.entity := fun x hx =>
      .inr (hM.above mate (hof.hasLink_iff.2 ⟨x, hx, rfl, rfl⟩))
    refine .bind (locateAll_conforms hp hM hA hof.above hs hfind) fun links s₁ _ hfound => .pure ⟨fun h => (by cases h), ?_⟩
    rintro i l heq
    obtain ⟨rfl, rfl⟩ := Prod.mk.inj (Option.some.inj heq)
    refine ⟨mate, hfound.fit hp.incoming hM hof (List.Subset.refl _) (fun {c x} hmem => ?_) fun hlink => ?_⟩
    · rcases hold.2 hmem with hmem | ⟨r', hr', rfl, rfl, j', hj', hlink'⟩
      · obtain ⟨rfl, rfl⟩ : c = r.connection ∧ x = .target r.target := by simpa [PlannedLinks.link] using hmem
        exact ⟨j, hlink, hplace⟩
      · exact ⟨j', hlink', hasPlace_target_iff.2 ((hparents.counterpart (hlater hr') j').1 hj')⟩
    · obtain ⟨x, hx, rfl, -⟩ := hof.hasLink_iff.1 hlink
      exact .inl (List.mem_map_of_mem hx)

theorem not_uncovered (hp : p.Consistent) (hM : p.Matching mates) (mate : mates t i) {l : PlannedLinks}
    (fit : p.LinksFit mates i (some l)) : p.uncovered t.kind l = false := by
  obtain ⟨e, d, he, hd, hkind, -⟩ := hM.alike hp mate
  obtain ⟨n, hn, rfl⟩ := Graph.entity_ok_iff.1 hd
  rw [uncovered, List.any_eq_false]
  intro c hc
  rw [hp.schema, ← hp.target.kind_eq he, hkind, hp.incoming.kind_eq hd] at hc
  obtain ⟨⟨c, j⟩, hmem, rfl⟩ := List.mem_map.1 (hp.incoming.required hn hc)
  have hlink : p.incoming.HasLink i c j := ⟨n, hn, hmem⟩
  obtain ⟨u, -, hplace⟩ := hM.place_above mate hlink
  simpa using ⟨_, (fit c (.target u)).2 ⟨j, hlink, hplace⟩⟩

theorem pairUnder_conforms (hp : p.Consistent) (hM : p.Matching mates) (hA : p.Apt mates resolve addSubtree)
    (hs : s.Matched p mates) (nested : ¬p.target.IsRoot t) (ht : s.targetFates.get? t = none)
    {parents : List ResolvedParent} (hparents : p.Resolved mates t parents) :
    Conforming p mates (p.pairUnder resolve t parents) s fun r _ => p.CounterpartIs mates t r := by
  refine .looking lookup_ok_iff.1 fun e he => ?_
  refine .bind (findPair_conforms hp hM hA hs nested ht he hparents) fun found s₁ h₁ ⟨hnone, hsome⟩ => ?_
  cases found with
  | none => exact unpaired_conforms (hnone rfl)
  | some found =>
    obtain ⟨i, l⟩ := found
    obtain ⟨mate, fit⟩ := hsome i l rfl
    refine .get_bind ?_
    rw [not_uncovered hp hM mate fit, Bool.false_or]
    split
    · next hdecided => exact unpaired_of_decided (((h₁.matched hs).together mate).2 hdecided)
    · exact settlePair_conforms hM mate fit

theorem Resolved.of_track {track : Track} (hof : track.Of p.target) {parents : List ResolvedParent}
    (heq : parents.map (fun r => (r.connection, r.target)) = track.parents.map fun x => (x.1, x.2.entity))
    (hcounterparts : ∀ r ∈ parents, p.CounterpartIs mates r.target r.counterpart) :
    p.Resolved mates track.entity parents where
  link {r} hr := by
    have hmem : (r.connection, r.target) ∈ parents.map fun r => (r.connection, r.target) := List.mem_map_of_mem hr
    rw [heq] at hmem
    obtain ⟨x, hx, hxr⟩ := List.mem_map.1 hmem
    exact hof.hasLink_iff.2 ⟨x, hx, (Prod.mk.inj hxr).1, (Prod.mk.inj hxr).2⟩
  counterpart hr := hcounterparts _ hr
  all {c u} hlink := by
    obtain ⟨x, hx, rfl, rfl⟩ := hof.hasLink_iff.1 hlink
    have hmem : (x.1, x.2.entity) ∈ track.parents.map fun x => (x.1, x.2.entity) := List.mem_map_of_mem hx
    rw [← heq] at hmem
    obtain ⟨r, hr, hrx⟩ := List.mem_map.1 hmem
    exact ⟨r, hr, (Prod.mk.inj hrx).1, (Prod.mk.inj hrx).2⟩

mutual
theorem pair_conforms (hp : p.Consistent) (hM : p.Matching mates) (hA : p.Apt mates resolve addSubtree) : ∀ {t : Track}
    {s : Progress}, t.Of p.target → p.Busy t.entity → s.Matched p mates →
    Conforming p mates (p.pair resolve t) s fun r _ => p.CounterpartIs mates t.entity r
  | .node id parents, s, hof, busy, hs => by
    have habove : ∀ x ∈ parents, p.Busy x.2.entity := fun x hx =>
      busy.above (hof.hasLink_iff.2 ⟨x, hx, rfl, rfl⟩).isParent
    rw [pair]
    refine .bind (pairAll_conforms hp hM hA hof.above habove hs) fun resolved s₁ h₁ ⟨heq, hcounterparts⟩ => .get_bind ?_
    have hs₁ := h₁.matched hs
    cases hf : s₁.targetFates.get? id with
    | some f => exact .pure ((hs₁.target hf).counterpartIs hM)
    | none =>
      dsimp only
      split
      · next hempty => exact pairRoot_conforms hp hM busy (hof.isRoot_iff.2 (List.isEmpty_iff.1 hempty)) hs₁ hf
      · next hsome =>
        exact pairUnder_conforms hp hM hA hs₁ (fun hroot => hsome (List.isEmpty_iff.2 (hof.isRoot_iff.1 hroot))) hf
          (.of_track hof heq hcounterparts)
theorem pairAll_conforms (hp : p.Consistent) (hM : p.Matching mates) (hA : p.Apt mates resolve addSubtree) :
    ∀ {l : List (Connection × Track)} {s : Progress}, (∀ x ∈ l, x.2.Of p.target) → (∀ x ∈ l, p.Busy x.2.entity) →
    s.Matched p mates → Conforming p mates (p.pairAll resolve l) s fun resolved _ =>
      resolved.map (fun r => (r.connection, r.target)) = l.map (fun x => (x.1, x.2.entity)) ∧
        ∀ r ∈ resolved, p.CounterpartIs mates r.target r.counterpart
  | [], _, _, _, _ => .pure ⟨rfl, fun _ h => by cases h⟩
  | (c, t) :: rest, s, hof, hbusy, hs => by
    rw [pairAll]
    refine .bind (pair_conforms hp hM hA (hof _ List.mem_cons_self) (hbusy _ List.mem_cons_self) hs) fun r s₁ h₁ hr => ?_
    refine .bind (pairAll_conforms hp hM hA (fun x hx => hof x (List.mem_cons_of_mem _ hx))
      (fun x hx => hbusy x (List.mem_cons_of_mem _ hx)) (h₁.matched hs)) fun resolved s₂ _ ⟨heq, hresolved⟩ => .pure ?_
    exact ⟨by rw [List.map_cons, List.map_cons, heq], List.forall_mem_cons.2 ⟨hr, hresolved⟩⟩
end

theorem classifyTarget_conforms (hp : p.Consistent) (hM : p.Matching mates) (hA : p.Apt mates resolve addSubtree)
    (hs : s.Matched p mates) (accepted : p.TargetIs true t) :
    Conforming p mates (p.classifyTarget resolve t) s fun _ _ => True := by
  refine .get_bind ?_
  split
  · exact .pure trivial
  · refine .looking track_ok_iff.1 fun track htrack => ?_
    obtain ⟨hof, rfl⟩ := Track.ofGraph_of htrack
    exact .bind (pair_conforms hp hM hA hof ⟨_, accepted, .refl⟩ hs) fun _ _ _ _ => .pure trivial

end Pass
end Reconciliation
