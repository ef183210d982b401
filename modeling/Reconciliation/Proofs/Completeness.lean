import Reconciliation.Proofs.Overtaking
import Reconciliation.Proofs.Placing
/-!
# Everything is decided about

Pairing a target entity goes over its whole track, parents first, and only then looks whether the entity has a fate.  So
whoever is paired has ancestors that all have fates (`Progress.Settles`).  Other writes give fates only to target
entities that are not accepted.  Hence an accepted target entity never has a fate before all its ancestors have theirs
(`Progress.Covers`), at whatever depth of the recursion it was classified.

Each accepted target entity has a fate when the first half ends, so from then on nobody comes upon one that has none.
-/
namespace Reconciliation

open Progress Planning Pass Relation

namespace Progress

variable {p : Pass} {s s₁ s' : Progress} {t : EntityId}

/-- **A target entity is settled**: it has a fate, and so have all its ancestors. -/
def Settles (p : Pass) (s : Progress) (t : EntityId) : Prop :=
  ∀ u, ReflTransGen p.target.IsParent u t → s.targetFates.contains u = true

/-- **A target entity may get a fate**: it is not accepted, or its parents are settled. -/
def Ripe (p : Pass) (s : Progress) (t : EntityId) : Prop :=
  p.TargetIs true t → ∀ u, p.target.IsParent u t → s.Settles p u

/-- Fates of target entities are added, and whichever accepted one gets a fate is settled. -/
structure Covers (p : Pass) (s s' : Progress) : Prop where
  grows : ∀ {t}, s.targetFates.contains t = true → s'.targetFates.contains t = true
  above : ∀ {t}, p.TargetIs true t → s'.targetFates.contains t = true → s.targetFates.contains t = true ∨ s'.Settles p t

theorem Settles.after (h : s.Settles p t) (hs : Covers p s s') : s'.Settles p t := fun u hu => hs.grows (h u hu)

theorem Ripe.after (h : s.Ripe p t) (hs : Covers p s s') : s'.Ripe p t := fun ht u hu => (h ht u hu).after hs

instance : Std.Refl (Covers p) where
  refl _ := ⟨fun h => h, fun _ => .inl⟩

instance : IsTrans Progress (Covers p) where
  trans _ _ _ h h' := ⟨fun ht => h'.grows (h.grows ht), fun ht hc =>
    (h'.above ht hc).elim (fun hc => (h.above ht hc).imp_right fun ht => ht.after h') .inr⟩

/-- An entity is settled when it has a fate and its parents are settled. -/
theorem settles_of_parents (hcl : s.targetFates.contains t = true)
    (habove : ∀ u, p.target.IsParent u t → s.Settles p u) : s.Settles p t := by
  intro u hu
  rcases hu.cases_tail with rfl | ⟨v, huv, hv⟩
  · exact hcl
  · exact habove v hv u huv

theorem covers_of_eq (h : s'.targetFates = s.targetFates) : Covers p s s' where
  grows ht := h ▸ ht
  above _ hc := .inl (h ▸ hc)

theorem covers_insert {f : TargetFate} (h : s'.targetFates = s.targetFates.insert t f) (hripe : s.Ripe p t) :
    Covers p s s' := by
  have hmem : ∀ u, s'.targetFates.contains u = true ↔ u = t ∨ s.targetFates.contains u = true := fun u => by
    rw [h, SortedMap.contains_insert_iff]
  refine ⟨fun hu => (hmem _).2 (.inr hu), fun {u} hacc hu => ?_⟩
  rcases (hmem u).1 hu with rfl | hu
  · exact .inr (settles_of_parents ((hmem u).2 (.inl rfl)) fun v hv w hw => (hmem w).2 (.inr (hripe hacc v hv w hw)))
  · exact .inl hu

end Progress

namespace Planning

/-- **A computation that succeeds settles every accepted target entity that gets a fate.** -/
abbrev Covering {α : Type} (p : Pass) (x : Planning α) (s : Progress) (post : α → Progress → Prop) : Prop :=
  Leads (Progress.Covers p) x s post fun _ => True

variable {p : Pass} {s : Progress} {t i : EntityId} {links : Option PlannedLinks}

theorem contains_setTarget {s' : Progress} {f : TargetFate} (h : s'.targetFates = s.targetFates.insert t f) :
    s'.targetFates.contains t = true := by rw [h, SortedMap.contains_insert_self]

theorem relabel_covering (hripe : s.Ripe p t) :
    Covering p (relabel t i links) s fun _ s' => s'.targetFates.contains t = true :=
  .of_success fun h => by
    obtain ⟨-, -, -, rfl⟩ := relabel_ok_iff.1 h
    exact ⟨covers_insert rfl hripe, contains_setTarget (s := s) rfl⟩

theorem remove_covering {incoming : Option EntityId} (hripe : s.Ripe p t) :
    Covering p (remove t incoming) s fun _ s' => s'.targetFates.contains t = true :=
  .of_success fun h => by
    cases incoming with
    | none =>
      obtain ⟨-, -, rfl⟩ := remove_none_ok_iff.1 h
      exact ⟨covers_insert rfl hripe, contains_setTarget (s := s) rfl⟩
    | some i =>
      obtain ⟨-, -, -, rfl⟩ := remove_some_ok_iff.1 h
      exact ⟨covers_insert rfl hripe, contains_setTarget (s := s) rfl⟩

theorem keep_covering {incoming : Option EntityId} (hripe : s.Ripe p t) :
    Covering p (keep t incoming) s fun _ s' => s'.targetFates.contains t = true :=
  .of_success fun h => by
    cases incoming with
    | none =>
      obtain ⟨-, rfl⟩ := keep_none_ok_iff.1 h
      exact ⟨covers_insert rfl hripe, contains_setTarget (s := s) rfl⟩
    | some i =>
      obtain ⟨-, -, rfl⟩ := keep_some_ok_iff.1 h
      exact ⟨covers_insert rfl hripe, contains_setTarget (s := s) rfl⟩

theorem setIncomingFate_covering {f : IncomingFate} : Covering p (setIncomingFate i f) s fun _ _ => True :=
  .of_success fun h => by
    obtain ⟨-, rfl⟩ := setIncomingFate_ok_iff.1 h
    exact ⟨covers_of_eq rfl, trivial⟩

theorem add_covering : Covering p (add links i) s fun _ _ => True :=
  .of_success fun h => by
    obtain ⟨-, rfl⟩ := add_ok_iff.1 h
    exact ⟨covers_of_eq rfl, trivial⟩

end Planning

namespace Pass

variable {p : Pass} {resolve : Resolver} {addSubtree : Adder} {s : Progress} {t i : EntityId} {data : Entity}

/-! ## Pairs -/

theorem unpaired_covering (hripe : s.Ripe p t) :
    Covering p (p.unpaired t) s fun _ s' => s'.targetFates.contains t = true := by
  refine .looking acceptsTarget_ok_iff.1 fun accepted _ => ?_
  cases accepted with
  | true => exact .bind (remove_covering hripe) fun _ _ _ ht => .pure ht
  | false => exact .bind (keep_covering hripe) fun _ _ _ ht => .pure ht

theorem settlePair_covering {links : Option PlannedLinks} (hripe : s.Ripe p t) :
    Covering p (p.settlePair t i links) s fun _ s' => s'.targetFates.contains t = true := by
  refine .looking acceptsTarget_ok_iff.1 fun targetAccepted _ => .looking acceptsIncoming_ok_iff.1 fun accepted _ => ?_
  cases accepted with
  | true => exact .bind (relabel_covering hripe) fun _ _ _ ht => .pure ht
  | false =>
    cases targetAccepted with
    | true => exact .bind (remove_covering hripe) fun _ _ _ ht => .pure ht
    | false => exact .bind (keep_covering hripe) fun _ _ _ ht => .pure ht

theorem findInIncoming_covering {skip : EntityId → Bool} : Covering p (p.findInIncoming data skip) s fun _ _ => True :=
  .of_success fun h => by
    simp only [findInIncoming, get_bind, modify_bind] at h
    obtain ⟨-, rfl⟩ := lookup_ok_iff.1 h
    exact ⟨covers_of_eq rfl, trivial⟩

theorem findInTarget_covering {skip : EntityId → Bool} : Covering p (p.findInTarget data skip) s fun _ _ => True :=
  .of_success fun h => by
    simp only [findInTarget, get_bind, modify_bind] at h
    obtain ⟨-, rfl⟩ := lookup_ok_iff.1 h
    exact ⟨covers_of_eq rfl, trivial⟩

theorem settleRootPair_covering {found : Option EntityId} (hripe : s.Ripe p t) :
    Covering p (p.settleRootPair t found) s fun _ s' => s'.targetFates.contains t = true := by
  cases found with
  | none => exact unpaired_covering hripe
  | some i => exact settlePair_covering hripe

theorem pairRoot_covering (hroot : p.target.IsRoot t) :
    Covering p (p.pairRoot t) s fun _ s' => s'.targetFates.contains t = true := by
  have hripe : ∀ {s : Progress}, s.Ripe p t :=
    fun _ u ⟨n, c, hn, hmem⟩ =>
      have hlink : p.target.HasLink t c u := ⟨n, hn, hmem⟩
      absurd hlink hroot.not_hasLink
  refine .looking lookup_ok_iff.1 fun e _ => .get_bind ?_
  cases p.target.schema.naturalKey? e with
  | none => exact .bind findInIncoming_covering fun _ _ _ _ => settleRootPair_covering hripe
  | some key => exact .bind_look (pure_run _ s) (settleRootPair_covering hripe)

/-- Roots and additions settle every accepted target entity that they give a fate. -/
structure Thorough (p : Pass) (resolve : Resolver) (addSubtree : Adder) : Prop where
  root : ∀ r s, Covering p (resolve r) s fun _ _ => True
  add : ∀ links i s, Covering p (addSubtree links i) s fun _ _ => True

/-! ## Locating -/

theorem locateUnder_covering {links : PlannedLinks} : Covering p (p.locateUnder i links) s fun _ _ => True := by
  refine .looking lookup_ok_iff.1 fun data _ => .looking firstTargetChild_ok fun found _ => ?_
  cases found with
  | some t => exact .pure trivial
  | none =>
    refine .looking acceptsIncoming_ok_iff.1 fun accepted _ => ?_
    split
    · exact .pure trivial
    · exact .pure trivial

mutual
theorem locate_covering (hT : Thorough p resolve addSubtree) : ∀ {t : Track} {s : Progress},
    Covering p (p.locate resolve t) s fun _ _ => True
  | .node id parents, s => by
    rw [locate]
    refine .get_bind ?_
    cases s.incomingFates.get? id with
    | some f => exact .pure trivial
    | none =>
      cases parents with
      | nil => exact hT.root id s
      | cons l rest =>
        refine .bind (locateAll_covering hT) fun links s₁ _ _ => .get_bind ?_
        cases s₁.incomingFates.get? id with
        | some f => exact .pure trivial
        | none => exact locateUnder_covering
theorem locateAll_covering (hT : Thorough p resolve addSubtree) : ∀ {l : List (Connection × Track)}
    {links : PlannedLinks} {s : Progress}, Covering p (p.locateAll resolve links l) s fun _ _ => True
  | [], _, _ => .pure trivial
  | (c, t) :: rest, links, s => by
    rw [locateAll]
    refine .bind (locate_covering hT) fun q s₁ _ _ => ?_
    cases q with
    | none => exact locateAll_covering hT
    | some q => exact locateAll_covering hT
end

/-! ## Pairing -/

theorem findPair_covering (hT : Thorough p resolve addSubtree) {parents : List ResolvedParent} :
    Covering p (p.findPair resolve data parents) s fun _ _ => True := by
  refine .looking firstHit_ok fun hit _ => ?_
  cases hit with
  | none => exact .pure trivial
  | some hit =>
    refine .looking linkLater_ok fun old _ => .looking track_ok_iff.1 fun track _ => ?_
    exact .bind (locateAll_covering hT) fun _ _ _ _ => .pure trivial

theorem pairUnder_covering (hT : Thorough p resolve addSubtree) {parents : List ResolvedParent} (hripe : s.Ripe p t) :
    Covering p (p.pairUnder resolve t parents) s fun _ s' => s'.targetFates.contains t = true := by
  refine .looking lookup_ok_iff.1 fun e _ => .bind (findPair_covering hT) fun found s₁ h₁ _ => ?_
  cases found with
  | none => exact unpaired_covering (hripe.after h₁)
  | some found =>
    refine .get_bind ?_
    split
    · exact unpaired_covering (hripe.after h₁)
    · exact settlePair_covering (hripe.after h₁)

mutual
theorem pair_covering (hT : Thorough p resolve addSubtree) : ∀ {t : Track} {s : Progress}, t.Of p.target →
    Covering p (p.pair resolve t) s fun _ s' => s'.Settles p t.entity
  | .node id parents, s, hof => by
    rw [pair]
    -- the parents are settled before anything is written about the entity
    refine .bind (pairAll_covering hT hof.above) fun resolved s₁ h₁ hparents => .get_bind ?_
    have habove : ∀ u, p.target.IsParent u id → s₁.Settles p u := fun u ⟨n, c, hn, hmem⟩ => by
      obtain ⟨x, hx, -, rfl⟩ := hof.hasLink_iff.1 ⟨n, hn, hmem⟩
      exact hparents x hx
    cases hf : s₁.targetFates.get? id with
    | some f => exact .pure (settles_of_parents (SortedMap.contains_iff.2 ⟨f, hf⟩) habove)
    | none =>
      have hend : ∀ {q : Option EntityId} {s'}, Covers p s₁ s' → s'.targetFates.contains id = true → s'.Settles p id :=
        fun h hcl => settles_of_parents hcl fun u hu => (habove u hu).after h
      dsimp only
      split
      · next hnil =>
        have hroot : p.target.IsRoot id := hof.isRoot_iff.2 (List.isEmpty_iff.1 hnil)
        exact (pairRoot_covering hroot).mono (fun q _ h hcl => hend (q := q) h hcl) fun _ h => h
      · exact (pairUnder_covering hT fun _ => habove).mono (fun q _ h hcl => hend (q := q) h hcl) fun _ h => h
theorem pairAll_covering (hT : Thorough p resolve addSubtree) : ∀ {l : List (Connection × Track)} {s : Progress},
    (∀ x ∈ l, x.2.Of p.target) → Covering p (p.pairAll resolve l) s fun _ s' => ∀ x ∈ l, s'.Settles p x.2.entity
  | [], _, _ => .pure fun _ h => by cases h
  | (c, t) :: rest, s, hof => by
    rw [pairAll]
    refine .bind (pair_covering hT (hof _ List.mem_cons_self)) fun counterpart s₁ _ ht => ?_
    refine .bind (pairAll_covering hT fun x hx => hof x (List.mem_cons_of_mem _ hx)) fun resolved s₂ h₂ hrest => ?_
    exact .pure (List.forall_mem_cons.2 ⟨ht.after h₂, hrest⟩)
end

theorem classifyTarget_covering (hT : Thorough p resolve addSubtree) :
    Covering p (p.classifyTarget resolve t) s fun _ _ => True := by
  refine .get_bind ?_
  split
  · exact .pure trivial
  · refine .looking track_ok_iff.1 fun track htrack => ?_
    exact .bind (pair_covering hT (Track.ofGraph_of htrack).1) fun _ _ _ _ => .pure trivial

/-! ## Roots and additions -/

theorem findRoot_covering : Covering p (p.findRoot data) s fun _ _ => True := by
  rw [findRoot]
  cases p.target.schema.naturalKey? data with
  | some key => exact .pure trivial
  | none =>
    refine .get_bind (.bind findInTarget_covering fun found _ _ _ => ?_)
    cases found with
    | some t => exact .pure trivial
    | none => exact findInTarget_covering

theorem settleIncoming_covering {links : Option PlannedLinks} :
    Covering p (p.settleIncoming i t links) s fun _ _ => True := by
  refine .looking acceptsTarget_ok_iff.1 fun targetAccepted hacc => ?_
  cases targetAccepted with
  | true => exact .of_error (throw_run _ s) trivial
  | false =>
    have hripe : s.Ripe p t := fun h => by cases hacc.unique h
    refine .looking acceptsIncoming_ok_iff.1 fun accepted _ => ?_
    cases accepted with
    | true => exact .bind (relabel_covering hripe) fun _ _ _ _ => .pure trivial
    | false => exact .bind (keep_covering hripe) fun _ _ _ _ => .pure trivial

theorem setIfUnclassified_covering {f : IncomingFate} : Covering p (setIfUnclassified i f) s fun _ _ => True := by
  refine .get_bind ?_
  split
  · exact .pure trivial
  · exact setIncomingFate_covering

theorem settleRoot_covering : Covering p (p.settleRoot i t) s fun _ _ => True := by
  refine .get_bind ?_
  cases s.targetFates.get? t with
  | none => exact settleIncoming_covering
  | some f => cases f <;> exact .bind setIfUnclassified_covering fun _ _ _ _ => .pure trivial

theorem resolveRootWith_covering (hT : Thorough p resolve addSubtree) :
    Covering p (p.resolveRootWith resolve addSubtree i) s fun _ _ => True := by
  refine .looking lookup_ok_iff.1 fun data _ => .bind findRoot_covering fun found s₁ _ _ => ?_
  cases found with
  | none =>
    refine .looking acceptsIncoming_ok_iff.1 fun accepted _ => ?_
    cases accepted with
    | true => exact .bind (hT.add none i s₁) fun _ _ _ _ => .pure trivial
    | false => exact .bind setIncomingFate_covering fun _ _ _ _ => .pure trivial
  | some t =>
    refine .get_bind (.looking acceptsTarget_ok_iff.1 fun accepted _ => ?_)
    dsimp only
    split
    · exact .bind (classifyTarget_covering hT) fun _ _ _ _ => settleRoot_covering
    · exact settleRoot_covering

theorem copyChild_covering (hT : Thorough p resolve addSubtree) {l : Link} {parents : List (Connection × Track)} :
    Covering p (p.copyChild resolve addSubtree i l parents) s fun _ _ => True := by
  refine .get_bind ?_
  split
  · exact .pure trivial
  · exact .bind (locateAll_covering hT) fun links s₁ _ _ => hT.add (some links) l.2 s₁

theorem addChild_covering (hT : Thorough p resolve addSubtree) {l : Link} :
    Covering p (p.addChild resolve addSubtree i l) s fun _ _ => True := by
  refine .get_bind ?_
  split
  · exact .pure trivial
  refine .looking acceptsIncoming_ok_iff.1 fun accepted _ => ?_
  cases accepted with
  | false => exact setIncomingFate_covering
  | true =>
    refine .looking track_ok_iff.1 fun track _ => .bind (locate_covering hT) fun q s₁ _ _ => ?_
    cases q with
    | none => exact copyChild_covering hT
    | some q =>
      cases q with
      | target u => exact .pure trivial
      | added j => exact copyChild_covering hT

theorem addSubtreeWith_covering (hT : Thorough p resolve addSubtree) {links : Option PlannedLinks} :
    Covering p (p.addSubtreeWith resolve addSubtree links i) s fun _ _ => True := by
  refine .get_bind ?_
  cases s.incomingFates.get? i with
  | some f =>
    cases f with
    | added => exact .pure trivial
    | kept | relabels | lost => exact .of_error (throw_run _ s) trivial
  | none =>
    refine .bind add_covering fun _ s₁ _ _ => .looking lookup_ok_iff.1 fun children _ => ?_
    exact .forM_keeping (I := fun _ => True) (fun _ h => h) trivial fun l _ s _ => addChild_covering hT

/-- **With every amount of fuel** roots and additions settle every accepted target entity that they give a fate. -/
theorem thorough (p : Pass) : ∀ fuel : Nat, Thorough p (p.resolveRoot fuel) (p.addSubtree fuel)
  | 0 => ⟨fun _ s => .of_error (throw_run _ s) trivial, fun _ _ s => .of_error (throw_run _ s) trivial⟩
  | fuel + 1 => ⟨fun _ _ => resolveRootWith_covering (thorough p fuel), fun _ _ _ => addSubtreeWith_covering (thorough p fuel)⟩

/-! ## A whole pass -/

variable {fuel : Nat} {targetOrder incomingOrder : List EntityId}

/-- **The first half settles every accepted target entity.** -/
theorem firstHalf_settles {u : PUnit} (hp : p.Consistent) (ho : p.Orders targetOrder incomingOrder)
    (h : targetOrder.forM (p.classifyTarget (p.resolveRoot fuel)) .start = .ok u s) (ht : p.TargetIs true t) :
    s.Settles p t := by
  obtain ⟨-, hdone, -⟩ := firstHalf hp ho h
  have hcovers : Covering p (targetOrder.forM (p.classifyTarget (p.resolveRoot fuel))) .start fun _ _ => True :=
    .forM_keeping (I := fun _ => True) (fun _ h => h) trivial fun _ _ _ _ => classifyTarget_covering (thorough p fuel)
  exact ((hcovers.ok h).1.above ht (hdone t ht)).resolve_left fun hstart => by cases hstart

/-- **Classification is complete.**  When the first half ends, every accepted target entity has a fate, and so has each
of its ancestors.  So planning never fails because an accepted target entity has none, and when it returns every
accepted entity of either graph has a fate. -/
theorem planInOrder_complete (hp : p.Consistent) (ho : p.Orders targetOrder incomingOrder) :
    (∀ s, targetOrder.forM (p.classifyTarget (p.resolveRoot fuel)) .start = .ok () s →
      ∀ t u, p.TargetIs true t → ReflTransGen p.target.IsParent u t → s.targetFates.contains u = true) ∧
    (∀ t, p.planInOrder fuel targetOrder incomingOrder ≠ .error (.failed (.targetUnclassified t))) ∧
    ∀ s o, p.planInOrder fuel targetOrder incomingOrder = .ok (s, o) →
      (∀ t, p.TargetIs true t → s.targetFates.contains t = true) ∧
        ∀ i, p.IncomingIs true i → s.incomingFates.contains i = true := by
  refine ⟨fun s h t u ht hu => firstHalf_settles hp ho h ht u hu, fun t h => ?_, fun s o h => ?_⟩
  · obtain ⟨-, u, htaken⟩ := overtakes_of_fails hp ho h
    rcases htaken with heq | ⟨f, g, heq⟩
    · cases heq
    · cases heq
  · obtain ⟨-, hdone, hincoming, -⟩ := planInOrder_ok hp ho h
    exact ⟨hdone, hincoming⟩

/-- An accepted child below a root that is not accepted, in both graphs. -/
def shelteredChild : Pass where
  target := .ofNodes ⟨#[⟨"A", [], []⟩, ⟨"K", [], [⟨0, 1, .many, .required⟩]⟩]⟩
    [(⟨0, 0⟩, .new 0 "o", []),
      (⟨1, 0⟩, (Entity.new 1 "s").set "x" (.int 1), [(⟨0, 1, .many, .required⟩, ⟨0, 0⟩)])] [(0, 1), (1, 1)]
  incoming := .ofNodes ⟨#[⟨"A", [], []⟩, ⟨"K", [], [⟨0, 1, .many, .required⟩]⟩]⟩
    [(⟨0, 0⟩, .new 0 "o", []),
      (⟨1, 0⟩, (Entity.new 1 "s").set "x" (.int 2), [(⟨0, 1, .many, .required⟩, ⟨0, 0⟩)])] [(0, 1), (1, 1)]
  accepts source := source = "s"

theorem planInOrder_complete_shelteredChild : ∃ s r,
    (shelteredChild.target.visitOrder shelteredChild.accepts .default).forM
        (shelteredChild.classifyTarget (shelteredChild.resolveRoot shelteredChild.fuel)) .start = .ok () s ∧
      shelteredChild.planInOrder shelteredChild.fuel
          (shelteredChild.target.visitOrder shelteredChild.accepts .default)
          (shelteredChild.incoming.visitOrder shelteredChild.accepts .default) = .ok r ∧
      shelteredChild.accepts "o" = false ∧ s.targetFates.contains ⟨0, 0⟩ = true ∧
      r.1.targetFates.contains ⟨1, 0⟩ = true ∧ r.1.incomingFates.contains ⟨1, 0⟩ = true := by
  have hfirst : (match (shelteredChild.target.visitOrder shelteredChild.accepts .default).forM
        (shelteredChild.classifyTarget (shelteredChild.resolveRoot shelteredChild.fuel)) .start with
      | .ok _ _ => true
      | .error _ _ => false) = true := by
    decide +kernel
  have hall : (shelteredChild.planInOrder shelteredChild.fuel
      (shelteredChild.target.visitOrder shelteredChild.accepts .default)
      (shelteredChild.incoming.visitOrder shelteredChild.accepts .default)).isOk = true := by
    decide +kernel
  have hp : shelteredChild.Consistent := ⟨by decide +kernel, by decide +kernel, rfl⟩
  have hparent : shelteredChild.target.IsParent ⟨0, 0⟩ ⟨1, 0⟩ :=
    ⟨_, ⟨0, 1, .many, .required⟩, rfl, List.mem_cons_self⟩
  split at hfirst
  case h_2 => cases hfirst
  next u s hs =>
  obtain ⟨r, hr⟩ := exists_of_isOk hall
  obtain ⟨hsettled, -, hends⟩ := planInOrder_complete hp (visitOrder_orders shelteredChild .default)
  obtain ⟨htarget, hincoming⟩ := hends r.1 r.2 hr
  exact ⟨s, r, hs, hr, by decide, hsettled s hs ⟨1, 0⟩ ⟨0, 0⟩ ⟨_, rfl, rfl⟩ (.single hparent),
    htarget ⟨1, 0⟩ ⟨_, rfl, rfl⟩, hincoming ⟨1, 0⟩ ⟨_, rfl, rfl⟩⟩

end Pass
end Reconciliation
