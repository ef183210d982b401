import Reconciliation.Proofs.Proceeding
/-!
# The recursion goes on

Planning goes on through its recursion (`guided`): with every amount of fuel, roots are resolved and subtrees are added
for reasons.  A root is copied when the search for what the target has for it finds nothing, and such a search leaves
nothing out.  It loses its place when what the target has for it is removed.  A child is copied along with a parent that
is copied.  Pairing and locating write nothing down themselves but what roots and decisions about pairs write.
-/
namespace Reconciliation

open Progress Planning

/-- What is found for an incoming entity is its place according to its fate. -/
def Progress.PlaceIs (s : Progress) (i : EntityId) (place : Option PlannedParent) : Prop :=
  ∃ f, s.incomingFates.get? i = some f ∧ place = f.asParent i

theorem ContentIndex.Coherent.findByContent_none {g : Graph} {index : ContentIndex} {data : Entity} (hg : g.Consistent)
    (hi : index.Coherent Entity.digest g) {skip : EntityId → Bool}
    (h : (index.findByContent Entity.digest g data skip).1 = .ok none) :
    ∀ id, skip id = false → ∀ e, g.entity id = .ok e → e.sameContent data = false := by
  intro id hskip e he
  rw [hi.findByContent_eq] at h
  -- what has the content is in the bucket
  by_contra hsame
  rw [Bool.not_eq_false] at hsame
  obtain ⟨n, hn, rfl⟩ := Graph.entity_ok_iff.1 he
  have hkind : id.kind = data.kind := (hg.kind hn).symm.trans (Pass.sameContent_iff.1 hsame).1
  have hmem := ContentIndex.mem_bucket_iff.2 ⟨n.data, he, hkind, Entity.digest_eq_of_sameContent hsame⟩
  rw [Graph.firstMatch_none h id hmem hskip n.data he] at hsame
  cases hsame


/-- A place that is a copy is the promised copy of the entity itself. -/
def Progress.Offers (p : Pass) (s : Progress) (i : EntityId) (place : Option PlannedParent) : Prop :=
  ∀ x, place = some (.added x) → x = i ∧ s.Promised p i

theorem Progress.offers_asParent {p : Pass} {s : Progress} {i : EntityId} {f : IncomingFate}
    (hf : s.incomingFates.get? i = some f) : s.Offers p i (f.asParent i) := by
  intro x hx
  cases f with
  | added => exact ⟨(PlannedParent.added.inj (Option.some.inj hx)).symm, .added hf⟩
  | kept | relabels | lost => cases hx

namespace Pass

/-- **Roots and additions go on.**  Once the accepted target entities have fates, a root without a fate gets one, and
what is found for it is its place.  What is to be added is added if there is a reason for it. -/
structure Guided (p : Pass) (resolve : Resolver) (addSubtree : Adder) : Prop where
  root : ∀ {r s}, s.Explained p → p.incoming.IsRoot r → Proceeds p (resolve r) s fun q s' =>
    (s.TargetDone p → s.incomingFates.get? r = none → s'.PlaceIs r q) ∧ s'.Offers p r q
  add : ∀ {i links s}, s.Explained p → (s.incomingFates.get? i = none → AdditionReason p s i links) →
    Proceeds p (addSubtree links i) s fun _ s' => s'.incomingFates.get? i = some .added

variable {p : Pass} {resolve : Resolver} {addSubtree : Adder} {s : Progress} {t i : EntityId} {links : PlannedLinks}
  {data : Entity}

/-! ## Locating -/

/-- Under a parent whose copy is promised, the copy of an accepted entity is promised. -/
theorem locateUnder_proceeds (hpromises : s.Promises p i links) :
    Proceeds p (p.locateUnder i links) s fun q s' => s'.Offers p i q := by
  refine .looking lookup_ok_iff.1 fun data _ => .looking firstTargetChild_ok fun found _ => ?_
  cases found with
  | some t => exact .pure fun x hx => by cases hx
  | none =>
    refine .looking acceptsIncoming_ok_iff.1 fun accepted hacc => ?_
    split
    · next hcond =>
      rw [Bool.and_eq_true, List.any_eq_true] at hcond
      obtain ⟨⟨⟨c, parent⟩, hmem, hadded⟩, rfl⟩ := hcond
      refine .pure fun x hx => ⟨(PlannedParent.added.inj (Option.some.inj hx)).symm, ?_⟩
      cases parent with
      | target t => cases hadded
      | added y =>
        obtain ⟨hlink, hy⟩ := hpromises c y hmem
        exact .under hacc hlink hy
    · exact .pure fun x hx => by cases hx

mutual
theorem locate_proceeds (hG : Guided p resolve addSubtree) : ∀ {t : Track} {s : Progress}, t.Of p.incoming →
    s.Explained p → Proceeds p (p.locate resolve t) s fun q s' => s'.Offers p t.entity q
  | .node id parents, s, hof, hs => by
    rw [locate]
    refine .get_bind ?_
    cases hf : s.incomingFates.get? id with
    | some f => exact .pure (offers_asParent hf)
    | none =>
      cases parents with
      | nil => exact (hG.root hs (hof.isRoot_iff.2 rfl)).mono (fun _ _ _ hq => hq.2) fun _ h => h
      | cons l rest =>
        refine .bind (locateAll_proceeds hG hof.above hs) fun links s₁ _ ⟨_, _, hlinks⟩ => .get_bind ?_
        cases hf₁ : s₁.incomingFates.get? id with
        | some f => exact .pure (offers_asParent hf₁)
        | none =>
          refine locateUnder_proceeds fun c x hmem => ?_
          obtain ⟨t, ht, rfl, hx⟩ := (hlinks c x hmem).resolve_left List.not_mem_nil
          exact ⟨hof.hasLink_iff.2 ⟨(c, t), ht, rfl, rfl⟩, hx⟩
/-- Locating parents adds to the links, each connection once, and copies of parents only where they are promised. -/
theorem locateAll_proceeds (hG : Guided p resolve addSubtree) : ∀ {l : List (Connection × Track)}
    {links : PlannedLinks} {s : Progress}, (∀ x ∈ l, x.2.Of p.incoming) → s.Explained p →
    Proceeds p (p.locateAll resolve links l) s fun links' s' => (links.Single → links'.Single) ∧ links ⊆ links' ∧
      ∀ c x, (c, .added x) ∈ links' → (c, .added x) ∈ links ∨ ∃ t, (c, t) ∈ l ∧ t.entity = x ∧ s'.Promised p x
  | [], _, _, _, _ => .pure ⟨id, List.Subset.refl _, fun _ _ => .inl⟩
  | (c, t) :: rest, links, s, hof, hs => by
    have hof' : ∀ x ∈ rest, x.2.Of p.incoming := fun x hx => hof x (List.mem_cons_of_mem _ hx)
    rw [locateAll]
    refine .bind (locate_proceeds hG (hof _ List.mem_cons_self) hs) fun q s₁ h₁ hoffers => ?_
    cases q with
    | none =>
      refine (locateAll_proceeds hG hof' (h₁.explained hs)).mono (fun links' s' _ ⟨hsingle, hsub, hnew⟩ => ?_) fun _ h => h
      exact ⟨hsingle, hsub, fun c' x hx => (hnew c' x hx).imp_right fun ⟨u, hu, h⟩ => ⟨u, List.mem_cons_of_mem _ hu, h⟩⟩
    | some q =>
      refine (locateAll_proceeds hG hof' (h₁.explained hs)).mono (fun links' s' h' ⟨hsingle, hsub, hnew⟩ => ?_) fun _ h => h
      refine ⟨fun hl => hsingle (single_link hl), fun x hx => hsub (subset_link links c q hx), fun c' x hx => ?_⟩
      rcases hnew c' x hx with hx | ⟨u, hu, h⟩
      · rcases mem_link hx with hx | heq
        · exact .inl hx
        · obtain ⟨rfl, rfl⟩ := Prod.mk.inj heq
          obtain ⟨rfl, hpromised⟩ := hoffers x rfl
          exact .inr ⟨t, List.mem_cons_self, rfl, hpromised.grow h'.incoming⟩
      · exact .inr ⟨u, List.mem_cons_of_mem _ hu, h⟩
end

/-! ## Pairing -/

theorem findPair_proceeds (hG : Guided p resolve addSubtree) (hs : s.Explained p)
    {parents : List ResolvedParent} : Proceeds p (p.findPair resolve data parents) s fun found s' =>
      ∀ i links, found = some (i, links) → links.Single ∧ s'.Promises p i links ∧
        ∃ d, p.incoming.entity i = .ok d ∧ d.sameContent data = true := by
  refine .looking firstHit_ok fun hit hhit => ?_
  cases hit with
  | none => exact .pure fun _ _ h => by cases h
  | some hit =>
    obtain ⟨i, parent, later⟩ := hit
    refine .looking linkLater_ok fun links ⟨hsingle, hold⟩ => .looking track_ok_iff.1 fun track htrack => ?_
    obtain ⟨hof, rfl⟩ := Track.ofGraph_of htrack
    refine .bind (locateAll_proceeds hG hof.above hs) fun links' _ _ ⟨hsingle', _, hnew⟩ => .pure fun j l heq => ?_
    obtain ⟨rfl, rfl⟩ := Prod.mk.inj (Option.some.inj heq)
    refine ⟨hsingle' (hsingle (single_link .nil)), fun c x hx => ?_, hhit _ rfl⟩
    rcases hnew c x hx with hx | ⟨u, hu, rfl, hx⟩
    · -- the links that come from the parents of the target entity lead to target entities
      cases (mem_link (hold c x hx)).resolve_left List.not_mem_nil
    · exact ⟨hof.hasLink_iff.2 ⟨(c, u), hu, rfl, rfl⟩, hx⟩

theorem pairUnder_proceeds (hG : Guided p resolve addSubtree) (hs : s.Explained p)
    {parents : List ResolvedParent} : Proceeds p (p.pairUnder resolve t parents) s fun _ _ => True := by
  refine .looking lookup_ok_iff.1 fun e he => .bind (findPair_proceeds hG hs) fun found s₁ _ hfound => ?_
  cases found with
  | none => exact unpaired_proceeds
  | some found =>
    obtain ⟨i, links⟩ := found
    obtain ⟨hsingle, hpromises, d, hd, hsame⟩ := hfound i links rfl
    refine .get_bind ?_
    split
    · exact unpaired_proceeds
    · next hnot =>
      simp only [Bool.or_eq_true, not_or, Bool.not_eq_true] at hnot
      exact settlePair_proceeds (.covered (alike_of_sameContent he hd (sameContent_comm hsame)) hsingle hnot.1 hpromises)

mutual
theorem pair_proceeds (hp : p.Consistent) (hG : Guided p resolve addSubtree) : ∀ {t : Track} {s : Progress},
    s.Explained p → Proceeds p (p.pair resolve t) s fun _ _ => True
  | .node id parents, s, hs => by
    rw [pair]
    refine .bind (pairAll_proceeds hp hG hs) fun resolved s₁ h₁ _ => .get_bind ?_
    cases s₁.targetFates.get? id with
    | some f => exact .pure trivial
    | none =>
      dsimp only
      split
      · exact pairRoot_proceeds hp
      · exact pairUnder_proceeds hG (h₁.explained hs)
theorem pairAll_proceeds (hp : p.Consistent) (hG : Guided p resolve addSubtree) : ∀ {l : List (Connection × Track)}
    {s : Progress}, s.Explained p → Proceeds p (p.pairAll resolve l) s fun _ _ => True
  | [], _, _ => .pure trivial
  | (c, t) :: rest, s, hs => by
    rw [pairAll]
    refine .bind (pair_proceeds hp hG hs) fun counterpart s₁ h₁ _ => ?_
    exact .bind (pairAll_proceeds hp hG (h₁.explained hs)) fun _ _ _ _ => .pure trivial
end

theorem classifyTarget_proceeds (hp : p.Consistent) (hG : Guided p resolve addSubtree) (hs : s.Explained p) :
    Proceeds p (p.classifyTarget resolve t) s fun _ _ => True := by
  refine .get_bind ?_
  split
  · exact .pure trivial
  · refine .looking track_ok_iff.1 fun track _ => .bind (pair_proceeds hp hG hs) fun _ _ _ _ => .pure trivial

/-! ## Roots -/

theorem findInTarget_proceeds (hp : p.Consistent) (hs : s.Explained p) {skip : EntityId → Bool} :
    Proceeds p (p.findInTarget data skip) s fun r s' => s'.incomingFates = s.incomingFates ∧
      s'.targetFates = s.targetFates ∧
      (∀ t, r = some t → ∃ e, p.target.entity t = .ok e ∧ e.sameContent data = true) ∧
      (r = none → ∀ t, skip t = false → ∀ e, p.target.entity t = .ok e → e.sameContent data = false) := by
  refine .of_success fun h => ?_
  simp only [findInTarget, get_bind, modify_bind] at h
  obtain ⟨hfound, rfl⟩ := lookup_ok_iff.1 h
  refine ⟨onward_targetIndex s data, rfl, rfl, fun t ht => ?_, fun hnone => hs.index.findByContent_none hp.target (hnone ▸ hfound)⟩
  subst ht
  rw [hs.index.findByContent_eq] at hfound
  exact (Graph.firstMatch_some hfound).2.2

theorem findRoot_proceeds (hp : p.Consistent) (hs : s.Explained p) (hd : p.incoming.entity i = .ok data) :
    Proceeds p (p.findRoot data) s fun r s' => s'.incomingFates = s.incomingFates ∧ s'.targetFates = s.targetFates ∧
      (∀ t, r = some t → p.Answers t i) ∧ (r = none → ∀ t, ¬p.Answers t i) := by
  rw [findRoot]
  cases hkey : p.target.schema.naturalKey? data with
  | some key =>
    refine .pure ⟨rfl, rfl, fun t ht => ⟨data, hd, by rwa [hkey]⟩, ?_⟩
    rintro hnone t ⟨d, hd', ht⟩
    obtain rfl := Except.ok.inj (hd.symm.trans hd')
    rw [hkey] at ht
    rw [show p.target.resolve key = some t from ht] at hnone
    cases hnone
  | none =>
    have hanswers : ∀ t, (∃ e, p.target.entity t = .ok e ∧ e.sameContent data = true) → p.Answers t i := fun t h =>
      ⟨data, hd, by rwa [hkey]⟩
    refine .get_bind (.bind (findInTarget_proceeds hp hs) ?_)
    rintro found s₁ h₁ ⟨hinc, htar, hsome, -⟩
    cases found with
    | some t => exact .pure ⟨hinc, htar, fun u hu => hanswers u (hsome u hu), fun h => by cases h⟩
    | none =>
      refine (findInTarget_proceeds hp (h₁.explained hs)).mono ?_ fun _ h => h
      rintro r s' - ⟨hinc', htar', hsome', hnone'⟩
      refine ⟨hinc'.trans hinc, htar'.trans htar, fun u hu => hanswers u (hsome' u hu), ?_⟩
      rintro hr t ⟨d, hd', ht⟩
      obtain rfl := Except.ok.inj (hd.symm.trans hd')
      rw [hkey] at ht
      obtain ⟨e, he, hsame⟩ := ht
      rw [hnone' hr t rfl e he] at hsame
      cases hsame

theorem settleIncoming_proceeds {links : Option PlannedLinks}
    (reason : p.TargetIs false t → TargetReason p s t (.relabelled i links)) :
    Proceeds p (p.settleIncoming i t links) s fun q s' => s'.PlaceIs i q := by
  refine .looking acceptsTarget_ok_iff.1 fun targetAccepted htacc => ?_
  cases targetAccepted with
  | true => exact .of_error (throw_run _ s) trivial
  | false =>
    refine .looking acceptsIncoming_ok_iff.1 fun accepted hacc => ?_
    cases accepted with
    | true => exact .bind (relabel_proceeds (reason htacc)) fun _ _ _ hf => .pure ⟨_, hf, rfl⟩
    | false => exact .bind (keep_some_proceeds hacc) fun _ _ _ hf => .pure ⟨_, hf, rfl⟩

theorem setIfUnclassified_proceeds {f : IncomingFate} (reason : IncomingReason p s i f) :
    Proceeds p (setIfUnclassified i f) s fun _ s' =>
      s.incomingFates.get? i = none → s'.incomingFates.get? i = some f := by
  refine .get_bind ?_
  split
  · next hcl =>
    refine .pure fun hi => ?_
    rw [SortedMap.contains_eq_false_iff.2 hi] at hcl
    cases hcl
  · exact (setIncomingFate_proceeds reason).mono (fun _ _ _ hf _ => hf) fun _ h => h

theorem settleRoot_proceeds (hp : p.Consistent) (root : p.incoming.IsRoot i) (answers : p.Answers t i) :
    Proceeds p (p.settleRoot i t) s fun q s' =>
      (s.incomingFates.get? i = none → s'.PlaceIs i q) ∧ s'.Offers p i q := by
  refine .get_bind ?_
  cases hf : s.targetFates.get? t with
  | none =>
    refine (settleIncoming_proceeds fun _ => .data (answers.alike hp)).mono (fun q s' _ hq => ⟨fun _ => hq, ?_⟩) fun _ h => h
    obtain ⟨f, hf, rfl⟩ := hq
    exact offers_asParent hf
  | some f =>
    have hkept : Proceeds p (do
        setIfUnclassified i (.kept t)
        return some (.target t)) s fun q s' => (s.incomingFates.get? i = none → s'.PlaceIs i q) ∧ s'.Offers p i q :=
      .bind (setIfUnclassified_proceeds (.answered root answers)) fun _ _ _ hi =>
        .pure ⟨fun hnone => ⟨_, hi hnone, rfl⟩, fun x hx => by cases hx⟩
    cases f with
    | removed =>
      exact .bind (setIfUnclassified_proceeds (.displaced root answers hf)) fun _ _ _ hi =>
        .pure ⟨fun hnone => ⟨_, hi hnone, rfl⟩, fun x hx => by cases hx⟩
    | kept => exact hkept
    | relabelled => exact hkept

/-- **A root is decided about**, and what is found for it is its place, when no target entity is classified on the
way. -/
theorem resolveRootWith_proceeds (hp : p.Consistent) (hG : Guided p resolve addSubtree) (hs : s.Explained p)
    (root : p.incoming.IsRoot i) : Proceeds p (p.resolveRootWith resolve addSubtree i) s fun q s' =>
      (s.TargetDone p → s.incomingFates.get? i = none → s'.PlaceIs i q) ∧ s'.Offers p i q := by
  refine .looking lookup_ok_iff.1 fun data hd => .bind (findRoot_proceeds hp hs hd) ?_
  rintro found s₁ h₁ ⟨hinc, htar, hsome, hnone⟩
  have hs₁ := h₁.explained hs
  cases found with
  | none =>
    refine .looking acceptsIncoming_ok_iff.1 fun accepted hacc => ?_
    cases accepted with
    | true =>
      exact .bind (hG.add hs₁ fun _ => .root root (hnone rfl)) fun _ _ _ hf =>
        .pure ⟨fun _ _ => ⟨_, hf, rfl⟩, offers_asParent hf⟩
    | false =>
      exact .bind (lose_proceeds (.rejected hacc)) fun _ _ _ hf =>
        .pure ⟨fun _ _ => ⟨_, hf, rfl⟩, offers_asParent hf⟩
  | some t =>
    have hanswers := hsome t rfl
    refine .get_bind (.looking acceptsTarget_ok_iff.1 fun accepted hacc => ?_)
    dsimp only
    split
    · next hcond =>
      obtain ⟨hfree, rfl⟩ : s₁.targetFates.contains t = false ∧ accepted = true := by simpa using hcond
      refine .bind (classifyTarget_proceeds hp hG hs₁) fun _ s₂ h₂ _ => ?_
      refine (settleRoot_proceeds hp root hanswers).mono (fun _ _ _ hq => ⟨fun hdone => ?_, hq.2⟩) fun _ h => h
      have hcl := hdone t hacc
      rw [← htar, hfree] at hcl
      cases hcl
    · refine (settleRoot_proceeds hp root hanswers).mono (fun _ _ _ hq => ⟨fun _ hi => hq.1 ?_, hq.2⟩) fun _ h => h
      rw [hinc, hi]

/-! ## Additions -/

theorem copyChild_proceeds (hG : Guided p resolve addSubtree) (hs : s.Explained p) {l : Link}
    {parents : List (Connection × Track)} (hof : ∀ x ∈ parents, x.2.Of p.incoming)
    (hparents : ∀ x ∈ parents, p.incoming.HasLink l.2 x.1 x.2.entity)
    (hlink : p.incoming.HasLink l.2 l.1 i) (hadded : s.incomingFates.get? i = some .added) :
    Proceeds p (p.copyChild resolve addSubtree i l parents) s fun _ _ => True := by
  refine .get_bind ?_
  split
  · exact .pure trivial
  · refine .bind (locateAll_proceeds hG (fun x hx => hof x (List.mem_of_mem_filter hx)) hs) ?_
    rintro links s₁ h₁ ⟨hsingle, hsub, hnew⟩
    have hfirst : (l.1, .added i) ∈ PlannedLinks.link [] l.1 (.added i) := by simp [PlannedLinks.link]
    have hadded₁ := h₁.incoming hadded
    have hpromises : s₁.Promises p l.2 links := fun c x hx => by
      rcases hnew c x hx with hx | ⟨u, hu, rfl, hx⟩
      · obtain ⟨rfl, rfl⟩ : c = l.1 ∧ x = i := by simpa [PlannedLinks.link] using hx
        exact ⟨hlink, .added hadded₁⟩
      · exact ⟨hparents (c, u) (List.mem_of_mem_filter hu), hx⟩
    have hreason : AdditionReason p s₁ l.2 (some links) :=
      .along (hsingle (single_link .nil)) hlink hadded₁ (hsub hfirst) hpromises
    exact (hG.add (h₁.explained hs) fun _ => hreason).mono (fun _ _ _ _ => trivial) fun _ h => h

theorem addChild_proceeds (hG : Guided p resolve addSubtree) (hs : s.Explained p) {l : Link}
    (hlink : p.incoming.HasLink l.2 l.1 i) (hadded : s.incomingFates.get? i = some .added) :
    Proceeds p (p.addChild resolve addSubtree i l) s fun _ _ => True := by
  refine .get_bind ?_
  split
  · exact .pure trivial
  refine .looking acceptsIncoming_ok_iff.1 fun accepted hacc => ?_
  cases accepted with
  | false => exact (lose_proceeds (.rejected hacc)).mono (fun _ _ _ _ => trivial) fun _ h => h
  | true =>
    refine .looking track_ok_iff.1 fun track htrack => ?_
    obtain ⟨hof, hentity⟩ := Track.ofGraph_of htrack
    refine .bind (locate_proceeds hG hof hs) fun q s₁ h₁ _ => ?_
    have hcopy := copyChild_proceeds hG (h₁.explained hs) hof.above
      (fun x hx => hentity ▸ hof.hasLink_iff.2 ⟨x, hx, rfl, rfl⟩) hlink (h₁.incoming hadded)
    cases q with
    | none => exact hcopy
    | some q =>
      cases q with
      | target u => exact .pure trivial
      | added j => exact hcopy

theorem addSubtreeWith_proceeds (hG : Guided p resolve addSubtree) (hs : s.Explained p) {links : Option PlannedLinks}
    (reason : s.incomingFates.get? i = none → AdditionReason p s i links) :
    Proceeds p (p.addSubtreeWith resolve addSubtree links i) s fun _ s' => s'.incomingFates.get? i = some .added := by
  refine .get_bind ?_
  cases hf : s.incomingFates.get? i with
  | some f =>
    cases f with
    | added => exact .pure hf
    | kept | relabels | lost => exact .of_error (throw_run _ s) trivial
  | none =>
    refine .bind (add_proceeds (reason hf)) fun _ s₁ h₁ hadded => ?_
    refine .looking lookup_ok_iff.1 fun children hchildren => ?_
    obtain rfl := Graph.children_ok hchildren
    have hloop : Proceeds p ((p.incoming.childLinks i).forM (p.addChild resolve addSubtree i)) s₁ fun _ _ => True :=
      .forM_keeping (I := fun s => s.Explained p ∧ s.incomingFates.get? i = some .added)
        (fun h hI => ⟨h.explained hI.1, h.incoming hI.2⟩) ⟨h₁.explained hs, hadded⟩
        fun l hl s hI => addChild_proceeds hG hI.1 (Graph.mem_childLinks_iff.1 hl) hI.2
    exact hloop.mono (fun _ _ h _ => h.incoming hadded) fun _ h => h

/-! ## With fuel -/

/-- **With every amount of fuel roots and additions go on.** -/
theorem guided (hp : p.Consistent) : ∀ fuel : Nat, Guided p (p.resolveRoot fuel) (p.addSubtree fuel)
  | 0 => ⟨fun {_ s} _ _ => .of_error (throw_run _ s) trivial, fun {_ _ s} _ _ => .of_error (throw_run _ s) trivial⟩
  | fuel + 1 =>
    ⟨fun hs root => resolveRootWith_proceeds hp (guided hp fuel) hs root,
     fun hs reason => addSubtreeWith_proceeds (guided hp fuel) hs reason⟩

end Pass
end Reconciliation
