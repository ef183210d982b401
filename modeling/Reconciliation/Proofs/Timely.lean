import Reconciliation.Proofs.Placing
/-!
# Links to parents that are decided in time

The links that a plan gives an entity are worked out when the entity is decided about, and its parents may not be by
then.  A visit that places an entity decides about its parents first.  Pairing an entity, and copying one along with a
parent, only asks where its other parents would be, so their links may lead elsewhere in the end, or be missing.

Whatever a visit finds decided it links to rightly.  So when a link of an entity does not lead to the place of the
parent, the parent had no fate when that visit began, and the entity has links on account of another link of its own
(`InTime`).
-/
namespace Reconciliation

open Progress Planning

namespace Progress

variable {p : Pass} {s₀ s s' : Progress} {i j q : EntityId} {c : Connection} {links : PlannedLinks}

/-- **Links lead to the place of a parent**, which is decided about. -/
def LinksTo (s : Progress) (links : PlannedLinks) (c : Connection) (q : EntityId) : Prop :=
  ∃ f, s.incomingFates.get? q = some f ∧ ∀ x, (c, x) ∈ links ↔ f.asParent q = some x

/-- **A parent comes too late**: it has no fate in the first state, and in the second one its child has links to the
place of another parent. -/
def Late (p : Pass) (s₀ s : Progress) (i : EntityId) (links : PlannedLinks) (c : Connection) (q : EntityId) : Prop :=
  s₀.incomingFates.get? q = none ∧ ∃ c' j x, (c', j) ≠ (c, q) ∧ p.incoming.HasLink i c' j ∧ (c', x) ∈ links ∧
    s.LinksTo links c' j

/-- Links lead to the places of all parents that do not come too late. -/
def Timely (p : Pass) (s₀ s : Progress) (i : EntityId) (links : PlannedLinks) : Prop :=
  ∀ c q, p.incoming.HasLink i c q → s.LinksTo links c q ∨ Late p s₀ s i links c q

/-- **Everything that is decided since a state has timely links.** -/
structure InTime (p : Pass) (s s₀ : Progress) : Prop where
  since : Grows s₀.incomingFates s.incomingFates
  relabelled : ∀ {t i links}, s.targetFates.get? t = some (.relabelled i (some links)) →
    s₀.incomingFates.get? i = none → Timely p s₀ s i links
  added : ∀ {a links}, a ∈ s.plan.additions → a.links = some links → s₀.incomingFates.get? a.incoming = none →
    Timely p s₀ s a.incoming links

/-- Fates are added, and links stay timely. -/
structure Keeps (p : Pass) (s₀ s s' : Progress) : Prop where
  incoming : Grows s.incomingFates s'.incomingFates
  inTime : s.InTime p s₀ → s'.InTime p s₀

instance : Std.Refl (Keeps p s₀) where
  refl _ := ⟨fun h => h, fun h => h⟩

instance : IsTrans Progress (Keeps p s₀) where
  trans _ _ _ h h' := ⟨fun hk => h'.incoming (h.incoming hk), fun hs => h'.inTime (h.inTime hs)⟩

theorem LinksTo.grow (h : s.LinksTo links c q) (hn : Grows s.incomingFates s'.incomingFates) : s'.LinksTo links c q :=
  let ⟨f, hf, hiff⟩ := h
  ⟨f, hn hf, hiff⟩

theorem Timely.grow (h : Timely p s₀ s i links) (hn : Grows s.incomingFates s'.incomingFates) :
    Timely p s₀ s' i links := fun c q hlink =>
  (h c q hlink).imp (fun h => h.grow hn) fun ⟨hq, c', j, x, hne, hother, hmem, hto⟩ =>
    ⟨hq, c', j, x, hne, hother, hmem, hto.grow hn⟩

theorem InTime.free (h : s.InTime p s₀) (hi : s.incomingFates.get? i = none) : s₀.incomingFates.get? i = none := by
  cases hf : s₀.incomingFates.get? i with
  | none => rfl
  | some f => cases hi.symm.trans (h.since hf)

theorem inTime_self (hs : s.Sound p) : s.InTime p s where
  since h := h
  relabelled ht hi := by
    rw [(hs.relabelled ht).2.1] at hi
    cases hi
  added ha _ hi := by
    rw [(hs.addition _).1 (List.mem_map_of_mem ha)] at hi
    cases hi

/-! ## Writes -/

theorem InTime.grow (h : s.InTime p s₀) (hn : Grows s.incomingFates s'.incomingFates)
    (relabelled : ∀ {t i links}, s'.targetFates.get? t = some (.relabelled i (some links)) →
      s.targetFates.get? t = some (.relabelled i (some links)) ∨ Timely p s₀ s' i links)
    (added : ∀ {a links}, a ∈ s'.plan.additions → a.links = some links →
      a ∈ s.plan.additions ∨ Timely p s₀ s' a.incoming links) : s'.InTime p s₀ where
  since hf := hn (h.since hf)
  relabelled ht hi := (relabelled ht).elim (fun ht => (h.relabelled ht hi).grow hn) id
  added ha hlinks hi := (added ha hlinks).elim (fun ha => (h.added ha hlinks hi).grow hn) id

theorem keeps_setTarget {t : EntityId} {f : TargetFate}
    (timely : ∀ {i links}, f = .relabelled i (some links) → s.InTime p s₀ → Timely p s₀ s i links) :
    Keeps p s₀ s (s.setTarget t f) where
  incoming h := h
  inTime hs := by
    refine hs.grow (fun h => h) (fun {u i links} h => ?_) fun ha _ => .inl ha
    rw [setTarget, SortedMap.get?_insert] at h
    split at h
    · exact .inr (timely (Option.some.inj h) hs)
    · exact .inl h

theorem keeps_setIncoming {f : IncomingFate} (hi : s.incomingFates.get? i = none) :
    Keeps p s₀ s (s.setIncoming i f) where
  incoming := grows_insert hi
  inTime hs := hs.grow (grows_insert hi) .inl fun ha _ => .inl ha

theorem keeps_schedule (s : Progress) (t : EntityId) (o : Operation) : Keeps p s₀ s (s.schedule t o) where
  incoming h := h
  inTime hs := hs.grow (fun h => h) .inl fun ha _ => .inl ha

theorem keeps_addition {links : Option PlannedLinks}
    (timely : ∀ {l}, links = some l → s.InTime p s₀ → Timely p s₀ s i l) : Keeps p s₀ s (s.addition ⟨links, i⟩) where
  incoming h := h
  inTime hs := by
    refine hs.grow (fun h => h) .inl fun {a l} ha hl => ?_
    rcases List.mem_append.1 ha with ha | ha
    · exact .inl ha
    · obtain rfl := List.mem_singleton.1 ha
      exact .inr (timely hl hs)

theorem keeps_index (s : Progress) (i j : ContentIndex) : Keeps p s₀ s { s with targetIndex := i, incomingIndex := j } where
  incoming h := h
  inTime hs := hs.grow (fun h => h) .inl fun ha _ => .inl ha

end Progress

theorem Graph.HasLink.unique {g : Graph} (hg : g.Consistent) {i q q' : EntityId} {c : Connection} (h : g.HasLink i c q)
    (h' : g.HasLink i c q') : q = q' := by
  obtain ⟨n, hn, hmem⟩ := h
  obtain ⟨n', hn', hmem'⟩ := h'
  obtain rfl := Option.some.inj (hn.symm.trans hn')
  exact congrArg Prod.snd (List.inj_on_of_nodup_map (hg.connections hn) hmem hmem' rfl)

namespace Planning

/-- **A computation that succeeds keeps links timely**, and ends with `post`. -/
abbrev Minds {α : Type} (p : Pass) (s₀ : Progress) (x : Planning α) (s : Progress) (post : α → Progress → Prop) : Prop :=
  Leads (Progress.Keeps p s₀) x s post fun _ => True

variable {p : Pass} {s₀ s : Progress} {t i : EntityId} {links : Option PlannedLinks} {data : Entity}

theorem relabel_minds (timely : ∀ {l}, links = some l → s.InTime p s₀ → Timely p s₀ s i l) :
    Minds p s₀ (relabel t i links) s fun _ s' => s'.incomingFates.get? i = some (.relabels t) :=
  .of_success fun h => by
    obtain ⟨-, ht, hi, rfl⟩ := relabel_ok_iff.1 h
    have htarget : Keeps p s₀ (s.schedule t (.relabel i links))
        ((s.schedule t (.relabel i links)).setTarget t (.relabelled i links)) := keeps_setTarget fun heq hs => by
      obtain ⟨rfl, rfl⟩ := TargetFate.relabelled.inj heq
      exact timely rfl ⟨hs.since, hs.relabelled, hs.added⟩
    have hincoming := @keeps_setIncoming p s₀ ((s.schedule t (.relabel i links)).setTarget t (.relabelled i links)) i
      (.relabels t) hi
    exact ⟨trans_of _ (trans_of _ (keeps_schedule s t (.relabel i links)) htarget) hincoming, SortedMap.get?_insert_self ..⟩

theorem remove_minds {incoming : Option EntityId} : Minds p s₀ (remove t incoming) s fun _ _ => True :=
  .of_success fun h => by
    refine ⟨?_, trivial⟩
    have htarget : Keeps p s₀ (s.schedule t .remove) ((s.schedule t .remove).setTarget t .removed) :=
      keeps_setTarget fun heq _ => by cases heq
    have hfirst := trans_of (Keeps p s₀) (keeps_schedule s t .remove) htarget
    cases incoming with
    | none =>
      obtain ⟨-, -, rfl⟩ := remove_none_ok_iff.1 h
      exact hfirst
    | some i =>
      obtain ⟨-, -, hi, rfl⟩ := remove_some_ok_iff.1 h
      exact trans_of _ hfirst (keeps_setIncoming hi)

theorem keep_none_minds : Minds p s₀ (keep t none) s fun _ _ => True :=
  .of_success fun h => by
    obtain ⟨-, rfl⟩ := keep_none_ok_iff.1 h
    exact ⟨keeps_setTarget fun heq _ => (by cases heq), trivial⟩

theorem keep_some_minds : Minds p s₀ (keep t (some i)) s fun _ s' => s'.incomingFates.get? i = some (.kept t) :=
  .of_success fun h => by
    obtain ⟨-, hi, rfl⟩ := keep_some_ok_iff.1 h
    have htarget : Keeps p s₀ s (s.setTarget t (.kept (some i))) := keeps_setTarget fun heq _ => by cases heq
    exact ⟨trans_of _ htarget (keeps_setIncoming hi), SortedMap.get?_insert_self ..⟩

theorem setIncomingFate_minds {f : IncomingFate} : Minds p s₀ (setIncomingFate i f) s fun _ _ => True :=
  .of_success fun h => by
    obtain ⟨hi, rfl⟩ := setIncomingFate_ok_iff.1 h
    exact ⟨keeps_setIncoming hi, trivial⟩

theorem add_minds (timely : ∀ {l}, links = some l → s.InTime p s₀ → Timely p s₀ s i l) :
    Minds p s₀ (add links i) s fun _ s' => s'.incomingFates.get? i = some .added :=
  .of_success fun h => by
    obtain ⟨hi, rfl⟩ := add_ok_iff.1 h
    exact ⟨trans_of _ (keeps_addition timely) (keeps_setIncoming (s := s.addition ⟨links, i⟩) hi),
      SortedMap.get?_insert_self ..⟩

end Planning

namespace Pass

variable {p : Pass} {resolve : Resolver} {addSubtree : Adder} {s₀ s : Progress} {t i : EntityId} {data : Entity}

/-! ## Pairs -/

theorem unpaired_minds : Minds p s₀ (p.unpaired t) s fun r _ => r = none := by
  refine .looking acceptsTarget_ok_iff.1 fun accepted _ => ?_
  cases accepted with
  | true => exact .bind remove_minds fun _ _ _ _ => .pure rfl
  | false => exact .bind keep_none_minds fun _ _ _ _ => .pure rfl

theorem settlePair_minds {links : Option PlannedLinks}
    (timely : ∀ {l}, links = some l → s.InTime p s₀ → Timely p s₀ s i l) :
    Minds p s₀ (p.settlePair t i links) s fun r s' => ∀ j, r = some j → s'.PlaceIs j (some (.target t)) := by
  refine .looking acceptsTarget_ok_iff.1 fun targetAccepted _ => .looking acceptsIncoming_ok_iff.1 fun accepted _ => ?_
  cases accepted with
  | true =>
    refine .bind (relabel_minds timely) fun _ s₁ _ hf => .pure fun j hj => ?_
    exact Option.some.inj hj ▸ ⟨_, hf, rfl⟩
  | false =>
    cases targetAccepted with
    | true => exact .bind remove_minds fun _ _ _ _ => .pure fun j hj => by cases hj
    | false =>
      refine .bind keep_some_minds fun _ s₁ _ hf => .pure fun j hj => ?_
      exact Option.some.inj hj ▸ ⟨_, hf, rfl⟩

theorem findInIncoming_minds {skip : EntityId → Bool} : Minds p s₀ (p.findInIncoming data skip) s fun _ _ => True :=
  .of_success fun h => by
    simp only [findInIncoming, get_bind, modify_bind] at h
    obtain ⟨-, rfl⟩ := lookup_ok_iff.1 h
    exact ⟨keeps_index s _ _, trivial⟩

theorem findInTarget_minds {skip : EntityId → Bool} : Minds p s₀ (p.findInTarget data skip) s fun _ _ => True :=
  .of_success fun h => by
    simp only [findInTarget, get_bind, modify_bind] at h
    obtain ⟨-, rfl⟩ := lookup_ok_iff.1 h
    exact ⟨keeps_index s _ _, trivial⟩

theorem settleRootPair_minds {found : Option EntityId} : Minds p s₀ (p.settleRootPair t found) s fun r s' =>
    ∀ j, r = some j → s'.PlaceIs j (some (.target t)) := by
  cases found with
  | none => exact unpaired_minds.mono (fun _ _ _ hr j hj => by rw [hr] at hj; cases hj) fun _ h => h
  | some i => exact settlePair_minds fun h => by cases h

theorem pairRoot_minds : Minds p s₀ (p.pairRoot t) s fun r s' => ∀ j, r = some j → s'.PlaceIs j (some (.target t)) := by
  refine .looking lookup_ok_iff.1 fun e _ => .get_bind ?_
  cases p.target.schema.naturalKey? e with
  | none => exact .bind findInIncoming_minds fun _ _ _ _ => settleRootPair_minds
  | some key => exact .bind_look (pure_run _ s) settleRootPair_minds

/-- **Roots and additions keep links timely.** -/
structure Mindful (p : Pass) (s₀ : Progress) (resolve : Resolver) (addSubtree : Adder) : Prop where
  root : ∀ {r s}, s.Sound p → s.InTime p s₀ → (Call.root r).Open p s → Minds p s₀ (resolve r) s fun _ _ => True
  add : ∀ {i links s}, s.Sound p → s.InTime p s₀ → (Call.add links i).Open p s →
    (∀ l, links = some l → Timely p s₀ s i l) → Minds p s₀ (addSubtree links i) s fun _ _ => True

/-! ## Locating -/

theorem locateUnder_minds {links : PlannedLinks} : Minds p s₀ (p.locateUnder i links) s fun _ _ => True := by
  refine .looking lookup_ok_iff.1 fun data _ => .looking firstTargetChild_ok fun found _ => ?_
  cases found with
  | some t => exact .pure trivial
  | none =>
    refine .looking acceptsIncoming_ok_iff.1 fun accepted _ => ?_
    split
    · exact .pure trivial
    · exact .pure trivial

/-- **What locating some parents adds to links**: to each that is decided about the link to its place, unless there is
one through the same connection. -/
structure Located (s : Progress) (old : PlannedLinks) (l : List (Connection × Track)) (links : PlannedLinks) : Prop where
  subset : old ⊆ links
  found : ∀ {c x}, (c, x) ∈ links → (c, x) ∈ old ∨ c ∉ old.map Prod.fst ∧
    ∃ t, (c, t) ∈ l ∧ ∀ f, s.incomingFates.get? t.entity = some f → f.asParent t.entity = some x
  all : ∀ {c t f x}, (c, t) ∈ l → s.incomingFates.get? t.entity = some f → f.asParent t.entity = some x →
    c ∈ links.map Prod.fst

theorem Located.cons {s₁ : Progress} {links links' : PlannedLinks} {l : List (Connection × Track)} {c : Connection}
    {t : Track} {q : Option PlannedParent} (hn : Grows s.incomingFates s₁.incomingFates)
    (hq : ∀ f, s.incomingFates.get? t.entity = some f → q = f.asParent t.entity)
    (h : Located s₁ (match q with
      | some parent => links.link c parent
      | none => links) l links') : Located s links ((c, t) :: l) links' := by
  cases q with
  | none =>
    dsimp only at h
    refine ⟨h.subset, fun hmem => (h.found hmem).imp id ?_, fun hmem hf hx => ?_⟩
    · rintro ⟨hnew, u, hu, hplace⟩
      exact ⟨hnew, u, List.mem_cons_of_mem _ hu, fun f hf => hplace f (hn hf)⟩
    · rcases List.mem_cons.1 hmem with heq | hmem
      · obtain ⟨rfl, rfl⟩ := Prod.mk.inj heq
        rw [← hq _ hf] at hx
        cases hx
      · exact h.all hmem (hn hf) hx
  | some parent =>
    dsimp only at h
    have hsub : links ⊆ links' := fun x hx => h.subset (subset_link links c parent hx)
    have hc : c ∈ (links.link c parent).map Prod.fst := by
      rw [PlannedLinks.link]
      split
      · next hany => simpa using hany
      · simp
    refine ⟨hsub, fun {c' x} hmem => ?_, fun hmem hf hx => ?_⟩
    · rcases h.found hmem with hmem | ⟨hnew, u, hu, hplace⟩
      · rw [PlannedLinks.link] at hmem
        split at hmem
        · exact .inl hmem
        · next hany =>
          rcases List.mem_append.1 hmem with hmem | hmem
          · exact .inl hmem
          · obtain ⟨rfl, rfl⟩ := Prod.mk.inj (List.mem_singleton.1 hmem)
            exact .inr ⟨by simpa using hany, t, List.mem_cons_self, fun f hf => (hq f hf).symm⟩
      · refine .inr ⟨fun hold => hnew ?_, u, List.mem_cons_of_mem _ hu, fun f hf => hplace f (hn hf)⟩
        exact List.map_subset _ (subset_link links c parent) hold
    · rcases List.mem_cons.1 hmem with heq | hmem
      · obtain ⟨rfl, rfl⟩ := Prod.mk.inj heq
        exact List.map_subset _ h.subset hc
      · exact h.all hmem (hn hf) hx

mutual
theorem locate_minds (hT : Trusted p resolve addSubtree) (hM : Mindful p s₀ resolve addSubtree) : ∀ {t : Track}
    {s : Progress}, t.Of p.incoming → s.Sound p → s.InTime p s₀ → Minds p s₀ (p.locate resolve t) s fun q _ =>
      ∀ f, s.incomingFates.get? t.entity = some f → q = f.asParent t.entity
  | .node id parents, s, hof, hs, hi => by
    rw [locate]
    refine .get_bind ?_
    simp only [Track.entity]
    cases hf : s.incomingFates.get? id with
    | some f => exact .pure fun f' hf' => by rw [Option.some.inj hf']
    | none =>
      cases parents with
      | nil => exact (hM.root hs hi ⟨hof.contains, hf⟩).mono (fun _ _ _ _ _ h => by cases h) fun _ h => h
      | cons l rest =>
        refine .bind (locateAll_minds hT hM hof.above hs hi) fun links s₁ _ _ => .get_bind ?_
        cases s₁.incomingFates.get? id with
        | some f => exact .pure fun _ h => by cases h
        | none => exact (locateUnder_minds).mono (fun _ _ _ _ _ h => by cases h) fun _ h => h
theorem locateAll_minds (hT : Trusted p resolve addSubtree) (hM : Mindful p s₀ resolve addSubtree) :
    ∀ {l : List (Connection × Track)} {links : PlannedLinks} {s : Progress}, (∀ x ∈ l, x.2.Of p.incoming) →
    s.Sound p → s.InTime p s₀ → Minds p s₀ (p.locateAll resolve links l) s fun links' _ => Located s links l links'
  | [], _, _, _, _, _ => .pure ⟨List.Subset.refl _, .inl, fun h => by cases h⟩
  | (c, t) :: rest, links, s, hof, hs, hi => by
    have hoft := hof _ List.mem_cons_self
    have hof' : ∀ x ∈ rest, x.2.Of p.incoming := fun x hx => hof x (List.mem_cons_of_mem _ hx)
    rw [locateAll]
    refine .bind_run (locate_minds hT hM hoft hs hi) fun q s₁ hrun h₁ hq => ?_
    have hs₁ := ((locate_ends hT hoft hs).ok hrun).1.sound hs
    cases q with
    | none =>
      exact (locateAll_minds hT hM hof' hs₁ (h₁.inTime hi)).mono (fun _ _ _ h => .cons h₁.incoming hq h) fun _ h => h
    | some q =>
      exact (locateAll_minds hT hM hof' hs₁ (h₁.inTime hi)).mono (fun _ _ _ h => .cons h₁.incoming hq h) fun _ h => h
end

/-- Links that lead only to places of parents go on doing so, and lead to every place that is found. -/
theorem Located.linksTo (hp : p.incoming.Consistent) {track : Track} (hof : track.Of p.incoming) {old links : PlannedLinks}
    {l : List (Connection × Track)} (h : Located s old l links) (hsub : l ⊆ track.parents)
    (hold : ∀ {c x}, (c, x) ∈ old → ∃ q, p.incoming.HasLink track.entity c q ∧ s.PlaceIs q (some x))
    {c : Connection} {q : EntityId} {f : IncomingFate} (hlink : p.incoming.HasLink track.entity c q)
    (hf : s.incomingFates.get? q = some f) (hc : c ∈ l.map Prod.fst ∨ c ∈ old.map Prod.fst) : s.LinksTo links c q := by
  have hto : ∀ {x}, (c, x) ∈ links → f.asParent q = some x := by
    intro x hmem
    rcases h.found hmem with hmem | ⟨-, u, hu, hplace⟩
    · obtain ⟨q', hlink', f', hf', hx⟩ := hold hmem
      obtain rfl := hlink.unique hp hlink'
      obtain rfl := Option.some.inj (hf.symm.trans hf')
      exact hx.symm
    · obtain rfl := hlink.unique hp (hof.hasLink_iff.2 ⟨_, hsub hu, rfl, rfl⟩)
      exact hplace f hf
  refine ⟨f, hf, fun x => ⟨hto, fun hx => ?_⟩⟩
  have hconn : c ∈ links.map Prod.fst := by
    rcases hc with hc | hc
    · obtain ⟨⟨c, u⟩, hu, rfl⟩ := List.mem_map.1 hc
      obtain rfl := hlink.unique hp (hof.hasLink_iff.2 ⟨_, hsub hu, rfl, rfl⟩)
      exact h.all hu hf hx
    · exact List.map_subset _ h.subset hc
  obtain ⟨⟨c, y⟩, hmem, rfl⟩ := List.mem_map.1 hconn
  obtain rfl := Option.some.inj (hx.symm.trans (hto hmem))
  exact hmem

/-! ## Pairing -/

theorem firstHit_hasLink {s' : Progress} {r : ResolvedParent} {later : List ResolvedParent} : ∀ {parents : List ResolvedParent},
    p.firstHit data parents s = .ok (some (i, r, later)) s' →
    r ∈ parents ∧ later ⊆ parents ∧ ∃ j, r.counterpart = some j ∧ p.incoming.HasLink i r.connection j
  | [], h => by cases h
  | ⟨c, target, none⟩ :: rest, h => by
    rw [firstHit] at h
    obtain ⟨hr, hlater, hj⟩ := firstHit_hasLink h
    exact ⟨List.mem_cons_of_mem _ hr, List.Subset.trans hlater (List.subset_cons_self _ _), hj⟩
  | ⟨c, target, some parent⟩ :: rest, h => by
    simp only [firstHit, get_bind] at h
    obtain ⟨found, s₁, hlook, hrest⟩ := bind_ok_iff.1 h
    obtain ⟨hfound, hs₁⟩ := lookup_ok_iff.1 hlook
    subst s₁
    cases found with
    | none =>
      obtain ⟨hr, hlater, hj⟩ := firstHit_hasLink hrest
      exact ⟨List.mem_cons_of_mem _ hr, List.Subset.trans hlater (List.subset_cons_self _ _), hj⟩
    | some k =>
      obtain ⟨heq, -⟩ := EStateM.Result.ok.inj hrest
      obtain ⟨rfl, rfl, rfl⟩ : k = i ∧ (⟨c, target, some parent⟩ : ResolvedParent) = r ∧ rest = later := by
        simpa using heq
      exact ⟨List.mem_cons_self, List.subset_cons_self _ _, parent, rfl, Graph.mem_childIds_iff.1 (Graph.findChild_some hfound).1⟩

theorem linkLater_hasLink {s' : Progress} {links' : PlannedLinks} : ∀ {later : List ResolvedParent} {links : PlannedLinks},
    p.linkLater i links later s = .ok links' s' → links ⊆ links' ∧ ∀ {c x}, (c, x) ∈ links' → (c, x) ∈ links ∨
      ∃ r ∈ later, r.connection = c ∧ x = .target r.target ∧ ∃ j, r.counterpart = some j ∧ p.incoming.HasLink i c j
  | [], _, h => by
    obtain ⟨rfl, -⟩ := EStateM.Result.ok.inj h
    exact ⟨List.Subset.refl _, .inl⟩
  | ⟨c, target, none⟩ :: rest, links, h => by
    rw [linkLater] at h
    obtain ⟨hsub, hmem⟩ := linkLater_hasLink h
    exact ⟨hsub, fun hx => (hmem hx).imp id List.exists_mem_cons_of_exists⟩
  | ⟨c, target, some parent⟩ :: rest, links, h => by
    rw [linkLater] at h
    obtain ⟨children, s₁, hlook, hrest⟩ := bind_ok_iff.1 h
    obtain ⟨hchildren, hs₁⟩ := lookup_ok_iff.1 hlook
    subst s₁
    split at hrest
    · next hmem =>
      obtain ⟨hsub, hlinks⟩ := linkLater_hasLink hrest
      refine ⟨List.Subset.trans (subset_link links c _) hsub, fun {c' x} hx => ?_⟩
      rcases hlinks hx with hx | ⟨r, hr, h⟩
      · rcases mem_link hx with hx | heq
        · exact .inl hx
        · obtain ⟨rfl, rfl⟩ := Prod.mk.inj heq
          have hchild : i ∈ p.incoming.childIds parent c' := by
            rw [Graph.childrenOf_ok hchildren] at hmem
            exact List.contains_iff_mem.1 hmem
          exact .inr ⟨_, List.mem_cons_self, rfl, rfl, parent, rfl, Graph.mem_childIds_iff.1 hchild⟩
      · exact .inr ⟨r, List.mem_cons_of_mem _ hr, h⟩
    · obtain ⟨hsub, hmem⟩ := linkLater_hasLink hrest
      exact ⟨hsub, fun hx => (hmem hx).imp id List.exists_mem_cons_of_exists⟩

/-- **The links of a pair are timely**: they lead to the parent under whose counterpart it was found. -/
theorem findPair_minds (hp : p.Consistent) (hT : Trusted p resolve addSubtree) (hM : Mindful p s₀ resolve addSubtree)
    (hs : s.Sound p) (hi : s.InTime p s₀) {parents : List ResolvedParent}
    (hparents : ∀ r ∈ parents, ∀ j, r.counterpart = some j → s.PlaceIs j (some (.target r.target))) :
    Minds p s₀ (p.findPair resolve data parents) s fun found s' => ∀ i links, found = some (i, links) →
      Timely p s₀ s' i links := by
  refine .look (x := p.firstHit data parents) (P := fun hit => ∀ i r later, hit = some (i, r, later) →
      r ∈ parents ∧ later ⊆ parents ∧ ∃ j, r.counterpart = some j ∧ p.incoming.HasLink i r.connection j)
    (fun h => ⟨fun i r later heq => firstHit_hasLink (heq ▸ h), (firstHit_ok h).2⟩) (fun _ => trivial) fun hit hhit => ?_
  cases hit with
  | none => exact .pure fun _ _ h => by cases h
  | some hit =>
    obtain ⟨i, r, later⟩ := hit
    obtain ⟨hr, hlater, j, hj, hlink⟩ := hhit i r later rfl
    refine .look (fun h => ⟨linkLater_hasLink h, (linkLater_ok h).2⟩) (fun _ => trivial) fun old hold => ?_
    refine .looking track_ok_iff.1 fun track htrack => ?_
    obtain ⟨hof, hentity⟩ := Track.ofGraph_of htrack
    subst hentity
    refine .bind (locateAll_minds hT hM hof.above hs hi) fun links s₁ h₁ hlocated => .pure fun k l heq => ?_
    obtain ⟨rfl, rfl⟩ := Prod.mk.inj (Option.some.inj heq)
    have hfirst : (r.connection, .target r.target) ∈ PlannedLinks.link [] r.connection (.target r.target) := by
      simp [PlannedLinks.link]
    have hright : ∀ {c x}, (c, x) ∈ old → ∃ q, p.incoming.HasLink track.entity c q ∧ s.PlaceIs q (some x) := by
      intro c x hmem
      rcases hold.2 hmem with hmem | ⟨r', hr', rfl, rfl, j', hj', hlink'⟩
      · obtain ⟨rfl, rfl⟩ : c = r.connection ∧ x = .target r.target := by simpa [PlannedLinks.link] using hmem
        exact ⟨j, hlink, hparents r hr j hj⟩
      · exact ⟨j', hlink', hparents r' (hlater hr') j' hj'⟩
    have hto : ∀ {c q f}, p.incoming.HasLink track.entity c q → s.incomingFates.get? q = some f → s.LinksTo links c q :=
      fun hlink hf => by
        obtain ⟨l, hl, rfl, rfl⟩ := hof.hasLink_iff.1 hlink
        exact hlocated.linksTo hp.incoming hof (List.Subset.refl _) hright hlink hf (.inl (List.mem_map_of_mem hl))
    obtain ⟨f, hf, -⟩ := hparents r hr j hj
    intro c q hcq
    cases hq : s.incomingFates.get? q with
    | some f => exact .inl ((hto hcq hq).grow h₁.incoming)
    | none =>
      refine .inr ⟨hi.free hq, r.connection, j, .target r.target, fun heq => ?_, hlink, hlocated.subset (hold.1 hfirst),
        (hto hlink hf).grow h₁.incoming⟩
      rw [(Prod.mk.inj heq).2, hq] at hf
      cases hf

theorem pairUnder_minds (hp : p.Consistent) (hT : Trusted p resolve addSubtree) (hM : Mindful p s₀ resolve addSubtree)
    (hs : s.Sound p) (hi : s.InTime p s₀) {parents : List ResolvedParent}
    (hparents : ∀ r ∈ parents, ∀ j, r.counterpart = some j → s.PlaceIs j (some (.target r.target))) :
    Minds p s₀ (p.pairUnder resolve t parents) s fun r s' => ∀ j, r = some j → s'.PlaceIs j (some (.target t)) := by
  have hunpaired : ∀ {s}, Minds p s₀ (p.unpaired t) s fun r s' => ∀ j, r = some j → s'.PlaceIs j (some (.target t)) :=
    unpaired_minds.mono (fun _ _ _ hr j hj => by rw [hr] at hj; cases hj) fun _ h => h
  refine .looking lookup_ok_iff.1 fun e _ => .bind (findPair_minds hp hT hM hs hi hparents) fun found s₁ _ hfound => ?_
  cases found with
  | none => exact hunpaired
  | some found =>
    obtain ⟨i, links⟩ := found
    refine .get_bind ?_
    split
    · exact hunpaired
    · exact settlePair_minds fun heq _ => Option.some.inj heq ▸ hfound i links rfl

mutual
theorem pair_minds (hp : p.Consistent) (hT : Trusted p resolve addSubtree) (hM : Mindful p s₀ resolve addSubtree) :
    ∀ {t : Track} {s : Progress}, t.Of p.target → s.Sound p → s.InTime p s₀ →
    Minds p s₀ (p.pair resolve t) s fun r s' => ∀ j, r = some j → s'.PlaceIs j (some (.target t.entity))
  | .node id parents, s, hof, hs, hi => by
    rw [pair]
    refine .bind_run (pairAll_minds hp hT hM hof.above hs hi) fun resolved s₁ hrun h₁ hresolved => .get_bind ?_
    have hs₁ := ((pairAll_ends hp hT hof.above hs).ok hrun).1.sound hs
    cases hf : s₁.targetFates.get? id with
    | some f =>
      refine .pure fun j hj => ?_
      cases f with
      | kept c =>
        obtain rfl : c = some j := hj
        exact ⟨_, (hs₁.keptPair hf).2, rfl⟩
      | relabelled k links =>
        obtain rfl := Option.some.inj hj
        exact ⟨_, (hs₁.relabelled hf).2.1, rfl⟩
      | removed => cases hj
    | none =>
      dsimp only
      split
      · exact pairRoot_minds
      · exact pairUnder_minds hp hT hM hs₁ (h₁.inTime hi) hresolved
theorem pairAll_minds (hp : p.Consistent) (hT : Trusted p resolve addSubtree) (hM : Mindful p s₀ resolve addSubtree) :
    ∀ {l : List (Connection × Track)} {s : Progress}, (∀ x ∈ l, x.2.Of p.target) → s.Sound p → s.InTime p s₀ →
    Minds p s₀ (p.pairAll resolve l) s fun resolved s' =>
      ∀ r ∈ resolved, ∀ j, r.counterpart = some j → s'.PlaceIs j (some (.target r.target))
  | [], _, _, _, _ => .pure fun _ h => by cases h
  | (c, t) :: rest, s, hof, hs, hi => by
    have hoft := hof _ List.mem_cons_self
    rw [pairAll]
    refine .bind_run (pair_minds hp hT hM hoft hs hi) fun counterpart s₁ hrun h₁ hcounterpart => ?_
    have hs₁ := ((pair_ends hp hT hoft hs).ok hrun).1.sound hs
    refine .bind (pairAll_minds hp hT hM (fun x hx => hof x (List.mem_cons_of_mem _ hx)) hs₁ (h₁.inTime hi)) ?_
    refine fun resolved s₂ h₂ hresolved => .pure (List.forall_mem_cons.2 ⟨fun j hj => ?_, hresolved⟩)
    obtain ⟨f, hf, hplace⟩ := hcounterpart j hj
    exact ⟨f, h₂.incoming hf, hplace⟩
end

theorem classifyTarget_minds (hp : p.Consistent) (hT : Trusted p resolve addSubtree)
    (hM : Mindful p s₀ resolve addSubtree) (hs : s.Sound p) (hi : s.InTime p s₀) :
    Minds p s₀ (p.classifyTarget resolve t) s fun _ _ => True := by
  refine .get_bind ?_
  split
  · exact .pure trivial
  · refine .looking track_ok_iff.1 fun track htrack => ?_
    exact .bind (pair_minds hp hT hM (Track.ofGraph_of htrack).1 hs hi) fun _ _ _ _ => .pure trivial

/-! ## Roots -/

theorem findRoot_minds : Minds p s₀ (p.findRoot data) s fun _ _ => True := by
  rw [findRoot]
  cases p.target.schema.naturalKey? data with
  | some key => exact .pure trivial
  | none =>
    refine .get_bind (.bind findInTarget_minds fun found _ _ _ => ?_)
    cases found with
    | some t => exact .pure trivial
    | none => exact findInTarget_minds

theorem settleIncoming_minds {links : Option PlannedLinks}
    (timely : ∀ {l}, links = some l → s.InTime p s₀ → Timely p s₀ s i l) :
    Minds p s₀ (p.settleIncoming i t links) s fun _ _ => True := by
  refine .looking acceptsTarget_ok_iff.1 fun targetAccepted _ => ?_
  cases targetAccepted with
  | true => exact .of_error (throw_run _ s) trivial
  | false =>
    refine .looking acceptsIncoming_ok_iff.1 fun accepted _ => ?_
    cases accepted with
    | true => exact .bind (relabel_minds timely) fun _ _ _ _ => .pure trivial
    | false => exact .bind keep_some_minds fun _ _ _ _ => .pure trivial

theorem setIfUnclassified_minds {f : IncomingFate} : Minds p s₀ (setIfUnclassified i f) s fun _ _ => True := by
  refine .get_bind ?_
  split
  · exact .pure trivial
  · exact setIncomingFate_minds

theorem settleRoot_minds : Minds p s₀ (p.settleRoot i t) s fun _ _ => True := by
  refine .get_bind ?_
  cases s.targetFates.get? t with
  | none => exact settleIncoming_minds fun h => by cases h
  | some f => cases f <;> exact .bind setIfUnclassified_minds fun _ _ _ _ => .pure trivial

theorem resolveRootWith_minds (hp : p.Consistent) (hT : Trusted p resolve addSubtree)
    (hM : Mindful p s₀ resolve addSubtree) (hs : s.Sound p) (hi : s.InTime p s₀) (ho : (Call.root i).Open p s) :
    Minds p s₀ (p.resolveRootWith resolve addSubtree i) s fun _ _ => True := by
  refine .looking lookup_ok_iff.1 fun data hd => .bind_run findRoot_minds fun found s₁ hrun h₁ _ => ?_
  obtain ⟨hsteps, -, hinc, -⟩ := (findRoot_returns hp hs hd).ok hrun
  have hs₁ := hsteps.sound hs
  cases found with
  | none =>
    refine .looking acceptsIncoming_ok_iff.1 fun accepted hacc => ?_
    cases accepted with
    | true =>
      have hopen : (Call.add none i).Open p s₁ := ⟨hacc, by rw [hinc]; exact ho.2, thereAll_none⟩
      exact .bind (hM.add hs₁ (h₁.inTime hi) hopen fun l h => by cases h) fun _ _ _ _ => .pure trivial
    | false => exact .bind setIncomingFate_minds fun _ _ _ _ => .pure trivial
  | some t =>
    refine .get_bind (.looking acceptsTarget_ok_iff.1 fun accepted _ => ?_)
    dsimp only
    split
    · exact .bind (classifyTarget_minds hp hT hM hs₁ (h₁.inTime hi)) fun _ _ _ _ => settleRoot_minds
    · exact settleRoot_minds

/-! ## Additions -/

/-- **The links of a child that goes along are timely**: they lead to the parent with which it goes, which came after
the visit began. -/
theorem copyChild_minds (hp : p.Consistent) (hT : Trusted p resolve addSubtree) (hM : Mindful p s₀ resolve addSubtree)
    (hs : s.Sound p) (hi : s.InTime p s₀) {l : Link} {track : Track} (hof : track.Of p.incoming)
    (hset : ∀ x ∈ track.parents, Settled s x.2) (hentity : track.entity = l.2) (haccepted : p.IncomingIs true l.2)
    (hlink : p.incoming.HasLink l.2 l.1 i) (hadded : s.incomingFates.get? i = some .added)
    (hsince : s₀.incomingFates.get? i = none) :
    Minds p s₀ (p.copyChild resolve addSubtree i l track.parents) s fun _ _ => True := by
  refine .get_bind ?_
  split
  · exact .pure trivial
  next hfree =>
  have hc : p.incoming.contains i = true := hs.contains_incoming hadded
  have hof' : ∀ x ∈ track.parents.filter fun t => t.2.entity ≠ i, x.2.Of p.incoming := fun x hx =>
    hof.above x (List.mem_of_mem_filter hx)
  have hfirst : ∀ x ∈ PlannedLinks.link [] l.1 (.added i), x.2.There p := there_link (fun _ h => by cases h) hc
  obtain ⟨links, hlinks, hthere⟩ := locateAll_look (fun x hx => hset x (List.mem_of_mem_filter hx)) hof' hfirst hs
  have hlocated := ((locateAll_minds hT hM hof' hs hi).ok hlinks).2
  have hopen : (Call.add (some links) l.2).Open p s :=
    ⟨haccepted, SortedMap.contains_eq_false_iff.1 (Bool.eq_false_iff.2 hfree), hthere⟩
  refine .bind_look hlinks (hM.add hs hi hopen fun links' heq => ?_)
  obtain rfl := Option.some.inj heq
  rw [← hentity] at hlink ⊢
  have hself : (l.1, .added i) ∈ links := hlocated.subset (by simp [PlannedLinks.link])
  have hto : ∀ {c q f}, p.incoming.HasLink track.entity c q → s.incomingFates.get? q = some f →
      c = l.1 ∨ q ≠ i → s.LinksTo links c q := by
    intro c q f hcq hf hor
    refine hlocated.linksTo hp.incoming hof List.filter_sublist.subset (fun {c x} hmem => ?_) hcq hf ?_
    · obtain ⟨rfl, rfl⟩ : c = l.1 ∧ x = .added i := by simpa [PlannedLinks.link] using hmem
      exact ⟨i, hlink, _, hadded, rfl⟩
    · rcases hor with rfl | hne
      · exact .inr (by simp [PlannedLinks.link])
      · obtain ⟨x, hx, rfl, rfl⟩ := hof.hasLink_iff.1 hcq
        exact .inl (List.mem_map_of_mem (List.mem_filter.2 ⟨hx, decide_eq_true hne⟩))
  have hlate : ∀ {c q}, s₀.incomingFates.get? q = none → (l.1, i) ≠ (c, q) → Late p s₀ s track.entity links c q :=
    fun hq hne => ⟨hq, l.1, i, .added i, hne, hlink, hself, hto hlink hadded (.inl rfl)⟩
  intro c q hcq
  by_cases hqi : q = i
  · subst hqi
    by_cases hc : c = l.1
    · exact .inl (hto hcq hadded (.inl hc))
    · exact .inr (hlate hsince fun heq => hc (Prod.mk.inj heq).1.symm)
  · cases hq : s.incomingFates.get? q with
    | some f => exact .inl (hto hcq hq (.inr hqi))
    | none => exact .inr (hlate (hi.free hq) fun heq => hqi (Prod.mk.inj heq).2.symm)

theorem addChild_minds (hp : p.Consistent) (hT : Trusted p resolve addSubtree) (hM : Mindful p s₀ resolve addSubtree)
    (hs : s.Sound p) (hi : s.InTime p s₀) {l : Link} (hlink : p.incoming.HasLink l.2 l.1 i)
    (hadded : s.incomingFates.get? i = some .added) (hsince : s₀.incomingFates.get? i = none) :
    Minds p s₀ (p.addChild resolve addSubtree i l) s fun _ _ => True := by
  refine .get_bind ?_
  split
  · exact .pure trivial
  refine .looking acceptsIncoming_ok_iff.1 fun accepted hacc => ?_
  cases accepted with
  | false => exact setIncomingFate_minds
  | true =>
    refine .looking track_ok_iff.1 fun track htrack => ?_
    obtain ⟨hof, hentity⟩ := Track.ofGraph_of htrack
    refine .bind_run (locate_minds hT hM hof hs hi) fun q s₁ hrun h₁ _ => ?_
    obtain ⟨hsteps, hsettled, -⟩ := (locate_ends hT hof hs).ok hrun
    have hcopy : Minds p s₀ (p.copyChild resolve addSubtree i l track.parents) s₁ fun _ _ => True := by
      cases hsettled with
      | fate hcl =>
        refine .get_bind ?_
        rw [if_pos]
        · exact .pure trivial
        · rw [← hentity]
          exact hcl
      | parents _ hset =>
        exact copyChild_minds hp hT hM (hsteps.sound hs) (h₁.inTime hi) hof hset hentity hacc hlink (h₁.incoming hadded) hsince
    cases q with
    | none => exact hcopy
    | some q =>
      cases q with
      | target u => exact .pure trivial
      | added j => exact hcopy

theorem addSubtreeWith_minds (hp : p.Consistent) (hT : Trusted p resolve addSubtree)
    (hM : Mindful p s₀ resolve addSubtree) (hs : s.Sound p) (hi : s.InTime p s₀) {links : Option PlannedLinks}
    (ho : (Call.add links i).Open p s) (timely : ∀ l, links = some l → Timely p s₀ s i l) :
    Minds p s₀ (p.addSubtreeWith resolve addSubtree links i) s fun _ _ => True := by
  have hsince := hi.free ho.2.1
  refine .get_bind ?_
  rw [ho.2.1]
  refine .bind_run (add_minds fun heq _ => timely _ heq) fun _ s₁ hrun h₁ hadded => ?_
  have hs₁ : s₁.Sound p := by
    obtain ⟨-, rfl⟩ := add_ok_iff.1 hrun
    exact ho.begun.sound hs
  refine .bind_look (lookup_run (Graph.children_eq ho.1.contains) _) ?_
  have hloop : Minds p s₀ ((p.incoming.childLinks i).forM (p.addChild resolve addSubtree i)) s₁ fun _ _ => True :=
    (Leads.forM_run (I := fun s => s.Sound p ∧ s.InTime p s₀ ∧ s.incomingFates.get? i = some .added)
      (D := fun _ _ => True) (fun _ h => h) (fun l hl s s' hrun h ⟨hs, hi, hadded⟩ =>
        ⟨((addChild_ends hp hT hs ho.1.contains (Graph.contains_of_mem_childLinks hl)).ok hrun).1.sound hs, h.inTime hi,
          h.incoming hadded⟩)
      ⟨hs₁, h₁.inTime hi, hadded⟩ fun l hl s ⟨hs, hi, hadded⟩ =>
        addChild_minds hp hT hM hs hi (Graph.mem_childLinks_iff.1 hl) hadded hsince).mono (fun _ _ _ _ => trivial) fun _ h => h
  exact hloop

/-- **With every amount of fuel roots and additions keep links timely.** -/
theorem mindful (hp : p.Consistent) : ∀ fuel : Nat, Mindful p s₀ (p.resolveRoot fuel) (p.addSubtree fuel)
  | 0 => ⟨fun {_ s} _ _ _ => .of_error (throw_run _ s) trivial, fun {_ _ s} _ _ _ _ => .of_error (throw_run _ s) trivial⟩
  | fuel + 1 =>
    ⟨fun hs hi ho => resolveRootWith_minds hp (trusted hp fuel) (mindful hp fuel) hs hi ho,
     fun hs hi ho timely => addSubtreeWith_minds hp (trusted hp fuel) (mindful hp fuel) hs hi ho timely⟩

/-! ## Placing -/

theorem timely_of_places (hp : p.incoming.Consistent) {links : PlannedLinks} (h : s.Places p i links) :
    Timely p s₀ s i links := by
  intro c q hlink
  obtain ⟨f, hf⟩ := SortedMap.contains_iff.1 (h.decided hlink)
  refine .inl ⟨f, hf, fun x => ?_⟩
  rw [h.mem_iff]
  constructor
  · rintro ⟨q', f', hlink', hf', hx⟩
    obtain rfl := hlink.unique hp hlink'
    obtain rfl := Option.some.inj (hf.symm.trans hf')
    exact hx
  · exact fun hx => ⟨q, f, hlink, hf, hx⟩

/-- **What placing needs**: every part of planning is what it promises to be. -/
structure Planned (p : Pass) (s₀ : Progress) (resolve : Resolver) (addSubtree : Adder) : Prop where
  guided : Guided p resolve addSubtree
  trusted : Trusted p resolve addSubtree
  mindful : Mindful p s₀ resolve addSubtree

/-- A state in the second half. -/
structure Settling (p : Pass) (s₀ s : Progress) : Prop where
  sound : s.Sound p
  explained : s.Explained p
  done : s.TargetDone p
  inTime : s.InTime p s₀

theorem placeUnder_minds (hR : Planned p s₀ resolve addSubtree) (hs : Settling p s₀ s) {links : PlannedLinks}
    (hi : s.incomingFates.get? i = none) (hthere : ∀ x ∈ links, x.2.There p) (timely : Timely p s₀ s i links) :
    Minds p s₀ (p.placeUnder addSubtree i links) s fun _ _ => True := by
  refine .looking lookup_ok_iff.1 fun data hd => .looking firstTargetChild_ok fun found _ => ?_
  cases found with
  | some t => exact settleIncoming_minds fun heq _ => Option.some.inj heq ▸ timely
  | none =>
    refine .looking acceptsIncoming_ok_iff.1 fun accepted hacc => ?_
    cases accepted with
    | true =>
      exact .bind (hR.mindful.add hs.sound hs.inTime ⟨hacc, hi, hthere⟩ fun l heq => Option.some.inj heq ▸ timely)
        fun _ _ _ _ => .pure trivial
    | false => exact .bind setIncomingFate_minds fun _ _ _ _ => .pure trivial

mutual
theorem place_minds (hp : p.Consistent) (hR : Planned p s₀ resolve addSubtree) : ∀ {t : Track} {s : Progress},
    t.Of p.incoming → Settling p s₀ s → Minds p s₀ (p.place resolve addSubtree t) s fun _ _ => True
  | .node id parents, s, hof, hs => by
    rw [place]
    refine .get_bind ?_
    cases hf : s.incomingFates.get? id with
    | some f => exact .pure trivial
    | none =>
      cases parents with
      | nil => exact hR.mindful.root hs.sound hs.inTime ⟨hof.contains, hf⟩
      | cons l rest =>
        have hnodup : (([] : PlannedLinks).map Prod.fst ++ (l :: rest).map Prod.fst).Nodup :=
          hof.connections_nodup hp.incoming
        refine .bind_run (placeAll_minds hp hR hof.above hs) fun links s₁ hrun h₁ _ => .get_bind ?_
        obtain ⟨hsteps, hthere⟩ := (placeAll_ends hR.trusted hof.above (fun _ h => by cases h) hs.sound hs.done).ok hrun
        obtain ⟨honward, hdecided, rfl⟩ := (placeAll_proceeds hp hR.guided hof.above hnodup hs.explained hs.done).ok hrun
        have hs₁ : Settling p s₀ s₁ := ⟨hsteps.sound hs.sound, honward.explained hs.explained,
          targetDone_after hsteps hs.done, h₁.inTime hs.inTime⟩
        cases hf₁ : s₁.incomingFates.get? id with
        | some f => exact .pure trivial
        | none =>
          dsimp only
          split
          · exact .bind setIncomingFate_minds fun _ _ _ _ => .pure trivial
          · exact placeUnder_minds hR hs₁ hf₁ hthere (timely_of_places hp.incoming (places_placesOf hof hdecided))
theorem placeAll_minds (hp : p.Consistent) (hR : Planned p s₀ resolve addSubtree) : ∀ {l : List (Connection × Track)}
    {links : PlannedLinks} {s : Progress}, (∀ x ∈ l, x.2.Of p.incoming) → Settling p s₀ s →
    Minds p s₀ (p.placeAll resolve addSubtree links l) s fun _ _ => True
  | [], _, _, _, _ => .pure trivial
  | (c, t) :: rest, links, s, hof, hs => by
    have hoft := hof _ List.mem_cons_self
    have hof' : ∀ x ∈ rest, x.2.Of p.incoming := fun x hx => hof x (List.mem_cons_of_mem _ hx)
    rw [placeAll]
    refine .bind_run (place_minds hp hR hoft hs) fun q s₁ hrun h₁ _ => ?_
    have hsteps := ((place_ends hR.trusted hoft hs.sound hs.done).ok hrun).1
    have honward := ((place_proceeds hp hR.guided hoft hs.explained hs.done).ok hrun).1
    have hs₁ : Settling p s₀ s₁ := ⟨hsteps.sound hs.sound, honward.explained hs.explained,
      targetDone_after hsteps hs.done, h₁.inTime hs.inTime⟩
    cases q with
    | none => exact placeAll_minds hp hR hof' hs₁
    | some q => exact placeAll_minds hp hR hof' hs₁
end

theorem classifyIncoming_minds (fuel : Nat) (hp : p.Consistent) (hs : Settling p s₀ s) :
    Minds p s₀ (p.classifyIncoming fuel i) s fun _ _ => True := by
  refine .get_bind ?_
  split
  · exact .pure trivial
  · refine .looking track_ok_iff.1 fun track htrack => ?_
    exact .bind (place_minds hp ⟨guided hp fuel, trusted hp fuel, mindful hp fuel⟩ (Track.ofGraph_of htrack).1 hs)
      fun _ _ _ _ => .pure trivial

end Pass
end Reconciliation
