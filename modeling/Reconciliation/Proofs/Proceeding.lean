import Reconciliation.Proofs.Leads
import Reconciliation.Proofs.Passes
import Reconciliation.Proofs.Reasons
/-!
# Planning goes on

Every function of planning that succeeds goes on from its state (`Proceeds`): what it writes down has a reason.  The
reasons come from below.  A search that finds nothing leaves nothing out, so a root without a counterpart is one that
the target has nothing for.  Parents are looked at in the order of the links, each connection once, so the links that
come out name each connection once.  And once the accepted target entities have fates, placing an entity decides about
it and about all its parents, and gives exactly their places (`place_proceeds`).
-/
namespace Reconciliation

open Progress

/-- **A computation that succeeds goes on** to an end with `post`. -/
abbrev Planning.Proceeds {α : Type} (p : Pass) (x : Planning α) (s : Progress) (post : α → Progress → Prop) : Prop :=
  Leads (Onward p) x s post fun _ => True

namespace Planning

variable {p : Pass} {s : Progress} {t i : EntityId} {links : Option PlannedLinks}

/-! ## Decisions -/

theorem relabel_proceeds (reason : TargetReason p s t (.relabelled i links)) :
    Proceeds p (relabel t i links) s fun _ s' => s'.incomingFates.get? i = some (.relabels t) :=
  .of_success fun h => by
    obtain ⟨-, ht, hi, rfl⟩ := relabel_ok_iff.1 h
    have hschedule := onward_schedule (p := p) s t (.relabel i links)
    have htarget := onward_setTarget (s := s.schedule t (.relabel i links)) ht (reason.grow fun h => h)
    have hincoming := onward_setIncoming (p := p) (i := i)
      (s := (s.schedule t (.relabel i links)).setTarget t (.relabelled i links)) hi (.relabels (t := t))
    exact ⟨trans_of _ (trans_of _ hschedule htarget) hincoming, SortedMap.get?_insert_self ..⟩

theorem remove_none_proceeds : Proceeds p (remove t none) s fun _ _ => True :=
  .of_success fun h => by
    obtain ⟨-, ht, rfl⟩ := remove_none_ok_iff.1 h
    exact ⟨trans_of _ (onward_schedule s t .remove) (onward_setTarget (s := s.schedule t .remove) ht .removed), trivial⟩

theorem remove_some_proceeds (rejected : p.IncomingIs false i) :
    Proceeds p (remove t (some i)) s fun _ _ => True :=
  .of_success fun h => by
    obtain ⟨-, ht, hi, rfl⟩ := remove_some_ok_iff.1 h
    have htarget := onward_setTarget (p := p) (s := s.schedule t .remove) ht .removed
    have hincoming := onward_setIncoming (s := (s.schedule t .remove).setTarget t .removed) hi (.rejected rejected)
    exact ⟨trans_of _ (trans_of _ (onward_schedule s t .remove) htarget) hincoming, trivial⟩

theorem keep_none_proceeds : Proceeds p (keep t none) s fun _ _ => True :=
  .of_success fun h => by
    obtain ⟨ht, rfl⟩ := keep_none_ok_iff.1 h
    exact ⟨onward_setTarget ht .kept, trivial⟩

theorem keep_some_proceeds (rejected : p.IncomingIs false i) :
    Proceeds p (keep t (some i)) s fun _ s' => s'.incomingFates.get? i = some (.kept t) :=
  .of_success fun h => by
    obtain ⟨ht, hi, rfl⟩ := keep_some_ok_iff.1 h
    have hincoming := onward_setIncoming (s := s.setTarget t (.kept (some i))) hi (.bystander (t := t) rejected)
    exact ⟨trans_of _ (onward_setTarget ht .kept) hincoming, SortedMap.get?_insert_self ..⟩

theorem setIncomingFate_proceeds {f : IncomingFate} (reason : IncomingReason p s i f) :
    Proceeds p (setIncomingFate i f) s fun _ s' => s'.incomingFates.get? i = some f :=
  .of_success fun h => by
    obtain ⟨hi, rfl⟩ := setIncomingFate_ok_iff.1 h
    exact ⟨onward_setIncoming hi reason, SortedMap.get?_insert_self ..⟩

theorem lose_proceeds (reason : IncomingReason p s i .lost) :
    Proceeds p (lose i) s fun _ s' => s'.incomingFates.get? i = some .lost := setIncomingFate_proceeds reason

theorem add_proceeds (reason : AdditionReason p s i links) :
    Proceeds p (add links i) s fun _ s' => s'.incomingFates.get? i = some .added :=
  .of_success fun h => by
    obtain ⟨hi, rfl⟩ := add_ok_iff.1 h
    have hincoming := onward_setIncoming (p := p) (s := s.addition ⟨links, i⟩) hi .added
    exact ⟨trans_of _ (onward_addition reason) hincoming, SortedMap.get?_insert_self ..⟩

end Planning

namespace Pass

open Planning

variable {p : Pass} {s : Progress} {t i : EntityId} {links : Option PlannedLinks} {data : Entity}

/-! ## Alike entities -/

theorem sameContent_iff {e d : Entity} : e.sameContent d = true ↔ e.kind = d.kind ∧ e.attributes = d.attributes := by
  simp only [Entity.sameContent, Bool.and_eq_true, decide_eq_true_eq]

theorem sameContent_comm {e d : Entity} (h : e.sameContent d = true) : d.sameContent e = true :=
  let ⟨hkind, hattributes⟩ := sameContent_iff.1 h
  sameContent_iff.2 ⟨hkind.symm, hattributes.symm⟩

theorem naturalKey?_congr (sch : Schema) {e d : Entity} (hkind : e.kind = d.kind) (hattributes : e.attributes = d.attributes) :
    sch.naturalKey? e = sch.naturalKey? d := by
  simp only [Schema.naturalKey?, Entity.get?, hkind, hattributes]

theorem kind_of_naturalKey? {sch : Schema} {e : Entity} {key : NaturalKey} (h : sch.naturalKey? e = some key) :
    key.kind = e.kind := by
  rw [Schema.naturalKey?] at h
  split at h
  · cases h
  · split at h
    · cases h
    · rw [← Option.some.inj h]

theorem alike_of_sameContent {e d : Entity} (he : p.target.entity t = .ok e) (hd : p.incoming.entity i = .ok d)
    (h : e.sameContent d = true) : p.Alike t i :=
  let ⟨hkind, hattributes⟩ := sameContent_iff.1 h
  ⟨e, d, he, hd, hkind, naturalKey?_congr _ hkind hattributes⟩

theorem Answers.alike (hp : p.Consistent) (h : p.Answers t i) : p.Alike t i := by
  obtain ⟨d, hd, hmatch⟩ := h
  cases hkey : p.target.schema.naturalKey? d with
  | some key =>
    rw [hkey] at hmatch
    obtain ⟨n, hn, hnkey⟩ := hp.target.owner.1 hmatch
    refine ⟨n.data, d, Graph.entity_ok_iff.2 ⟨n, hn, rfl⟩, hd, ?_, hnkey.trans hkey.symm⟩
    rw [← kind_of_naturalKey? hnkey, ← kind_of_naturalKey? hkey]
  | none =>
    rw [hkey] at hmatch
    obtain ⟨e, he, hsame⟩ := hmatch
    exact alike_of_sameContent he hd hsame

/-! ## Pairs -/

theorem unpaired_proceeds : Proceeds p (p.unpaired t) s fun _ _ => True := by
  refine .looking acceptsTarget_ok_iff.1 fun accepted _ => ?_
  cases accepted with
  | true => exact .bind remove_none_proceeds fun _ _ _ _ => .pure trivial
  | false => exact .bind keep_none_proceeds fun _ _ _ _ => .pure trivial

theorem settlePair_proceeds (reason : TargetReason p s t (.relabelled i links)) :
    Proceeds p (p.settlePair t i links) s fun _ _ => True := by
  refine .looking acceptsTarget_ok_iff.1 fun targetAccepted _ => .looking acceptsIncoming_ok_iff.1 fun accepted hacc => ?_
  cases accepted with
  | true => exact .bind (relabel_proceeds reason) fun _ _ _ _ => .pure trivial
  | false =>
    cases targetAccepted with
    | true => exact .bind (remove_some_proceeds hacc) fun _ _ _ _ => .pure trivial
    | false => exact .bind (keep_some_proceeds hacc) fun _ _ _ _ => .pure trivial

theorem findInIncoming_proceeds {skip : EntityId → Bool} : Proceeds p (p.findInIncoming data skip) s
    fun r _ => ∀ i, r = some i → ∃ d, p.incoming.entity i = .ok d ∧ d.sameContent data = true := by
  refine .of_success fun h => ?_
  simp only [findInIncoming, get_bind, modify_bind] at h
  obtain ⟨hfound, rfl⟩ := lookup_ok_iff.1 h
  refine ⟨onward_incomingIndex s _, fun i hi => ?_⟩
  subst hi
  exact (Graph.firstMatch_some hfound).2.2

theorem settleRootPair_proceeds {found : Option EntityId} (halike : ∀ i, found = some i → p.Alike t i) :
    Proceeds p (p.settleRootPair t found) s fun _ _ => True := by
  cases found with
  | none => exact unpaired_proceeds
  | some i => exact settlePair_proceeds (.data (halike i rfl))

theorem pairRoot_proceeds (hp : p.Consistent) : Proceeds p (p.pairRoot t) s fun _ _ => True := by
  refine .looking lookup_ok_iff.1 fun e he => .get_bind ?_
  cases hkey : p.target.schema.naturalKey? e with
  | none =>
    refine .bind findInIncoming_proceeds fun found s₁ _ hfound => settleRootPair_proceeds fun i hi => ?_
    obtain ⟨d, hd, hsame⟩ := hfound i hi
    exact alike_of_sameContent he hd (sameContent_comm hsame)
  | some key =>
    refine .bind_look (pure_run _ s) (settleRootPair_proceeds fun i hi => ?_)
    obtain ⟨n, hn, hnkey⟩ := hp.incoming.owner.1 (Option.filter_eq_some_iff.1 hi).1
    rw [← hp.schema] at hnkey
    refine ⟨e, n.data, he, Graph.entity_ok_iff.2 ⟨n, hn, rfl⟩, ?_, hkey.trans hnkey.symm⟩
    rw [← kind_of_naturalKey? hkey, ← kind_of_naturalKey? hnkey]

/-! ## Links -/

theorem single_link {links : PlannedLinks} {c : Connection} {q : PlannedParent} (h : links.Single) :
    (links.link c q).Single := by
  rw [PlannedLinks.link]
  split
  · exact h
  · next hany =>
    have hnew : c ∉ links.map Prod.fst := by simpa using hany
    rw [PlannedLinks.Single, List.map_append, List.nodup_append]
    refine ⟨h, by simp, fun a ha b hb heq => hnew ?_⟩
    obtain rfl : b = c := List.mem_singleton.1 hb
    rwa [← heq]

theorem subset_link (links : PlannedLinks) (c : Connection) (q : PlannedParent) : links ⊆ links.link c q := by
  rw [PlannedLinks.link]
  split
  · exact List.Subset.refl _
  · exact List.subset_append_left _ _

theorem firstHit_ok {s' : Progress} {r : Option (EntityId × ResolvedParent × List ResolvedParent)} :
    ∀ {parents : List ResolvedParent}, p.firstHit data parents s = .ok r s' →
    (∀ hit, r = some hit → ∃ d, p.incoming.entity hit.1 = .ok d ∧ d.sameContent data = true) ∧ s' = s
  | [], h => by
    obtain ⟨rfl, rfl⟩ := EStateM.Result.ok.inj h
    exact ⟨fun _ h => (by cases h), rfl⟩
  | ⟨c, target, none⟩ :: rest, h => by
    rw [firstHit] at h
    exact firstHit_ok h
  | ⟨c, target, some parent⟩ :: rest, h => by
    simp only [firstHit, get_bind] at h
    obtain ⟨found, s₁, hlook, hrest⟩ := bind_ok_iff.1 h
    obtain ⟨hfound, hs₁⟩ := lookup_ok_iff.1 hlook
    subst s₁
    cases found with
    | none => exact firstHit_ok hrest
    | some i =>
      obtain ⟨rfl, rfl⟩ := EStateM.Result.ok.inj hrest
      refine ⟨fun hit heq => ?_, rfl⟩
      rw [← Option.some.inj heq]
      exact (Graph.findChild_some hfound).2.2

theorem linkLater_ok {s' : Progress} {links' : PlannedLinks} : ∀ {later : List ResolvedParent} {links : PlannedLinks},
    p.linkLater i links later s = .ok links' s' →
    ((links.Single → links'.Single) ∧ ∀ c x, (c, .added x) ∈ links' → (c, .added x) ∈ links) ∧ s' = s
  | [], _, h => by
    obtain ⟨rfl, rfl⟩ := EStateM.Result.ok.inj h
    exact ⟨⟨id, fun _ _ h => h⟩, rfl⟩
  | ⟨c, target, none⟩ :: rest, links, h => by
    rw [linkLater] at h
    exact linkLater_ok h
  | ⟨c, target, some parent⟩ :: rest, links, h => by
    rw [linkLater] at h
    obtain ⟨children, s₁, hlook, hrest⟩ := bind_ok_iff.1 h
    obtain ⟨-, hs₁⟩ := lookup_ok_iff.1 hlook
    subst s₁
    split at hrest
    · obtain ⟨⟨hsingle, hold⟩, hs⟩ := linkLater_ok hrest
      refine ⟨⟨fun hl => hsingle (single_link hl), fun c' x hx => ?_⟩, hs⟩
      -- the new link leads to a target entity
      exact (mem_link (hold c' x hx)).resolve_right fun heq => by cases heq
    · exact linkLater_ok hrest

theorem firstTargetChild_ok {s' : Progress} {r : Option EntityId} : ∀ {links : PlannedLinks},
    p.firstTargetChild data links s = .ok r s' →
    (∀ t, r = some t → ∃ e, p.target.entity t = .ok e ∧ e.sameContent data = true) ∧ s' = s
  | [], h => by
    obtain ⟨rfl, rfl⟩ := EStateM.Result.ok.inj h
    exact ⟨fun _ h => (by cases h), rfl⟩
  | (c, .added _) :: rest, h => by
    rw [firstTargetChild] at h
    exact firstTargetChild_ok h
  | (c, .target parent) :: rest, h => by
    simp only [firstTargetChild, get_bind] at h
    obtain ⟨found, s₁, hlook, hrest⟩ := bind_ok_iff.1 h
    obtain ⟨hfound, hs₁⟩ := lookup_ok_iff.1 hlook
    subst s₁
    cases found with
    | none => exact firstTargetChild_ok hrest
    | some t =>
      obtain ⟨rfl, rfl⟩ := EStateM.Result.ok.inj hrest
      refine ⟨fun u heq => ?_, rfl⟩
      rw [← Option.some.inj heq]
      exact (Graph.findChild_some hfound).2.2

end Pass
end Reconciliation
