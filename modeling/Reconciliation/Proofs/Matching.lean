import Reconciliation.Proofs.Timely
/-!
# Unambiguous matchings

Planning looks for a counterpart by natural key, by content, and below the counterparts of parents, and takes the first
that it finds.  When there is a matching of the two graphs with which everything that it may find agrees
(`Pass.Matching`), what it writes down does not depend on the order of its searches: an entity takes over data from its
mate, stays because of it or goes in spite of it, and an incoming entity has its place at its mate or at its copy
(`Pass.HasPlace`).  `Progress.Matched` says that all fates so far are of this kind.
-/
namespace Reconciliation

open Relation Progress Planning

namespace Pass

/-- A target entity and an incoming one have equal content. -/
def SameContent (p : Pass) (t i : EntityId) : Prop :=
  ∃ e d, p.target.entity t = .ok e ∧ p.incoming.entity i = .ok d ∧ e.sameContent d = true

/-- **A target entity stays with its mate**, unless it is accepted and the mate is not. -/
def Stays (p : Pass) (t i : EntityId) : Prop := p.TargetIs false t ∨ p.IncomingIs true i

/-- A target entity that a pass comes to: it is accepted, or something below it is. -/
def Busy (p : Pass) (t : EntityId) : Prop := ∃ d, p.TargetIs true d ∧ ReflTransGen p.target.IsParent t d

/-- **An unambiguous matching of the two graphs.**  Mates are both roots, one of which answers the other, or they have
equal content and a link in common.  Whatever a pass may take for a counterpart is the mate: what answers a root, and
what has equal content below mates that stay.  The parents of a mate have mates that stay.  And of the parents of an
accepted incoming entity that has no mate all but one have mates that stay. -/
structure Matching (p : Pass) (mates : EntityId → EntityId → Prop) : Prop where
  target_unique : ∀ {t t' i}, mates t i → mates t' i → t = t'
  incoming_unique : ∀ {t i i'}, mates t i → mates t i' → i = i'
  root_iff : ∀ {t i}, mates t i → (p.target.IsRoot t ↔ p.incoming.IsRoot i)
  answers : ∀ {t i}, mates t i → p.incoming.IsRoot i → p.Answers t i
  sameContent : ∀ {t i}, mates t i → ¬p.incoming.IsRoot i → p.SameContent t i
  shared : ∀ {t i}, mates t i → ¬p.incoming.IsRoot i →
    ∃ c u j, p.target.HasLink t c u ∧ p.incoming.HasLink i c j ∧ mates u j
  above : ∀ {t i c j}, mates t i → p.incoming.HasLink i c j → ∃ u, mates u j ∧ p.Stays u j
  target_root : ∀ {t i}, p.target.IsRoot t → p.Busy t → p.Answers t i → mates t i
  incoming_root : ∀ {t i}, p.incoming.IsRoot i → p.Answers t i → mates t i
  child : ∀ {t u i j c}, p.target.HasLink t c u → p.incoming.HasLink i c j → mates u j → p.Stays u j →
    p.SameContent t i → mates t i
  alone : ∀ {i c c' j j'}, p.IncomingIs true i → (∀ t, ¬mates t i) → p.incoming.HasLink i c j →
    p.incoming.HasLink i c' j' → (c, j) ≠ (c', j') → (∃ u, mates u j ∧ p.Stays u j) ∨ ∃ u, mates u j' ∧ p.Stays u j'

/-- **The place that a matching gives an incoming entity**: its mate, or its copy when it is accepted and has none. -/
inductive HasPlace (p : Pass) (mates : EntityId → EntityId → Prop) : EntityId → PlannedParent → Prop
  | mate {t i : EntityId} (mate : mates t i) (stays : p.Stays t i) : HasPlace p mates i (.target t)
  | root {i : EntityId} (root : p.incoming.IsRoot i) (accepted : p.IncomingIs true i) (free : ∀ t, ¬mates t i) :
    HasPlace p mates i (.added i)
  | child {i j : EntityId} {c : Connection} {q : PlannedParent} (link : p.incoming.HasLink i c j)
    (parent : HasPlace p mates j q) (accepted : p.IncomingIs true i) (free : ∀ t, ¬mates t i) :
    HasPlace p mates i (.added i)

/-- **Links lead to the places of all parents.** -/
def LinksFit (p : Pass) (mates : EntityId → EntityId → Prop) (i : EntityId) (links : Option PlannedLinks) : Prop :=
  ∀ c q, (c, q) ∈ links.getD [] ↔ ∃ j, p.incoming.HasLink i c j ∧ p.HasPlace mates j q

/-- **What a matching makes of a target entity.** -/
inductive TargetFits (p : Pass) (mates : EntityId → EntityId → Prop) (t : EntityId) : TargetFate → Prop
  | relabelled {i : EntityId} {links : Option PlannedLinks} (mate : mates t i) (accepted : p.IncomingIs true i)
    (fit : p.LinksFit mates i links) : TargetFits p mates t (.relabelled i links)
  | removed (accepted : p.TargetIs true t) (rejected : ∀ {i}, mates t i → p.IncomingIs false i) :
    TargetFits p mates t .removed
  | kept {i : EntityId} (mate : mates t i) (rejected : p.TargetIs false t) (rejected' : p.IncomingIs false i) :
    TargetFits p mates t (.kept (some i))
  | unpaired (rejected : p.TargetIs false t) (free : ∀ i, ¬mates t i) : TargetFits p mates t (.kept none)

variable {p : Pass} {mates : EntityId → EntityId → Prop} {t u i j : EntityId} {c : Connection} {q q' : PlannedParent}

/-! ## Places -/

theorem HasPlace.of_free (h : p.HasPlace mates i q) (free : ∀ t, ¬mates t i) : q = .added i ∧ p.IncomingIs true i := by
  cases h with
  | mate mate _ => exact absurd mate (free _)
  | root _ accepted _ => exact ⟨rfl, accepted⟩
  | child _ _ accepted _ => exact ⟨rfl, accepted⟩

theorem HasPlace.of_added (h : p.HasPlace mates i (.added j)) : p.IncomingIs true i ∧ ∀ t, ¬mates t i := by
  cases h with
  | root _ accepted free => exact ⟨accepted, free⟩
  | child _ _ accepted free => exact ⟨accepted, free⟩

theorem HasPlace.of_mate (hM : p.Matching mates) (h : p.HasPlace mates i q) (mate : mates t i) :
    q = .target t ∧ p.Stays t i := by
  cases h with
  | mate mate' stays =>
    obtain rfl := hM.target_unique mate mate'
    exact ⟨rfl, stays⟩
  | root _ _ free => exact absurd mate (free _)
  | child _ _ _ free => exact absurd mate (free _)

theorem hasPlace_target_iff : p.HasPlace mates i (.target t) ↔ mates t i ∧ p.Stays t i := by
  constructor
  · intro h
    cases h with
    | mate mate stays => exact ⟨mate, stays⟩
  · exact fun ⟨mate, stays⟩ => .mate mate stays

theorem HasPlace.unique (hM : p.Matching mates) (h : p.HasPlace mates i q) (h' : p.HasPlace mates i q') : q = q' := by
  by_cases hmate : ∃ t, mates t i
  · obtain ⟨t, ht⟩ := hmate
    rw [(h.of_mate hM ht).1, (h'.of_mate hM ht).1]
  · have free : ∀ t, ¬mates t i := fun t ht => hmate ⟨t, ht⟩
    rw [(h.of_free free).1, (h'.of_free free).1]

theorem not_hasPlace_of_removed (hM : p.Matching mates) (mate : mates t i) (accepted : p.TargetIs true t)
    (rejected : p.IncomingIs false i) : ¬p.HasPlace mates i q := by
  intro h
  rcases (h.of_mate hM mate).2 with hacc | hacc
  · cases hacc.unique accepted
  · cases hacc.unique rejected

theorem not_hasPlace_of_rejected (free : ∀ t, ¬mates t i) (rejected : p.IncomingIs false i) : ¬p.HasPlace mates i q :=
  fun h => by cases (h.of_free free).2.unique rejected

/-! ## Mates -/

/-- What answers a root has its natural key, or neither has one and their content is equal. -/
theorem answers_iff (hp : p.Consistent) : p.Answers t i ↔ ∃ e d, p.target.entity t = .ok e ∧ p.incoming.entity i = .ok d ∧
    p.target.schema.naturalKey? e = p.target.schema.naturalKey? d ∧
      (p.target.schema.naturalKey? d = none → e.sameContent d = true) := by
  constructor
  · intro h
    obtain ⟨e, d, he, hd, -, hkeys⟩ := h.alike hp
    refine ⟨e, d, he, hd, hkeys, fun hnone => ?_⟩
    obtain ⟨d', hd', hmatch⟩ := h
    obtain rfl := Except.ok.inj (hd.symm.trans hd')
    rw [hnone] at hmatch
    obtain ⟨e', he', hsame⟩ := hmatch
    obtain rfl := Except.ok.inj (he.symm.trans he')
    exact hsame
  · rintro ⟨e, d, he, hd, hkeys, hsame⟩
    refine ⟨d, hd, ?_⟩
    cases hkey : p.target.schema.naturalKey? d with
    | none => exact ⟨e, he, hsame hkey⟩
    | some key =>
      obtain ⟨n, hn, rfl⟩ := Graph.entity_ok_iff.1 he
      exact hp.target.owner.2 ⟨n, hn, hkeys.trans hkey⟩

theorem Answers.contains (hp : p.Consistent) (h : p.Answers t i) :
    p.target.contains t = true ∧ p.incoming.contains i = true :=
  let ⟨_, _, he, hd, _⟩ := h.alike hp
  ⟨Graph.contains_of_entity he, Graph.contains_of_entity hd⟩

theorem SameContent.contains (h : p.SameContent t i) : p.target.contains t = true ∧ p.incoming.contains i = true :=
  let ⟨_, _, he, hd, _⟩ := h
  ⟨Graph.contains_of_entity he, Graph.contains_of_entity hd⟩

theorem SameContent.alike (h : p.SameContent t i) : p.Alike t i :=
  let ⟨_, _, he, hd, hsame⟩ := h
  alike_of_sameContent he hd hsame

theorem Matching.alike (hp : p.Consistent) (hM : p.Matching mates) (h : mates t i) : p.Alike t i := by
  by_cases hroot : p.incoming.IsRoot i
  · exact (hM.answers h hroot).alike hp
  · exact (hM.sameContent h hroot).alike

theorem Matching.contains (hp : p.Consistent) (hM : p.Matching mates) (h : mates t i) :
    p.target.contains t = true ∧ p.incoming.contains i = true :=
  let ⟨_, _, he, hd, _⟩ := hM.alike hp h
  ⟨Graph.contains_of_entity he, Graph.contains_of_entity hd⟩

theorem Matching.place_above (hM : p.Matching mates) (h : mates t i) (hlink : p.incoming.HasLink i c j) :
    ∃ u, mates u j ∧ p.HasPlace mates j (.target u) :=
  let ⟨u, hu, stays⟩ := hM.above h hlink
  ⟨u, hu, .mate hu stays⟩

theorem linksFit_root (h : p.incoming.IsRoot i) : p.LinksFit mates i none := fun c q =>
  ⟨fun h => (by cases h), fun ⟨_, hlink, _⟩ => absurd hlink h.not_hasLink⟩

/-- When a parent of something that is copied has no mate, all others have mates that stay. -/
theorem Matching.alone_parent (hM : p.Matching mates) {c' : Connection} (accepted : p.IncomingIs true i)
    (free : ∀ t, ¬mates t i) (hlink : p.incoming.HasLink i c j) (free' : ∀ u, ¬mates u j) {j' : EntityId}
    (hlink' : p.incoming.HasLink i c' j') (hne : (c, j) ≠ (c', j')) :
    ∃ u, mates u j' ∧ p.Stays u j' :=
  (hM.alone accepted free hlink hlink' hne).resolve_left fun ⟨u, hu, _⟩ => free' u hu

end Pass

/-! ## Fates as the matching has them -/

namespace Progress

/-- **All fates so far are as a matching has them**, and mates get theirs together. -/
structure Matched (p : Pass) (mates : EntityId → EntityId → Prop) (s : Progress) : Prop where
  target : ∀ {t f}, s.targetFates.get? t = some f → p.TargetFits mates t f
  incoming : ∀ {i f q}, s.incomingFates.get? i = some f → (f.asParent i = some q ↔ p.HasPlace mates i q)
  together : ∀ {t i}, mates t i → (s.targetFates.contains t = true ↔ s.incomingFates.contains i = true)
  added : ∀ {a}, a ∈ s.plan.additions → p.LinksFit mates a.incoming a.links
  targetIndex : s.targetIndex.Coherent Entity.digest p.target
  incomingIndex : s.incomingIndex.Coherent Entity.digest p.incoming

/-- **Planning goes by a matching**: fates are added, and they go on being as it has them. -/
structure Conforms (p : Pass) (mates : EntityId → EntityId → Prop) (s s' : Progress) : Prop where
  incoming : Grows s.incomingFates s'.incomingFates
  matched : s.Matched p mates → s'.Matched p mates

variable {p : Pass} {mates : EntityId → EntityId → Prop} {s s' : Progress} {t i : EntityId}

instance : Std.Refl (Conforms p mates) where
  refl _ := ⟨fun h => h, fun h => h⟩

instance : IsTrans Progress (Conforms p mates) where
  trans _ _ _ h h' := ⟨fun hk => h'.incoming (h.incoming hk), fun hs => h'.matched (h.matched hs)⟩

theorem matched_start (p : Pass) (mates : EntityId → EntityId → Prop) : Progress.start.Matched p mates where
  target h := by cases h
  incoming h := by cases h
  together _ := Iff.rfl
  added h := by cases h
  targetIndex := ContentIndex.coherent_empty
  incomingIndex := ContentIndex.coherent_empty

theorem Matched.free (hs : s.Matched p mates) (mate : mates t i) (ht : s.targetFates.get? t = none) :
    s.incomingFates.get? i = none := by
  rw [← SortedMap.contains_eq_false_iff, ← Bool.not_eq_true, ← hs.together mate, Bool.not_eq_true,
    SortedMap.contains_eq_false_iff]
  exact ht

theorem Matched.free_target (hs : s.Matched p mates) (mate : mates t i) (hi : s.incomingFates.get? i = none) :
    s.targetFates.get? t = none := by
  rw [← SortedMap.contains_eq_false_iff, ← Bool.not_eq_true, hs.together mate, Bool.not_eq_true,
    SortedMap.contains_eq_false_iff]
  exact hi

/-! ## Writes -/

theorem conforms_schedule (s : Progress) (t : EntityId) (o : Operation) : Conforms p mates s (s.schedule t o) where
  incoming h := h
  matched hs := ⟨hs.target, hs.incoming, hs.together, hs.added, hs.targetIndex, hs.incomingIndex⟩

theorem conforms_targetIndex (s : Progress) (data : Entity) :
    Conforms p mates s { s with targetIndex := (s.targetIndex.candidates Entity.digest p.target data).2 } where
  incoming h := h
  matched hs := ⟨hs.target, hs.incoming, hs.together, hs.added, hs.targetIndex.after_candidates data, hs.incomingIndex⟩

theorem conforms_incomingIndex (s : Progress) (data : Entity) :
    Conforms p mates s { s with incomingIndex := (s.incomingIndex.candidates Entity.digest p.incoming data).2 } where
  incoming h := h
  matched hs := ⟨hs.target, hs.incoming, hs.together, hs.added, hs.targetIndex, hs.incomingIndex.after_candidates data⟩

theorem conforms_pair (hM : p.Matching mates) {f : TargetFate} {g : IncomingFate} (mate : mates t i)
    (hi : s.incomingFates.get? i = none) (target : p.TargetFits mates t f)
    (place : ∀ {q}, g.asParent i = some q ↔ p.HasPlace mates i q) :
    Conforms p mates s ((s.setTarget t f).setIncoming i g) where
  incoming := grows_insert hi
  matched hs := {
    target := fun {u f'} h => by
      rw [setIncoming, setTarget, SortedMap.get?_insert] at h
      split at h
      · next heq => exact heq ▸ Option.some.inj h ▸ target
      · exact hs.target h
    incoming := fun {j g' q} h => by
      rw [setIncoming, SortedMap.get?_insert] at h
      split at h
      · next heq => exact heq ▸ Option.some.inj h ▸ place
      · exact hs.incoming h
    together := fun {u j} hu => by
      show (s.targetFates.insert t f).contains u = true ↔ (s.incomingFates.insert i g).contains j = true
      rw [SortedMap.contains_insert_iff, SortedMap.contains_insert_iff, hs.together hu]
      refine or_congr_left ⟨fun heq => ?_, fun heq => ?_⟩
      · exact hM.incoming_unique hu (heq ▸ mate)
      · exact hM.target_unique hu (heq ▸ mate)
    added := hs.added
    targetIndex := hs.targetIndex
    incomingIndex := hs.incomingIndex }

theorem conforms_setTarget {f : TargetFate} (free : ∀ i, ¬mates t i) (target : p.TargetFits mates t f) :
    Conforms p mates s (s.setTarget t f) where
  incoming h := h
  matched hs := {
    target := fun {u f'} h => by
      rw [setTarget, SortedMap.get?_insert] at h
      split at h
      · next heq => exact heq ▸ Option.some.inj h ▸ target
      · exact hs.target h
    incoming := hs.incoming
    together := fun {u j} hu => by
      show (s.targetFates.insert t f).contains u = true ↔ _
      rw [SortedMap.contains_insert_iff, hs.together hu]
      exact or_iff_right fun heq => free j (heq ▸ hu)
    added := hs.added
    targetIndex := hs.targetIndex
    incomingIndex := hs.incomingIndex }

theorem conforms_setIncoming {g : IncomingFate} (free : ∀ t, ¬mates t i) (hi : s.incomingFates.get? i = none)
    (place : ∀ {q}, g.asParent i = some q ↔ p.HasPlace mates i q) : Conforms p mates s (s.setIncoming i g) where
  incoming := grows_insert hi
  matched hs := {
    target := hs.target
    incoming := fun {j g' q} h => by
      rw [setIncoming, SortedMap.get?_insert] at h
      split at h
      · next heq => exact heq ▸ Option.some.inj h ▸ place
      · exact hs.incoming h
    together := fun {u j} hu => by
      show s.targetFates.contains u = true ↔ (s.incomingFates.insert i g).contains j = true
      rw [SortedMap.contains_insert_iff, hs.together hu]
      refine (or_iff_right ?_).symm
      exact fun heq => free u (heq ▸ hu)
    added := hs.added
    targetIndex := hs.targetIndex
    incomingIndex := hs.incomingIndex }

theorem conforms_addition {links : Option PlannedLinks} (fit : p.LinksFit mates i links) :
    Conforms p mates s (s.addition ⟨links, i⟩) where
  incoming h := h
  matched hs := {
    target := hs.target
    incoming := hs.incoming
    together := hs.together
    added := fun {a} h => (List.mem_append.1 h).elim hs.added fun h => by
      rw [List.mem_singleton.1 h]
      exact fit
    targetIndex := hs.targetIndex
    incomingIndex := hs.incomingIndex }

end Progress
end Reconciliation
