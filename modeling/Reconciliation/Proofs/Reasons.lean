import Reconciliation.Proofs.Decisions
import Reconciliation.Proofs.Outcomes
/-!
# Why an entity has its fate

Planning decides for reasons, and a reason that held once goes on holding, since fates are only added.  A target entity
takes over data only from an entity that is alike, and the links that it gets cover what it requires, or they lead to
the places of the counterpart's parents.  An incoming entity is copied because the target has nothing for it, because
its parents have places, or along with a parent.  It loses its place because it is not accepted, because what the target
has for it is removed, or because all its parents have lost theirs.

Links can lead to copies that are not made yet.  Each of them is promised (`Progress.Promised`): going up from it through
accepted entities one comes to an entity that is copied.

`Progress.Explained` says that every fate that is written down has such a reason, and `Progress.Onward` that planning
goes on from one state to another without losing this.
-/
namespace Reconciliation

open Progress

namespace Graph

/-- One entity has another one as its parent through a connection. -/
def HasLink (g : Graph) (child : EntityId) (c : Connection) (parent : EntityId) : Prop :=
  ∃ n, g.nodes.get? child = some n ∧ (c, parent) ∈ n.parents

/-- An entity is there and has no parents. -/
def IsRoot (g : Graph) (id : EntityId) : Prop := ∃ n, g.nodes.get? id = some n ∧ n.parents = []

variable {g : Graph} {id parent : EntityId} {c : Connection}

theorem IsRoot.not_hasLink (h : g.IsRoot id) : ¬g.HasLink id c parent := by
  obtain ⟨n, hn, hnil⟩ := h
  rintro ⟨n', hn', hmem⟩
  obtain rfl := Option.some.inj (hn.symm.trans hn')
  rw [hnil] at hmem
  cases hmem

theorem HasLink.isParent (h : g.HasLink id c parent) : g.IsParent parent id :=
  let ⟨n, hn, hmem⟩ := h
  ⟨n, c, hn, hmem⟩

end Graph

namespace Track

variable {g : Graph} {t : Track} {c : Connection} {q : EntityId}

theorem Of.hasLink_iff (h : t.Of g) : g.HasLink t.entity c q ↔ ∃ l ∈ t.parents, l.1 = c ∧ l.2.entity = q := by
  cases h with
  | node links _ =>
    obtain ⟨n, hn, heq⟩ := Graph.parentsOf_ok_iff.1 links
    simp only [Graph.HasLink, entity, hn, Option.some.injEq, exists_eq_left', heq, List.mem_map, parents, Prod.mk.injEq]

theorem Of.isRoot_iff (h : t.Of g) : g.IsRoot t.entity ↔ t.parents = [] := by
  cases h with
  | node links _ =>
    obtain ⟨n, hn, heq⟩ := Graph.parentsOf_ok_iff.1 links
    simp only [Graph.IsRoot, entity, hn, Option.some.injEq, exists_eq_left', heq, List.map_eq_nil_iff, parents]

theorem Of.connections_nodup (h : t.Of g) (hg : g.Consistent) : (t.parents.map Prod.fst).Nodup := by
  cases h with
  | node links _ =>
    obtain ⟨n, hn, heq⟩ := Graph.parentsOf_ok_iff.1 links
    have hnodup := hg.connections hn
    rw [heq, List.map_map] at hnodup
    exact hnodup

end Track

namespace Pass

/-- A target entity and an incoming one are of one kind and have the same natural key, or both have none. -/
def Alike (p : Pass) (t i : EntityId) : Prop :=
  ∃ e d, p.target.entity t = .ok e ∧ p.incoming.entity i = .ok d ∧ e.kind = d.kind ∧
    p.target.schema.naturalKey? e = p.target.schema.naturalKey? d

/-- **What the target has for an incoming root**: the owner of its natural key, or, when it has none, each entity of
equal content. -/
def Answers (p : Pass) (t i : EntityId) : Prop :=
  ∃ d, p.incoming.entity i = .ok d ∧
    match p.target.schema.naturalKey? d with
    | some key => p.target.resolve key = some t
    | none => ∃ e, p.target.entity t = .ok e ∧ e.sameContent d = true

end Pass

/-- Links name each connection at most once. -/
def PlannedLinks.Single (links : PlannedLinks) : Prop := (links.map Prod.fst).Nodup

/-- **Links lead to the places of an entity's parents**, all of which are decided about. -/
structure Progress.Places (p : Pass) (s : Progress) (i : EntityId) (links : PlannedLinks) : Prop where
  decided : ∀ {c q}, p.incoming.HasLink i c q → s.incomingFates.contains q = true
  mem_iff : ∀ {c x}, (c, x) ∈ links ↔
    ∃ q f, p.incoming.HasLink i c q ∧ s.incomingFates.get? q = some f ∧ f.asParent q = some x

/-- **A copy is promised**: the entity is copied, or it is accepted and a copy of one of its parents is promised. -/
inductive Progress.Promised (p : Pass) (s : Progress) : EntityId → Prop
  | added {i : EntityId} (added : s.incomingFates.get? i = some .added) : Promised p s i
  | under {i q : EntityId} {c : Connection} (accepted : p.IncomingIs true i) (link : p.incoming.HasLink i c q)
    (above : Promised p s q) : Promised p s i

/-- Links lead to copies only where those are promised, and are copies of an entity's parents. -/
def Progress.Promises (p : Pass) (s : Progress) (i : EntityId) (links : PlannedLinks) : Prop :=
  ∀ c x, (c, .added x) ∈ links → p.incoming.HasLink i c x ∧ s.Promised p x

/-- **Why a target entity has its fate.**  Only what it takes over needs a reason. -/
inductive TargetReason (p : Pass) (s : Progress) (t : EntityId) : TargetFate → Prop
  | kept {i : Option EntityId} : TargetReason p s t (.kept i)
  | removed : TargetReason p s t .removed
  /-- It takes over data alone. -/
  | data {i : EntityId} (alike : p.Alike t i) : TargetReason p s t (.relabelled i none)
  /-- The links that it gets cover what it requires. -/
  | covered {i : EntityId} {links : PlannedLinks} (alike : p.Alike t i) (single : links.Single)
    (covered : p.uncovered t.kind links = false) (promises : s.Promises p i links) :
    TargetReason p s t (.relabelled i (some links))
  /-- It is not accepted, and was found where its counterpart belongs. -/
  | placed {i : EntityId} {links : PlannedLinks} (alike : p.Alike t i) (single : links.Single)
    (rejected : p.TargetIs false t) (places : s.Places p i links) : TargetReason p s t (.relabelled i (some links))

/-- **Why an incoming entity has its fate.**  The reason why it gives its data is that of the target entity, and the
reason why it is copied is that of the addition. -/
inductive IncomingReason (p : Pass) (s : Progress) (i : EntityId) : IncomingFate → Prop
  | relabels {t : EntityId} : IncomingReason p s i (.relabels t)
  | added : IncomingReason p s i .added
  | bystander {t : EntityId} (rejected : p.IncomingIs false i) : IncomingReason p s i (.kept t)
  /-- A root for which the target has an entity that is decided about. -/
  | answered {t : EntityId} (root : p.incoming.IsRoot i) (answers : p.Answers t i) : IncomingReason p s i (.kept t)
  | rejected (rejected : p.IncomingIs false i) : IncomingReason p s i .lost
  /-- A root for which the target has an entity that goes. -/
  | displaced {t : EntityId} (root : p.incoming.IsRoot i) (answers : p.Answers t i)
    (removed : s.targetFates.get? t = some .removed) : IncomingReason p s i .lost
  /-- All its parents have lost their places. -/
  | stranded (nested : ¬p.incoming.IsRoot i)
    (above : ∀ {c q}, p.incoming.HasLink i c q → s.incomingFates.get? q = some .lost) : IncomingReason p s i .lost

/-- **Why an incoming entity is copied** under some links. -/
inductive AdditionReason (p : Pass) (s : Progress) (i : EntityId) : Option PlannedLinks → Prop
  /-- A root for which the target has nothing. -/
  | root (root : p.incoming.IsRoot i) (unanswered : ∀ t, ¬p.Answers t i) : AdditionReason p s i none
  /-- Some of its parents have places. -/
  | placed {links : PlannedLinks} (single : links.Single) (some_link : links ≠ []) (places : s.Places p i links) :
    AdditionReason p s i (some links)
  /-- It goes along with a parent that is copied. -/
  | along {links : PlannedLinks} {c : Connection} {j : EntityId} (single : links.Single)
    (link : p.incoming.HasLink i c j) (added : s.incomingFates.get? j = some .added)
    (linked : (c, .added j) ∈ links) (promises : s.Promises p i links) : AdditionReason p s i (some links)

namespace Progress

/-- **Everything that is decided has a reason.** -/
structure Explained (p : Pass) (s : Progress) : Prop where
  target : ∀ {t f}, s.targetFates.get? t = some f → TargetReason p s t f
  incoming : ∀ {i f}, s.incomingFates.get? i = some f → IncomingReason p s i f
  added : ∀ {a}, a ∈ s.plan.additions → AdditionReason p s a.incoming a.links
  index : s.targetIndex.Coherent Entity.digest p.target

/-- **Planning goes on**: fates are added, and everything goes on having a reason. -/
structure Onward (p : Pass) (s s' : Progress) : Prop where
  target : Grows s.targetFates s'.targetFates
  incoming : Grows s.incomingFates s'.incomingFates
  explained : s.Explained p → s'.Explained p

variable {p : Pass} {s s' : Progress} {t i : EntityId} {links : PlannedLinks}

instance : Std.Refl (Onward p) where
  refl _ := ⟨fun h => h, fun h => h, fun h => h⟩

instance : IsTrans Progress (Onward p) where
  trans _ _ _ h h' := ⟨fun hk => h'.target (h.target hk), fun hk => h'.incoming (h.incoming hk),
    fun hs => h'.explained (h.explained hs)⟩

theorem explained_start (p : Pass) : Progress.start.Explained p where
  target h := by cases h
  incoming h := by cases h
  added h := by cases h
  index := ContentIndex.coherent_empty

/-! ## Reasons go on holding -/

theorem Promised.grow (h : s.Promised p i) (hn : Grows s.incomingFates s'.incomingFates) : s'.Promised p i := by
  induction h with
  | added added => exact .added (hn added)
  | under accepted link _ ih => exact .under accepted link ih

theorem Promises.grow (h : s.Promises p i links) (hn : Grows s.incomingFates s'.incomingFates) : s'.Promises p i links :=
  fun c x hmem => (h c x hmem).imp_right fun hx => hx.grow hn

theorem Places.grow (h : s.Places p i links) (hn : Grows s.incomingFates s'.incomingFates) : s'.Places p i links where
  decided hlink := by
    obtain ⟨f, hf⟩ := SortedMap.contains_iff.1 (h.decided hlink)
    exact SortedMap.contains_iff.2 ⟨f, hn hf⟩
  mem_iff {c x} := by
    rw [h.mem_iff]
    constructor
    · rintro ⟨q, f, hlink, hf, hx⟩
      exact ⟨q, f, hlink, hn hf, hx⟩
    · rintro ⟨q, f, hlink, hf, hx⟩
      obtain ⟨f', hf'⟩ := SortedMap.contains_iff.1 (h.decided hlink)
      obtain rfl := Option.some.inj (hf.symm.trans (hn hf'))
      exact ⟨q, f, hlink, hf', hx⟩

end Progress

section
variable {p : Pass} {s s' : Progress} {t i : EntityId} {links : Option PlannedLinks}

theorem TargetReason.grow {f : TargetFate} (h : TargetReason p s t f) (hn : Grows s.incomingFates s'.incomingFates) :
    TargetReason p s' t f := by
  cases h with
  | kept => exact .kept
  | removed => exact .removed
  | data alike => exact .data alike
  | covered alike single covered promises => exact .covered alike single covered (promises.grow hn)
  | placed alike single rejected places => exact .placed alike single rejected (places.grow hn)

theorem IncomingReason.grow {f : IncomingFate} (h : IncomingReason p s i f)
    (hm : Grows s.targetFates s'.targetFates) (hn : Grows s.incomingFates s'.incomingFates) :
    IncomingReason p s' i f := by
  cases h with
  | relabels => exact .relabels
  | added => exact .added
  | bystander rejected => exact .bystander rejected
  | answered root answers => exact .answered root answers
  | rejected rejected => exact .rejected rejected
  | displaced root answers removed => exact .displaced root answers (hm removed)
  | stranded nested above => exact .stranded nested fun hlink => hn (above hlink)

theorem AdditionReason.grow (h : AdditionReason p s i links) (hn : Grows s.incomingFates s'.incomingFates) :
    AdditionReason p s' i links := by
  cases h with
  | root root unanswered => exact .root root unanswered
  | placed single some_link places => exact .placed single some_link (places.grow hn)
  | along single link added linked promises => exact .along single link (hn added) linked (promises.grow hn)

end

/-! ## Every write keeps them -/

namespace Progress

variable {p : Pass} {s : Progress} {t i : EntityId} {links : Option PlannedLinks}

theorem Explained.grow {s' : Progress} (hs : s.Explained p) (hm : Grows s.targetFates s'.targetFates)
    (hn : Grows s.incomingFates s'.incomingFates)
    (target : ∀ {t f}, s'.targetFates.get? t = some f → s.targetFates.get? t = some f ∨ TargetReason p s' t f)
    (incoming : ∀ {i f}, s'.incomingFates.get? i = some f → s.incomingFates.get? i = some f ∨ IncomingReason p s' i f)
    (added : ∀ {a}, a ∈ s'.plan.additions → a ∈ s.plan.additions ∨ AdditionReason p s' a.incoming a.links)
    (index : s'.targetIndex = s.targetIndex) : s'.Explained p where
  target h := (target h).elim (fun h => (hs.target h).grow hn) id
  incoming h := (incoming h).elim (fun h => (hs.incoming h).grow hm hn) id
  added h := (added h).elim (fun h => (hs.added h).grow hn) id
  index := index ▸ hs.index

theorem onward_setTarget {f : TargetFate} (ht : s.targetFates.get? t = none) (reason : TargetReason p s t f) :
    Onward p s (s.setTarget t f) where
  target := grows_insert ht
  incoming h := h
  explained hs := by
    refine hs.grow (grows_insert ht) (fun h => h) (fun {u g} h => ?_) .inl .inl rfl
    rw [setTarget, SortedMap.get?_insert] at h
    split at h
    · next heq =>
      subst heq
      obtain rfl := Option.some.inj h
      exact .inr (reason.grow fun h => h)
    · exact .inl h

theorem onward_setIncoming {f : IncomingFate} (hi : s.incomingFates.get? i = none) (reason : IncomingReason p s i f) :
    Onward p s (s.setIncoming i f) where
  target h := h
  incoming := grows_insert hi
  explained hs := by
    refine hs.grow (fun h => h) (grows_insert hi) .inl (fun {j g} h => ?_) .inl rfl
    rw [setIncoming, SortedMap.get?_insert] at h
    split at h
    · next heq =>
      subst heq
      obtain rfl := Option.some.inj h
      exact .inr (reason.grow (fun h => h) (grows_insert hi))
    · exact .inl h

theorem onward_schedule (s : Progress) (t : EntityId) (o : Operation) : Onward p s (s.schedule t o) where
  target h := h
  incoming h := h
  explained hs := hs.grow (fun h => h) (fun h => h) .inl .inl .inl rfl

theorem onward_addition (reason : AdditionReason p s i links) : Onward p s (s.addition ⟨links, i⟩) where
  target h := h
  incoming h := h
  explained hs := hs.grow (fun h => h) (fun h => h) .inl .inl
    (fun {a} h => (List.mem_append.1 h).imp id fun h => by
      rw [List.mem_singleton.1 h]
      exact reason.grow fun h => h) rfl

theorem onward_targetIndex (s : Progress) (data : Entity) :
    Onward p s { s with targetIndex := (s.targetIndex.candidates Entity.digest p.target data).2 } where
  target h := h
  incoming h := h
  explained hs := {
    target := fun h => (hs.target h).grow fun h => h
    incoming := fun h => (hs.incoming h).grow (fun h => h) fun h => h
    added := fun h => (hs.added h).grow fun h => h
    index := hs.index.after_candidates data }

theorem onward_incomingIndex (s : Progress) (index : ContentIndex) : Onward p s { s with incomingIndex := index } where
  target h := h
  incoming h := h
  explained hs := hs.grow (fun h => h) (fun h => h) .inl .inl .inl rfl

end Progress
end Reconciliation
