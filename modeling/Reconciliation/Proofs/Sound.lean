import Mathlib.Data.List.Nodup
import Reconciliation.Proofs.Steps
/-!
# What planning keeps true

Three things hold of the state of planning from its start to its end (`Sound`).  The plan says the same as the fates.
The fates of the two sides agree: who is relabelled from whom, who is kept with whom.  And a fate fits the sources of
the entities that it joins: only accepted target entities are removed, only accepted incoming ones are copied or give
their data.  Every step keeps this, so every run does.
-/
namespace Reconciliation

/-- What a fate puts into the plan. -/
def TargetFate.operation : TargetFate → Option Operation
  | .kept _ => none
  | .relabelled counterpart links => some (.relabel counterpart links)
  | .removed => some .remove

/-- A fate fits the target entity, and the counterpart that it names has the fate that goes with it. -/
def TargetFate.Fits (p : Pass) (fates : SortedMap EntityId IncomingFate) (t : EntityId) : TargetFate → Prop
  | .kept c => p.TargetIs false t ∧ ∀ i, c = some i → p.IncomingIs false i ∧ fates.get? i = some (.kept t)
  | .relabelled i links => p.target.contains t = true ∧ fates.get? i = some (.relabels t) ∧ ThereAll p links
  | .removed => p.TargetIs true t

/-- A fate fits the incoming entity, and the target entity that it names has a fate that goes with it. -/
def IncomingFate.Fits (p : Pass) (fates : SortedMap EntityId TargetFate) (i : EntityId) : IncomingFate → Prop
  | .kept t => p.incoming.contains i = true ∧ ∃ f, fates.get? t = some f ∧ f ≠ .removed
  | .relabels t => p.IncomingIs true i ∧ ∃ links, fates.get? t = some (.relabelled i links)
  | .added => p.IncomingIs true i
  | .lost => p.incoming.contains i = true

def TargetsFit (p : Pass) (m : SortedMap EntityId TargetFate) (n : SortedMap EntityId IncomingFate) : Prop :=
  ∀ t f, m.get? t = some f → f.Fits p n t

def IncomingFits (p : Pass) (n : SortedMap EntityId IncomingFate) (m : SortedMap EntityId TargetFate) : Prop :=
  ∀ i f, n.get? i = some f → f.Fits p m i

namespace Progress

/-- **The plan, the fates and the sources agree.** -/
structure Sound (p : Pass) (s : Progress) : Prop where
  target : TargetsFit p s.targetFates s.incomingFates
  incoming : IncomingFits p s.incomingFates s.targetFates
  operation : ∀ t, s.plan.operations.get? t = (s.targetFates.get? t).bind TargetFate.operation
  addition : ∀ i, i ∈ s.plan.additions.map Addition.incoming ↔ s.incomingFates.get? i = some .added
  additions : (s.plan.additions.map Addition.incoming).Nodup
  addedLinks : ∀ a ∈ s.plan.additions, ThereAll p a.links
  targetIndex : s.targetIndex.Coherent Entity.digest p.target
  incomingIndex : s.incomingIndex.Coherent Entity.digest p.incoming
  targetKinds : ∀ k, s.targetIndex.kinds.contains k = true → k ∈ p.incoming.entities.map (·.2.kind)
  incomingKinds : ∀ k, s.incomingIndex.kinds.contains k = true → k ∈ p.target.entities.map (·.2.kind)

variable {p : Pass} {s s' : Progress}

theorem sound_start (p : Pass) : Progress.start.Sound p where
  target t f h := by cases h
  incoming i f h := by cases h
  operation _ := rfl
  addition i := ⟨fun h => (by cases h), fun h => (by cases h)⟩
  additions := .nil
  addedLinks a h := by cases h
  targetIndex := ContentIndex.coherent_empty
  incomingIndex := ContentIndex.coherent_empty
  targetKinds k h := by cases h
  incomingKinds k h := by cases h

namespace Sound

variable {t i : EntityId} {links : Option PlannedLinks} {c : Option EntityId}

theorem removed (hs : s.Sound p) (h : s.targetFates.get? t = some .removed) : p.TargetIs true t := hs.target _ _ h

theorem relabelled (hs : s.Sound p) (h : s.targetFates.get? t = some (.relabelled i links)) :
    p.target.contains t = true ∧ s.incomingFates.get? i = some (.relabels t) ∧ ThereAll p links := hs.target _ _ h

theorem kept (hs : s.Sound p) (h : s.targetFates.get? t = some (.kept c)) : p.TargetIs false t := (hs.target _ _ h).1

theorem keptPair (hs : s.Sound p) (h : s.targetFates.get? t = some (.kept (some i))) :
    p.IncomingIs false i ∧ s.incomingFates.get? i = some (.kept t) := (hs.target _ _ h).2 i rfl

theorem relabels (hs : s.Sound p) (h : s.incomingFates.get? i = some (.relabels t)) :
    p.IncomingIs true i ∧ ∃ links, s.targetFates.get? t = some (.relabelled i links) := hs.incoming _ _ h

theorem keeps (hs : s.Sound p) (h : s.incomingFates.get? i = some (.kept t)) :
    p.incoming.contains i = true ∧ ∃ f, s.targetFates.get? t = some f ∧ f ≠ .removed := hs.incoming _ _ h

theorem added (hs : s.Sound p) (h : s.incomingFates.get? i = some .added) : p.IncomingIs true i := hs.incoming _ _ h

theorem lost (hs : s.Sound p) (h : s.incomingFates.get? i = some .lost) : p.incoming.contains i = true := hs.incoming _ _ h

theorem free (hs : s.Sound p) (ht : s.targetFates.get? t = none) : s.plan.operations.get? t = none := by
  rw [hs.operation, ht]
  rfl

theorem contains_target (hs : s.Sound p) {f : TargetFate} (ht : s.targetFates.get? t = some f) :
    p.target.contains t = true := by
  cases f with
  | kept c => exact (hs.kept ht).contains
  | relabelled i links => exact (hs.relabelled ht).1
  | removed => exact (hs.removed ht).contains

theorem contains_incoming (hs : s.Sound p) {f : IncomingFate} (hi : s.incomingFates.get? i = some f) :
    p.incoming.contains i = true := by
  cases f with
  | kept t => exact (hs.keeps hi).1
  | relabels t => exact (hs.relabels hi).1.contains
  | added => exact (hs.added hi).contains
  | lost => exact hs.lost hi

theorem contains_counterpart (hs : s.Sound p) {f : TargetFate} (ht : s.targetFates.get? t = some f)
    (hi : f.counterpart = some i) : p.incoming.contains i = true := by
  cases f with
  | kept c =>
    obtain rfl : c = some i := hi
    exact (hs.keptPair ht).1.contains
  | relabelled j links =>
    obtain rfl := Option.some.inj hi
    exact (hs.relabels (hs.relabelled ht).2.1).1.contains
  | removed => cases hi

end Sound

end Progress

/-! ## Every step keeps it

Fates are only added, and what fits goes on fitting.  So after a write only the new fate has to be looked at. -/

/-- Everything that is written in one map is written in the other. -/
def Grows {ν : Type} (m m' : SortedMap EntityId ν) : Prop := ∀ {k v}, m.get? k = some v → m'.get? k = some v

theorem grows_insert {ν : Type} {m : SortedMap EntityId ν} {k : EntityId} {v : ν} (h : m.get? k = none) :
    Grows m (m.insert k v) := by
  intro k' v' h'
  have hne : k' ≠ k := by
    rintro rfl
    rw [h] at h'
    cases h'
  rw [SortedMap.get?_insert_of_ne _ _ hne, h']

theorem TargetFate.Fits.grow {p : Pass} {f : TargetFate} {t : EntityId} {m m' : SortedMap EntityId IncomingFate}
    (h : f.Fits p m t) (hm : Grows m m') : f.Fits p m' t := by
  cases f with
  | kept c => exact ⟨h.1, fun i hi => ⟨(h.2 i hi).1, hm (h.2 i hi).2⟩⟩
  | relabelled i links => exact ⟨h.1, hm h.2.1, h.2.2⟩
  | removed => exact h

theorem IncomingFate.Fits.grow {p : Pass} {f : IncomingFate} {i : EntityId} {m m' : SortedMap EntityId TargetFate}
    (h : f.Fits p m i) (hm : Grows m m') : f.Fits p m' i := by
  cases f with
  | kept t =>
    obtain ⟨hc, f, hf, hne⟩ := h
    exact ⟨hc, f, hm hf, hne⟩
  | relabels t =>
    obtain ⟨hacc, links, hf⟩ := h
    exact ⟨hacc, links, hm hf⟩
  | added | lost => exact h

section
variable {p : Pass} {m m' : SortedMap EntityId TargetFate} {n n' : SortedMap EntityId IncomingFate}

theorem TargetsFit.grow (h : TargetsFit p m n) (hn : Grows n n') : TargetsFit p m n' :=
  fun t f hf => (h t f hf).grow hn

theorem IncomingFits.grow (h : IncomingFits p n m) (hm : Grows m m') : IncomingFits p n m' :=
  fun i f hf => (h i f hf).grow hm

theorem TargetsFit.insert {t : EntityId} {f : TargetFate} (h : TargetsFit p m n) (hnew : f.Fits p n t) :
    TargetsFit p (m.insert t f) n := by
  intro u g hg
  rw [SortedMap.get?_insert] at hg
  split at hg
  · next heq =>
    obtain rfl := Option.some.inj hg
    rwa [heq]
  · exact h u g hg

theorem IncomingFits.insert {i : EntityId} {f : IncomingFate} (h : IncomingFits p n m) (hnew : f.Fits p m i) :
    IncomingFits p (n.insert i f) m := by
  intro j g hg
  rw [SortedMap.get?_insert] at hg
  split at hg
  · next heq =>
    obtain rfl := Option.some.inj hg
    rwa [heq]
  · exact h j g hg

end

namespace Progress

variable {p : Pass} {s s' : Progress}

theorem Sound.operation_insert (hs : s.Sound p) {t : EntityId} {f : TargetFate} {op : Operation}
    (hf : f.operation = some op) (u : EntityId) :
    (s.plan.operations.insert t op).get? u = ((s.targetFates.insert t f).get? u).bind TargetFate.operation := by
  rw [SortedMap.get?_insert, SortedMap.get?_insert]
  split
  · exact hf.symm
  · exact hs.operation u

theorem Sound.operation_kept (hs : s.Sound p) {t : EntityId} {c : Option EntityId} (ht : s.targetFates.get? t = none)
    (u : EntityId) :
    s.plan.operations.get? u = ((s.targetFates.insert t (.kept c)).get? u).bind TargetFate.operation := by
  rw [SortedMap.get?_insert]
  split
  · next h =>
    rw [h]
    exact hs.free ht
  · exact hs.operation u

theorem Sound.addition_insert (hs : s.Sound p) {i : EntityId} {f : IncomingFate} (hi : s.incomingFates.get? i = none)
    (hf : f ≠ .added) (j : EntityId) :
    j ∈ s.plan.additions.map Addition.incoming ↔ (s.incomingFates.insert i f).get? j = some .added := by
  rw [hs.addition, SortedMap.get?_insert]
  split
  · next h =>
    subst h
    rw [hi]
    exact ⟨fun h => (by cases h), fun h => absurd (Option.some.inj h) hf⟩
  · rfl

theorem Sound.addition_append (hs : s.Sound p) {i : EntityId} (links : Option PlannedLinks) (j : EntityId) :
    j ∈ (s.plan.additions ++ [(⟨links, i⟩ : Addition)]).map Addition.incoming ↔
      (s.incomingFates.insert i .added).get? j = some .added := by
  rw [List.map_append, List.mem_append, hs.addition, SortedMap.get?_insert]
  split
  · next h => simp [h]
  · next h => simp [h]

theorem Sound.additions_append (hs : s.Sound p) {i : EntityId} (links : Option PlannedLinks)
    (hi : s.incomingFates.get? i = none) : ((s.plan.additions ++ [(⟨links, i⟩ : Addition)]).map Addition.incoming).Nodup := by
  have hnew : i ∉ s.plan.additions.map Addition.incoming := by
    rw [hs.addition, hi]
    exact fun h => by cases h
  rw [List.map_append]
  refine List.Nodup.append hs.additions (List.nodup_cons.2 ⟨by simp, .nil⟩) ?_
  simpa using hnew

theorem mem_kinds_of_candidates {g : Graph} {index : ContentIndex} {data : Entity} {l : List Kind}
    (hi : ∀ k, index.kinds.contains k = true → k ∈ l) (hd : data.kind ∈ l) :
    ∀ k, (index.candidates Entity.digest g data).2.kinds.contains k = true → k ∈ l := by
  intro k hk
  rcases ContentIndex.candidates_index Entity.digest g index data with heq | ⟨-, heq⟩
  · exact hi k (heq ▸ hk)
  · obtain ⟨b, hb⟩ := SortedMap.contains_iff.1 hk
    rw [heq, SortedMap.get?_insert] at hb
    split at hb
    · next h => rwa [h]
    · exact hi k (SortedMap.contains_iff.2 ⟨b, hb⟩)

theorem kind_mem {g : Graph} {id : EntityId} {e : Entity} (h : g.entity id = .ok e) :
    e.kind ∈ g.entities.map (·.2.kind) :=
  List.mem_map.2 ⟨(id, e), Graph.mem_entities_iff.2 h, rfl⟩

/-- **A step keeps the state sound.**  A decision changes the look-ups at one entity of each side, and only there. -/
theorem Step.sound (h : Step p s s') (hs : s.Sound p) : s'.Sound p := by
  -- a fate is given where there was none, so what fits the other fates goes on doing so
  cases h with
  | @relabel t i links target _ incoming there accepted linked =>
    have hm : Grows s.targetFates (s.targetFates.insert t (.relabelled i links)) := grows_insert target
    have hn : Grows s.incomingFates (s.incomingFates.insert i (.relabels t)) := grows_insert incoming
    exact { hs with
      target := (hs.target.grow hn).insert ⟨there, SortedMap.get?_insert_self .., linked⟩
      incoming := (hs.incoming.grow hm).insert ⟨accepted, links, SortedMap.get?_insert_self ..⟩
      operation := hs.operation_insert rfl
      addition := hs.addition_insert incoming (by simp) }
  | @remove t target _ accepted =>
    have hm : Grows s.targetFates (s.targetFates.insert t .removed) := grows_insert target
    exact { hs with
      target := hs.target.insert accepted
      incoming := hs.incoming.grow hm
      operation := hs.operation_insert rfl }
  | @removePair t i target _ incoming accepted rejected =>
    have hm : Grows s.targetFates (s.targetFates.insert t .removed) := grows_insert target
    have hn : Grows s.incomingFates (s.incomingFates.insert i .lost) := grows_insert incoming
    exact { hs with
      target := (hs.target.grow hn).insert accepted
      incoming := (hs.incoming.grow hm).insert rejected.contains
      operation := hs.operation_insert rfl
      addition := hs.addition_insert incoming (by simp) }
  | @keep t target rejected =>
    have hm : Grows s.targetFates (s.targetFates.insert t (.kept none)) := grows_insert target
    exact { hs with
      target := hs.target.insert ⟨rejected, fun _ h => by cases h⟩
      incoming := hs.incoming.grow hm
      operation := hs.operation_kept target }
  | @keepPair t i target incoming rejected rejected' =>
    have hm : Grows s.targetFates (s.targetFates.insert t (.kept (some i))) := grows_insert target
    have hn : Grows s.incomingFates (s.incomingFates.insert i (.kept t)) := grows_insert incoming
    have hnew : (TargetFate.kept (some i)).Fits p (s.incomingFates.insert i (.kept t)) t := by
      refine ⟨rejected, fun j hj => ?_⟩
      obtain rfl := Option.some.inj hj
      exact ⟨rejected', SortedMap.get?_insert_self ..⟩
    have hnew' : (IncomingFate.kept t).Fits p (s.targetFates.insert t (.kept (some i))) i :=
      ⟨rejected'.contains, .kept (some i), SortedMap.get?_insert_self .., by simp⟩
    exact { hs with
      target := (hs.target.grow hn).insert hnew
      incoming := (hs.incoming.grow hm).insert hnew'
      operation := hs.operation_kept target
      addition := hs.addition_insert incoming (by simp) }
  | @settle t i fate target stays incoming there =>
    have hn : Grows s.incomingFates (s.incomingFates.insert i (.kept t)) := grows_insert incoming
    exact { hs with
      target := hs.target.grow hn
      incoming := hs.incoming.insert ⟨there, fate, target, stays⟩
      addition := hs.addition_insert incoming (by simp) }
  | @lose i incoming there =>
    have hn : Grows s.incomingFates (s.incomingFates.insert i .lost) := grows_insert incoming
    exact { hs with
      target := hs.target.grow hn
      incoming := hs.incoming.insert there
      addition := hs.addition_insert incoming (by simp) }
  | @add i links incoming accepted linked =>
    have hn : Grows s.incomingFates (s.incomingFates.insert i .added) := grows_insert incoming
    exact { hs with
      target := hs.target.grow hn
      incoming := hs.incoming.insert accepted
      addition := hs.addition_append links
      additions := hs.additions_append links incoming
      addedLinks := fun a ha => by
        rcases List.mem_append.1 ha with ha | ha
        · exact hs.addedLinks a ha
        · rw [List.mem_singleton.1 ha]
          exact linked }
  | lookInTarget there =>
    exact { hs with
      targetIndex := hs.targetIndex.after_candidates _
      targetKinds := mem_kinds_of_candidates hs.targetKinds (kind_mem there) }
  | lookInIncoming there =>
    exact { hs with
      incomingIndex := hs.incomingIndex.after_candidates _
      incomingKinds := mem_kinds_of_candidates hs.incomingKinds (kind_mem there) }

theorem Steps.sound (h : Steps p s s') (hs : s.Sound p) : s'.Sound p := by
  induction h with
  | refl => exact hs
  | tail _ hstep ih => exact hstep.sound ih

/-! ## How much can be written down -/

theorem Sound.incomingFates_le (hs : s.Sound p) : s.incomingFates.size ≤ p.incoming.size := by
  rw [← p.incoming.length_ids]
  refine SortedMap.size_le_of_contains fun i hi => ?_
  obtain ⟨f, hf⟩ := SortedMap.contains_iff.1 hi
  exact Graph.mem_ids_iff.2 (hs.contains_incoming hf)

/-- **The weight is bounded**: a fate for each entity, and an index entry for the kind of each. -/
theorem Sound.weight_le (hs : s.Sound p) : s.weight ≤ 2 * (p.target.size + p.incoming.size) := by
  have hfates : s.targetFates.size ≤ p.target.size := by
    rw [← p.target.length_ids]
    refine SortedMap.size_le_of_contains fun t ht => ?_
    obtain ⟨f, hf⟩ := SortedMap.contains_iff.1 ht
    exact Graph.mem_ids_iff.2 (hs.contains_target hf)
  have hfates' := hs.incomingFates_le
  have hsize : ∀ g : Graph, (g.entities.map (·.2.kind)).length = g.size := fun g => by
    rw [List.length_map, Graph.entities, List.length_map]
    rfl
  have hkinds := hsize p.incoming ▸ SortedMap.size_le_of_contains hs.targetKinds
  have hkinds' := hsize p.target ▸ SortedMap.size_le_of_contains hs.incomingKinds
  rw [weight]
  omega

end Progress

/-! ## Operations as a plan lists them -/

namespace Plan

variable {plan : Plan} {t i : EntityId} {links : Option PlannedLinks}

theorem mem_relabels_iff :
    (t, i, links) ∈ plan.relabels ↔ plan.operations.get? t = some (.relabel i links) := by
  rw [SortedMap.get?_eq_some_iff, relabels, List.mem_filterMap]
  constructor
  · rintro ⟨⟨u, o⟩, hmem, ho⟩
    cases o with
    | remove => cases ho
    | relabel j links' =>
      obtain ⟨rfl, rfl, rfl⟩ : u = t ∧ j = i ∧ links' = links := by simpa using ho
      exact hmem
  · intro hmem
    exact ⟨_, hmem, rfl⟩

theorem mem_removals_iff : t ∈ plan.removals ↔ plan.operations.get? t = some .remove := by
  rw [SortedMap.get?_eq_some_iff, removals, List.mem_filterMap]
  constructor
  · rintro ⟨⟨u, o⟩, hmem, ho⟩
    split at ho
    · next h =>
      obtain rfl := Option.some.inj ho
      rwa [← h]
    · cases ho
  · intro hmem
    exact ⟨_, hmem, if_pos rfl⟩

theorem relabels_nodup (plan : Plan) : (plan.relabels.map (·.1)).Nodup := by
  have hsub : (plan.relabels.map (·.1)).Sublist plan.operations.keys := by
    rw [relabels, SortedMap.keys]
    induction plan.operations.toList with
    | nil => exact .slnil
    | cons o l ih =>
      obtain ⟨t, o⟩ := o
      cases o with
      | remove => exact ih.cons t
      | relabel i links => exact ih.cons_cons t
  exact plan.operations.keys_nodup.sublist hsub

end Plan
end Reconciliation
