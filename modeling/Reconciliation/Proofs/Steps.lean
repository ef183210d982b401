import Mathlib.Logic.Relation
import Reconciliation.Proofs.Content
import Reconciliation.Plan.Progress
/-!
# Decisions as steps

Everything that planning does to its state is one of ten steps: eight decisions and two look-ups that extend an index
(`Step`).  Each decision is about entities that have no fate yet, and knows whose entities it is about.  A run of
planning is a sequence of steps (`Steps`), so what every step keeps holds of every run.  What is written down stays, and
a run that writes nothing down changes nothing (`Steps.weight`).
-/
namespace Reconciliation

/-- A parent in a plan is there: in the target, or among the incoming entities. -/
def PlannedParent.There (p : Pass) : PlannedParent → Prop
  | .target t => p.target.contains t = true
  | .added i => p.incoming.contains i = true

/-- All parents in the links of a plan are there. -/
def ThereAll (p : Pass) (links : Option PlannedLinks) : Prop := ∀ l ∈ links.getD [], l.2.There p

theorem thereAll_none {p : Pass} : ThereAll p none := fun _ h => by cases h

namespace Pass

/-- A target entity is there, and its source is accepted or not. -/
def TargetIs (p : Pass) (accepted : Bool) (id : EntityId) : Prop :=
  ∃ e, p.target.entity id = .ok e ∧ p.accepts e.source = accepted

/-- An incoming entity is there, and its source is accepted or not. -/
def IncomingIs (p : Pass) (accepted : Bool) (id : EntityId) : Prop :=
  ∃ e, p.incoming.entity id = .ok e ∧ p.accepts e.source = accepted

variable {p : Pass} {b : Bool} {id : EntityId}

theorem TargetIs.contains (h : p.TargetIs b id) : p.target.contains id = true :=
  let ⟨_, he, _⟩ := h
  Graph.contains_of_entity he

theorem IncomingIs.contains (h : p.IncomingIs b id) : p.incoming.contains id = true :=
  let ⟨_, he, _⟩ := h
  Graph.contains_of_entity he

theorem TargetIs.unique {b' : Bool} (h : p.TargetIs b id) (h' : p.TargetIs b' id) : b = b' := by
  obtain ⟨e, he, rfl⟩ := h
  obtain ⟨e', he', rfl⟩ := h'
  rw [he] at he'
  rw [Except.ok.inj he']

theorem IncomingIs.unique {b' : Bool} (h : p.IncomingIs b id) (h' : p.IncomingIs b' id) : b = b' := by
  obtain ⟨e, he, rfl⟩ := h
  obtain ⟨e', he', rfl⟩ := h'
  rw [he] at he'
  rw [Except.ok.inj he']

end Pass

namespace Progress

def setTarget (s : Progress) (id : EntityId) (fate : TargetFate) : Progress :=
  { s with targetFates := s.targetFates.insert id fate }

def setIncoming (s : Progress) (id : EntityId) (fate : IncomingFate) : Progress :=
  { s with incomingFates := s.incomingFates.insert id fate }

def schedule (s : Progress) (id : EntityId) (operation : Operation) : Progress :=
  { s with plan := { s.plan with operations := s.plan.operations.insert id operation } }

def addition (s : Progress) (a : Addition) : Progress :=
  { s with plan := { s.plan with additions := s.plan.additions ++ [a] } }

/-- **One step of planning.** -/
inductive Step (p : Pass) (s : Progress) : Progress → Prop
  | relabel {t i : EntityId} {links : Option PlannedLinks} (target : s.targetFates.get? t = none)
    (free : s.plan.operations.get? t = none) (incoming : s.incomingFates.get? i = none)
    (there : p.target.contains t = true) (accepted : p.IncomingIs true i) (linked : ThereAll p links) :
    Step p s (((s.schedule t (.relabel i links)).setTarget t (.relabelled i links)).setIncoming i (.relabels t))
  | remove {t : EntityId} (target : s.targetFates.get? t = none) (free : s.plan.operations.get? t = none)
    (accepted : p.TargetIs true t) : Step p s ((s.schedule t .remove).setTarget t .removed)
  | removePair {t i : EntityId} (target : s.targetFates.get? t = none) (free : s.plan.operations.get? t = none)
    (incoming : s.incomingFates.get? i = none) (accepted : p.TargetIs true t) (rejected : p.IncomingIs false i) :
    Step p s (((s.schedule t .remove).setTarget t .removed).setIncoming i .lost)
  | keep {t : EntityId} (target : s.targetFates.get? t = none) (rejected : p.TargetIs false t) :
    Step p s (s.setTarget t (.kept none))
  | keepPair {t i : EntityId} (target : s.targetFates.get? t = none) (incoming : s.incomingFates.get? i = none)
    (rejected : p.TargetIs false t) (rejected' : p.IncomingIs false i) :
    Step p s ((s.setTarget t (.kept (some i))).setIncoming i (.kept t))
  | settle {t i : EntityId} {fate : TargetFate} (target : s.targetFates.get? t = some fate) (stays : fate ≠ .removed)
    (incoming : s.incomingFates.get? i = none) (there : p.incoming.contains i = true) :
    Step p s (s.setIncoming i (.kept t))
  | lose {i : EntityId} (incoming : s.incomingFates.get? i = none) (there : p.incoming.contains i = true) :
    Step p s (s.setIncoming i .lost)
  | add {i : EntityId} {links : Option PlannedLinks} (incoming : s.incomingFates.get? i = none)
    (accepted : p.IncomingIs true i) (linked : ThereAll p links) :
    Step p s ((s.addition ⟨links, i⟩).setIncoming i .added)
  | lookInTarget {i : EntityId} {data : Entity} (there : p.incoming.entity i = .ok data) :
    Step p s { s with targetIndex := (s.targetIndex.candidates Entity.digest p.target data).2 }
  | lookInIncoming {t : EntityId} {data : Entity} (there : p.target.entity t = .ok data) :
    Step p s { s with incomingIndex := (s.incomingIndex.candidates Entity.digest p.incoming data).2 }

/-- **A run of planning.** -/
def Steps (p : Pass) : Progress → Progress → Prop := Relation.ReflTransGen (Step p)

variable {p : Pass} {s s' s₁ s₂ : Progress}

theorem Steps.refl (s : Progress) : Steps p s s := Relation.ReflTransGen.refl

theorem Steps.trans (h : Steps p s s₁) (h' : Steps p s₁ s₂) : Steps p s s₂ := Relation.ReflTransGen.trans h h'

theorem Step.steps (h : Step p s s') : Steps p s s' := Relation.ReflTransGen.single h

/-! ## What is written stays -/

theorem Step.targetFate (h : Step p s s') {t : EntityId} {f : TargetFate} (ht : s.targetFates.get? t = some f) :
    s'.targetFates.get? t = some f := by
  have hne : ∀ {u : EntityId}, s.targetFates.get? u = none → t ≠ u := fun hu heq => by rw [heq, hu] at ht; cases ht
  cases h with
  | relabel target | remove target | removePair target | keep target | keepPair target =>
    exact (SortedMap.get?_insert_of_ne _ _ (hne target)).trans ht
  | settle | lose | add | lookInTarget | lookInIncoming => exact ht

theorem Step.incomingFate (h : Step p s s') {i : EntityId} {f : IncomingFate}
    (hi : s.incomingFates.get? i = some f) : s'.incomingFates.get? i = some f := by
  have hne : ∀ {u : EntityId}, s.incomingFates.get? u = none → i ≠ u := fun hu heq => by rw [heq, hu] at hi; cases hi
  cases h with
  | relabel _ _ incoming | removePair _ _ incoming | keepPair _ incoming | settle _ _ incoming | lose incoming
  | add incoming => exact (SortedMap.get?_insert_of_ne _ _ (hne incoming)).trans hi
  | remove | keep | lookInTarget | lookInIncoming => exact hi

theorem Steps.targetFate (h : Steps p s s') {t : EntityId} {f : TargetFate} (ht : s.targetFates.get? t = some f) :
    s'.targetFates.get? t = some f := by
  induction h with
  | refl => exact ht
  | tail _ hs ih => exact hs.targetFate ih

theorem Steps.incomingFate (h : Steps p s s') {i : EntityId} {f : IncomingFate}
    (hi : s.incomingFates.get? i = some f) : s'.incomingFates.get? i = some f := by
  induction h with
  | refl => exact hi
  | tail _ hs ih => exact hs.incomingFate ih

theorem Step.addition_mem (h : Step p s s') {a : Addition} (ha : a ∈ s.plan.additions) : a ∈ s'.plan.additions := by
  cases h with
  | add => exact List.mem_append_left _ ha
  | relabel | remove | removePair | keep | keepPair | settle | lose | lookInTarget | lookInIncoming => exact ha

theorem Steps.addition_mem (h : Steps p s s') {a : Addition} (ha : a ∈ s.plan.additions) : a ∈ s'.plan.additions := by
  induction h with
  | refl => exact ha
  | tail _ hs ih => exact hs.addition_mem ih

theorem Steps.incomingClassified (h : Steps p s s') {i : EntityId} (hi : s.incomingFates.contains i = true) :
    s'.incomingFates.contains i = true := by
  obtain ⟨f, hf⟩ := SortedMap.contains_iff.1 hi
  exact SortedMap.contains_iff.2 ⟨f, h.incomingFate hf⟩

theorem Steps.targetClassified (h : Steps p s s') {t : EntityId} (ht : s.targetFates.contains t = true) :
    s'.targetFates.contains t = true := by
  obtain ⟨f, hf⟩ := SortedMap.contains_iff.1 ht
  exact SortedMap.contains_iff.2 ⟨f, h.targetFate hf⟩

/-! ## Every step counts -/

/-- How much is written down: fates and index entries. -/
def weight (s : Progress) : Nat :=
  s.targetFates.size + s.incomingFates.size + s.targetIndex.kinds.size + s.incomingIndex.kinds.size

theorem Step.weight (h : Step p s s') : s' = s ∨ s.weight < s'.weight := by
  cases h with
  | relabel target _ incoming | removePair target _ incoming | keepPair target incoming =>
    have ht := fun f => SortedMap.size_insert (v := f) target
    have hi := fun f => SortedMap.size_insert (v := f) incoming
    right
    simp only [Progress.weight, setTarget, setIncoming, schedule, ht, hi]
    omega
  | remove target | keep target =>
    have ht := fun f => SortedMap.size_insert (v := f) target
    right
    simp only [Progress.weight, setTarget, schedule, ht]
    omega
  | settle _ _ incoming | lose incoming | add incoming =>
    have hi := fun f => SortedMap.size_insert (v := f) incoming
    right
    simp only [Progress.weight, setIncoming, addition, hi]
    omega
  | lookInTarget _ =>
    rename_i data _
    rcases ContentIndex.candidates_index Entity.digest p.target s.targetIndex data with heq | ⟨hnone, heq⟩
    · left
      rw [heq]
    · right
      have hk := SortedMap.size_insert (v := ContentIndex.bucketsOf Entity.digest p.target data.kind) hnone
      simp only [Progress.weight, heq, hk]
      omega
  | lookInIncoming _ =>
    rename_i data _
    rcases ContentIndex.candidates_index Entity.digest p.incoming s.incomingIndex data with heq | ⟨hnone, heq⟩
    · left
      rw [heq]
    · right
      have hk := SortedMap.size_insert (v := ContentIndex.bucketsOf Entity.digest p.incoming data.kind) hnone
      simp only [Progress.weight, heq, hk]
      omega

/-- **A run that writes nothing down changes nothing.** -/
theorem Steps.weight (h : Steps p s s') : s' = s ∨ s.weight < s'.weight := by
  induction h with
  | refl => exact .inl rfl
  | tail _ hs ih =>
    rcases hs.weight with rfl | hlt
    · exact ih
    · rcases ih with rfl | hlt'
      · exact .inr hlt
      · exact .inr (Nat.lt_trans hlt' hlt)

theorem Steps.weight_le (h : Steps p s s') : s.weight ≤ s'.weight := by
  rcases h.weight with rfl | hlt
  · exact Nat.le_refl _
  · exact Nat.le_of_lt hlt

end Progress
end Reconciliation
