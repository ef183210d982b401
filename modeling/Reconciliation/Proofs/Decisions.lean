import Reconciliation.Proofs.Runs
import Reconciliation.Proofs.Ancestors
import Reconciliation.Proofs.Sound
/-!
# What a decision comes to

A write succeeds exactly when nothing is written there yet, and each of the five decisions exactly when everything it
writes is new (`relabel_ok_iff` and its siblings).
-/
namespace Reconciliation

open Progress

namespace Planning

variable {p : Pass} {s s' : Progress} {u : Unit} {t i : EntityId}

theorem lookup_ok_iff {α : Type} {x : Except StoreError α} {a : α} :
    lookup x s = .ok a s' ↔ x = .ok a ∧ s' = s := by
  cases x with
  | ok b =>
    simp only [lookup, pure_run, EStateM.Result.ok.injEq, Except.ok.injEq]
    exact and_congr_right fun _ => eq_comm
  | error e => simp [lookup, fail, throw_run]

theorem track_ok_iff {g : Graph} {id : EntityId} {tr : Track} :
    track g id s = .ok tr s' ↔ Track.ofGraph g id = .ok tr ∧ s' = s := by
  rw [track]
  cases Track.ofGraph g id with
  | ok b =>
    simp only [pure_run, EStateM.Result.ok.injEq, Except.ok.injEq]
    exact and_congr_right fun _ => eq_comm
  | error e => simp [fail, throw_run]

theorem setTargetFate_ok_iff {f : TargetFate} :
    setTargetFate t f s = .ok u s' ↔ s.targetFates.get? t = none ∧ s' = s.setTarget t f := by
  simp only [setTargetFate, get_bind]
  cases h : s.targetFates.get? t with
  | some g => simp [fail, throw_run]
  | none =>
    simp only [modify_run, EStateM.Result.ok.injEq, true_and]
    exact eq_comm

theorem setIncomingFate_ok_iff {f : IncomingFate} :
    setIncomingFate i f s = .ok u s' ↔ s.incomingFates.get? i = none ∧ s' = s.setIncoming i f := by
  simp only [setIncomingFate, get_bind]
  cases h : s.incomingFates.get? i with
  | some g => simp [fail, throw_run]
  | none =>
    simp only [modify_run, EStateM.Result.ok.injEq, true_and]
    exact eq_comm

theorem schedule_ok_iff {o : Operation} :
    schedule t o s = .ok u s' ↔ s.plan.operations.get? t = none ∧ s' = s.schedule t o := by
  simp only [schedule, get_bind]
  cases h : s.plan.operations.contains t with
  | true =>
    obtain ⟨o', ho⟩ := SortedMap.contains_iff.1 h
    simp [fail, throw_run, ho]
  | false =>
    simp only [SortedMap.contains_eq_false_iff.1 h, Bool.false_eq_true, if_false, modify_run,
      EStateM.Result.ok.injEq, true_and]
    exact eq_comm

theorem relabel_ok_iff {links : Option PlannedLinks} :
    relabel t i links s = .ok u s' ↔ s.plan.operations.get? t = none ∧ s.targetFates.get? t = none ∧
      s.incomingFates.get? i = none ∧
      s' = ((s.schedule t (.relabel i links)).setTarget t (.relabelled i links)).setIncoming i (.relabels t) := by
  simp only [relabel, bind_ok_iff, schedule_ok_iff, setTargetFate_ok_iff, setIncomingFate_ok_iff]
  constructor
  · rintro ⟨_, _, ⟨ho, rfl⟩, _, _, ⟨ht, rfl⟩, hi, rfl⟩
    exact ⟨ho, ht, hi, rfl⟩
  · rintro ⟨ho, ht, hi, rfl⟩
    exact ⟨(), _, ⟨ho, rfl⟩, (), _, ⟨ht, rfl⟩, hi, rfl⟩

theorem remove_none_ok_iff :
    remove t none s = .ok u s' ↔ s.plan.operations.get? t = none ∧ s.targetFates.get? t = none ∧
      s' = (s.schedule t .remove).setTarget t .removed := by
  simp only [remove, bind_ok_iff, schedule_ok_iff, setTargetFate_ok_iff, pure_run, EStateM.Result.ok.injEq]
  constructor
  · rintro ⟨_, _, ⟨ho, rfl⟩, _, _, ⟨ht, rfl⟩, -, rfl⟩
    exact ⟨ho, ht, rfl⟩
  · rintro ⟨ho, ht, rfl⟩
    exact ⟨(), _, ⟨ho, rfl⟩, (), _, ⟨ht, rfl⟩, trivial, rfl⟩

theorem remove_some_ok_iff :
    remove t (some i) s = .ok u s' ↔ s.plan.operations.get? t = none ∧ s.targetFates.get? t = none ∧
      s.incomingFates.get? i = none ∧
      s' = ((s.schedule t .remove).setTarget t .removed).setIncoming i .lost := by
  simp only [remove, bind_ok_iff, schedule_ok_iff, setTargetFate_ok_iff, setIncomingFate_ok_iff]
  constructor
  · rintro ⟨_, _, ⟨ho, rfl⟩, _, _, ⟨ht, rfl⟩, hi, rfl⟩
    exact ⟨ho, ht, hi, rfl⟩
  · rintro ⟨ho, ht, hi, rfl⟩
    exact ⟨(), _, ⟨ho, rfl⟩, (), _, ⟨ht, rfl⟩, hi, rfl⟩

theorem keep_none_ok_iff :
    keep t none s = .ok u s' ↔ s.targetFates.get? t = none ∧ s' = s.setTarget t (.kept none) := by
  simp only [keep, bind_ok_iff, setTargetFate_ok_iff, pure_run, EStateM.Result.ok.injEq]
  constructor
  · rintro ⟨_, _, ⟨ht, rfl⟩, -, rfl⟩
    exact ⟨ht, rfl⟩
  · rintro ⟨ht, rfl⟩
    exact ⟨(), _, ⟨ht, rfl⟩, trivial, rfl⟩

theorem keep_some_ok_iff :
    keep t (some i) s = .ok u s' ↔ s.targetFates.get? t = none ∧ s.incomingFates.get? i = none ∧
      s' = (s.setTarget t (.kept (some i))).setIncoming i (.kept t) := by
  simp only [keep, bind_ok_iff, setTargetFate_ok_iff, setIncomingFate_ok_iff]
  constructor
  · rintro ⟨_, _, ⟨ht, rfl⟩, hi, rfl⟩
    exact ⟨ht, hi, rfl⟩
  · rintro ⟨ht, hi, rfl⟩
    exact ⟨(), _, ⟨ht, rfl⟩, hi, rfl⟩

theorem lose_ok_iff : lose i s = .ok u s' ↔ s.incomingFates.get? i = none ∧ s' = s.setIncoming i .lost :=
  setIncomingFate_ok_iff

theorem add_ok_iff {links : Option PlannedLinks} :
    add links i s = .ok u s' ↔ s.incomingFates.get? i = none ∧
      s' = (s.addition ⟨links, i⟩).setIncoming i .added := by
  simp only [add, modify_bind]
  exact setIncomingFate_ok_iff

end Planning

namespace Pass

open Planning

variable {p : Pass} {s s' : Progress} {b : Bool} {id : EntityId}

theorem acceptsTarget_ok_iff : p.acceptsTarget id s = .ok b s' ↔ p.TargetIs b id ∧ s' = s := by
  simp only [acceptsTarget, bind_ok_iff, lookup_ok_iff, pure_run, EStateM.Result.ok.injEq]
  constructor
  · rintro ⟨e, _, ⟨he, rfl⟩, hb, rfl⟩
    exact ⟨⟨e, he, hb⟩, rfl⟩
  · rintro ⟨⟨e, he, hb⟩, rfl⟩
    exact ⟨e, _, ⟨he, rfl⟩, hb, rfl⟩

theorem acceptsIncoming_ok_iff : p.acceptsIncoming id s = .ok b s' ↔ p.IncomingIs b id ∧ s' = s := by
  simp only [acceptsIncoming, bind_ok_iff, lookup_ok_iff, pure_run, EStateM.Result.ok.injEq]
  constructor
  · rintro ⟨e, _, ⟨he, rfl⟩, hb, rfl⟩
    exact ⟨⟨e, he, hb⟩, rfl⟩
  · rintro ⟨⟨e, he, hb⟩, rfl⟩
    exact ⟨e, _, ⟨he, rfl⟩, hb, rfl⟩

theorem exists_targetIs (h : p.target.contains id = true) : ∃ b, p.TargetIs b id := by
  obtain ⟨e, he⟩ := Graph.exists_entity h
  exact ⟨p.accepts e.source, e, he, rfl⟩

theorem exists_incomingIs (h : p.incoming.contains id = true) : ∃ b, p.IncomingIs b id := by
  obtain ⟨e, he⟩ := Graph.exists_entity h
  exact ⟨p.accepts e.source, e, he, rfl⟩

theorem acceptsTarget_run (h : p.TargetIs b id) (s : Progress) : p.acceptsTarget id s = .ok b s :=
  acceptsTarget_ok_iff.2 ⟨h, rfl⟩

theorem acceptsIncoming_run (h : p.IncomingIs b id) (s : Progress) : p.acceptsIncoming id s = .ok b s :=
  acceptsIncoming_ok_iff.2 ⟨h, rfl⟩

end Pass
end Reconciliation
