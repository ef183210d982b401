import Reconciliation.Proofs.Bindings
import Reconciliation.Store.KeyTable
/-!
# What the key table answers

Each change of the key table changes one answer: `claim` and `release` change who owns one key, `addReferrer` and
`dropReferrer` whether one entity refers to one key.  The owners and the referrers know nothing of each other.
-/
namespace Reconciliation
namespace KeyTable

variable {t : KeyTable} {key k : NaturalKey} {keys : List NaturalKey} {id x : EntityId}

theorem mem_referrers_iff : x ∈ t.referrers k ↔ ∃ ids, t.referring.get? k = some ids ∧ ids.contains x = true := by
  rw [referrers]
  cases t.referring.get? k <;> simp [SortedMap.mem_keys_iff]

/-! ## Owners -/

theorem owner?_claim : (t.claim key id).owner? k = if k = key then some id else t.owner? k := SortedMap.get?_insert _ _ _ _

theorem owner?_release :
    (t.release key id).owner? k = if k = key ∧ t.owner? key = some id then none else t.owner? k := by
  rw [release]
  by_cases h : t.owner? key = some id
  · simp only [h, and_true, if_true]
    exact SortedMap.get?_erase _ _ _
  · rw [if_neg h, if_neg fun hand => h hand.2]

theorem owner?_dropReferrer : (t.dropReferrer key id).owner? k = t.owner? k := by
  rw [dropReferrer]
  split <;> rfl

theorem owner?_addReferences : ∀ (keys : List NaturalKey) (t : KeyTable),
    (t.addReferences keys id).owner? k = t.owner? k
  | [], _ => rfl
  | key :: keys, t => owner?_addReferences keys (t.addReferrer key id)

theorem owner?_dropReferences : ∀ (keys : List NaturalKey) (t : KeyTable),
    (t.dropReferences keys id).owner? k = t.owner? k
  | [], _ => rfl
  | key :: keys, t => (owner?_dropReferences keys (t.dropReferrer key id)).trans owner?_dropReferrer

/-! ## Referrers -/

theorem referrers_release : (t.release key id).referrers k = t.referrers k := by
  rw [release]
  split <;> rfl

theorem mem_referrers_addReferrer :
    x ∈ (t.addReferrer key id).referrers k ↔ x ∈ t.referrers k ∨ k = key ∧ x = id := by
  rw [mem_referrers_iff, mem_referrers_iff, addReferrer]
  simp only [SortedMap.get?_insert]
  by_cases hk : k = key
  · subst hk
    simp only [if_true, Option.some.injEq, exists_eq_left', true_and, SortedMap.contains_iff, SortedMap.get?_insert]
    by_cases hx : x = id
    · simp [hx]
    · cases t.referring.get? k <;> simp [hx]
  · simp [hk]

theorem mem_referrers_dropReferrer :
    x ∈ (t.dropReferrer key id).referrers k ↔ x ∈ t.referrers k ∧ ¬(k = key ∧ x = id) := by
  rw [dropReferrer]
  cases hids : t.referring.get? key with
  | none =>
    rw [mem_referrers_iff]
    refine ⟨fun h => ⟨h, ?_⟩, fun h => h.1⟩
    rintro ⟨rfl, -⟩
    obtain ⟨ids, hsome, -⟩ := h
    rw [hids] at hsome
    cases hsome
  | some ids =>
    have hleft : (ids.erase id).contains x = true ↔ ids.contains x = true ∧ x ≠ id := by
      simp only [SortedMap.contains_iff, SortedMap.get?_erase]
      by_cases hx : x = id <;> simp [hx]
    simp only [mem_referrers_iff]
    by_cases hk : k = key
    · subst hk
      simp only [hids, Option.some.injEq, exists_eq_left', true_and]
      rw [← hleft]
      split
      · next hempty =>
        have hnone : (ids.erase id).contains x = false := by
          rw [SortedMap.contains, SortedMap.get?, List.isEmpty_iff.1 hempty]
          rfl
        simp [hnone]
      · simp
    · split
      · simp [SortedMap.get?_erase, hk]
      · simp [SortedMap.get?_insert, hk]

theorem mem_referrers_addReferences : ∀ {keys : List NaturalKey} {t : KeyTable},
    x ∈ (t.addReferences keys id).referrers k ↔ x ∈ t.referrers k ∨ k ∈ keys ∧ x = id
  | [], t => by simp [addReferences]
  | key :: keys, t => by
    have ih : x ∈ ((t.addReferrer key id).addReferences keys id).referrers k ↔ _ := mem_referrers_addReferences
    rw [mem_referrers_addReferrer] at ih
    rw [show t.addReferences (key :: keys) id = (t.addReferrer key id).addReferences keys id from rfl, ih, List.mem_cons,
      or_assoc, or_and_right]

theorem mem_referrers_dropReferences : ∀ {keys : List NaturalKey} {t : KeyTable},
    x ∈ (t.dropReferences keys id).referrers k ↔ x ∈ t.referrers k ∧ ¬(k ∈ keys ∧ x = id)
  | [], t => by simp [dropReferences]
  | key :: keys, t => by
    have ih : x ∈ ((t.dropReferrer key id).dropReferences keys id).referrers k ↔ _ := mem_referrers_dropReferences
    rw [mem_referrers_dropReferrer] at ih
    rw [show t.dropReferences (key :: keys) id = (t.dropReferrer key id).dropReferences keys id from rfl, ih,
      List.mem_cons, or_and_right, not_or, and_assoc]

end KeyTable
end Reconciliation
