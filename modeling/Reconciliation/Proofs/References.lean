import Reconciliation.Proofs.Keys
/-!
# Who refers to a key

A value holds a key when it is a soft reference at it, or a list with an item that holds it (`Value.Holds`).  The list of
references that an entity carries along (`Entity.refs`) names exactly the keys that one of its attributes holds
(`Entity.mem_refs_iff`), whatever the depth and however often.  A rename exchanges one key for the other and leaves all
others alone (`Entity.mem_refs_rename`).
-/
namespace Reconciliation

variable {key old new : NaturalKey}

namespace Value

/-- **A value holds a soft reference at a key**, at some depth. -/
inductive Holds (key : NaturalKey) : Value → Prop
  | ref : Holds key (.ref key)
  | item {v : Value} {items : List Value} (mem : v ∈ items) (holds : Holds key v) : Holds key (.list items)

theorem holds_ref_iff {k : NaturalKey} : (Value.ref k).Holds key ↔ k = key := by
  constructor
  · rintro ⟨⟩
    rfl
  · rintro rfl
    exact .ref

theorem holds_list_iff {items : List Value} : (Value.list items).Holds key ↔ ∃ v ∈ items, v.Holds key := by
  constructor
  · rintro (_ | ⟨mem, holds⟩)
    exact ⟨_, mem, holds⟩
  · rintro ⟨v, mem, holds⟩
    exact .item mem holds

mutual
theorem mem_refs_iff : ∀ {v : Value}, key ∈ v.refs ↔ v.Holds key
  | .ref k => by rw [refs, List.mem_singleton, holds_ref_iff, eq_comm]
  | .list items => by rw [refs, mem_refsAll_iff, holds_list_iff]
  | .null | .bool _ | .int _ | .text _ => ⟨fun h => absurd h List.not_mem_nil, fun h => by cases h⟩
theorem mem_refsAll_iff : ∀ {items : List Value}, key ∈ refsAll items ↔ ∃ v ∈ items, v.Holds key
  | [] => by simp [refsAll]
  | v :: vs => by
    rw [refsAll, List.mem_append, mem_refs_iff, mem_refsAll_iff]
    simp only [List.mem_cons, exists_eq_or_imp]
end

end Value

namespace Entity

variable {e : Entity}

/-- **An entity refers to a key** when one of its attributes holds it. -/
def Refers (e : Entity) (key : NaturalKey) : Prop := ∃ name v, e.get? name = some v ∧ v.Holds key

theorem mem_refs_iff_values : key ∈ e.refs ↔ ∃ name v, e.get? name = some v ∧ key ∈ v.refs := by
  simp only [refs, SortedMap.values, List.mem_flatMap, List.mem_map, get?, SortedMap.get?_eq_some_iff]
  constructor
  · rintro ⟨_, ⟨⟨name, v⟩, hmem, rfl⟩, hkey⟩
    exact ⟨name, v, hmem, hkey⟩
  · rintro ⟨name, v, hmem, hkey⟩
    exact ⟨v, ⟨(name, v), hmem, rfl⟩, hkey⟩

theorem mem_refs_iff : key ∈ e.refs ↔ e.Refers key := by
  simp only [mem_refs_iff_values, Refers, Value.mem_refs_iff]

theorem mem_refs_rename : key ∈ (e.rename old new).refs ↔ key ∈ e.refs ∧ key ≠ old ∨ key = new ∧ old ∈ e.refs := by
  have hvalue : ∀ v : Value, key ∈ (v.rename old new).refs ↔
      key ∈ v.refs ∧ key ≠ old ∨ key = new ∧ old ∈ v.refs := by
    intro v
    rw [Value.refs_rename, List.mem_map]
    constructor
    · rintro ⟨k, hk, rfl⟩
      by_cases hold : k = old
      · exact .inr ⟨if_pos hold, hold ▸ hk⟩
      · rw [if_neg hold]
        exact .inl ⟨hk, hold⟩
    · rintro (⟨hkey, hne⟩ | ⟨rfl, hold⟩)
      · exact ⟨key, hkey, if_neg hne⟩
      · exact ⟨old, hold, if_pos rfl⟩
  simp only [mem_refs_iff_values, get?_rename, Option.map_eq_some_iff]
  constructor
  · rintro ⟨name, _, ⟨v, hv, rfl⟩, hkey⟩
    exact ((hvalue v).1 hkey).imp (fun h => ⟨⟨name, v, hv, h.1⟩, h.2⟩) fun h => ⟨h.1, name, v, hv, h.2⟩
  · rintro (⟨⟨name, v, hv, hkey⟩, hne⟩ | ⟨hkey, name, v, hv, hold⟩)
    · exact ⟨name, _, ⟨v, hv, rfl⟩, (hvalue v).2 (.inl ⟨hkey, hne⟩)⟩
    · exact ⟨name, _, ⟨v, hv, rfl⟩, (hvalue v).2 (.inr ⟨hkey, hold⟩)⟩

end Entity
end Reconciliation
