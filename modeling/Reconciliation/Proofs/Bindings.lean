import Mathlib.Data.List.Perm.Subperm
import Reconciliation.SortedMap
/-!
# Keys and sizes of finite maps

What an insertion does to every lookup (`get?_insert`), how many keys it leaves (`size_insert`), and a bound for the
number of keys (`size_le_of_contains`): keys come from a list, each once.  A map is the map of its bindings
(`ofList_toList`).
-/
namespace Reconciliation
namespace SortedMap

variable {κ ν : Type} [Ord κ]

theorem contains_iff {m : SortedMap κ ν} {k : κ} : m.contains k = true ↔ ∃ v, m.get? k = some v := by
  rw [contains, Option.isSome_iff_exists]

theorem contains_eq_false_iff {m : SortedMap κ ν} {k : κ} : m.contains k = false ↔ m.get? k = none := by
  rw [contains, Option.isSome_eq_false_iff, Option.isNone_iff_eq_none]

theorem place_length {k : κ} {v : ν} : ∀ {l : List (κ × ν)}, lookup k l = none →
    (place k v l).length = l.length + 1
  | [], _ => rfl
  | (k', v') :: rest, h => by
    rw [lookup] at h
    split at h
    · cases h
    · next hk =>
      rw [place]
      split
      · rfl
      · next heq => exact absurd heq hk
      · rw [List.length_cons, place_length h, List.length_cons]

theorem size_insert [Std.TransOrd κ] {m : SortedMap κ ν} {k : κ} {v : ν} (h : m.get? k = none) :
    (m.insert k v).size = m.size + 1 :=
  place_length h

section
variable [Std.LawfulEqOrd κ]

theorem keys_nodup (m : SortedMap κ ν) : m.keys.Nodup := by
  rw [keys, List.nodup_iff_pairwise_ne, List.pairwise_map]
  exact m.ascending.imp fun {a b} hab heq => by rw [heq] at hab; simp at hab

theorem size_le_of_contains {m : SortedMap κ ν} {l : List κ} (h : ∀ k, m.contains k = true → k ∈ l) :
    m.size ≤ l.length := by
  have hsub : m.keys ⊆ l := fun k hk => h k (mem_keys_iff.1 hk)
  have hle := (m.keys_nodup.subperm hsub).length_le
  rwa [keys, List.length_map] at hle

theorem get?_insert [Std.TransOrd κ] [DecidableEq κ] (m : SortedMap κ ν) (k a : κ) (v : ν) :
    (m.insert k v).get? a = if a = k then some v else m.get? a := by
  by_cases h : a = k
  · subst h
    rw [if_pos rfl, get?_insert_self]
  · rw [if_neg h, get?_insert_of_ne m v h]

theorem contains_insert_iff [Std.TransOrd κ] [DecidableEq κ] {m : SortedMap κ ν} {k a : κ} {v : ν} :
    (m.insert k v).contains a = true ↔ a = k ∨ m.contains a = true := by
  simp only [contains_iff, get?_insert]
  split
  · next heq => exact ⟨fun _ => .inl heq, fun _ => ⟨v, rfl⟩⟩
  · next hne => exact ⟨.inr, fun h => h.resolve_left fun heq => hne heq⟩

theorem contains_insert_self [Std.TransOrd κ] {m : SortedMap κ ν} {k : κ} {v : ν} :
    (m.insert k v).contains k = true :=
  contains_iff.2 ⟨v, get?_insert_self m k v⟩

theorem get?_modify [Std.TransOrd κ] [DecidableEq κ] (m : SortedMap κ ν) (k a : κ) (f : ν → ν) :
    (m.modify k f).get? a = if a = k then (m.get? k).map f else m.get? a := by
  cases hk : m.get? k with
  | none =>
    simp only [modify, hk, Option.map_none]
    split
    · next h => rw [h, hk]
    · rfl
  | some v => simp only [modify, hk, Option.map_some, get?_insert]

theorem contains_modify [Std.TransOrd κ] [DecidableEq κ] {m : SortedMap κ ν} {k a : κ} {f : ν → ν} :
    (m.modify k f).contains a = m.contains a := by
  rw [contains, contains, get?_modify]
  split
  · next heq => rw [heq, Option.isSome_map]
  · rfl

theorem modify_insert [Std.TransOrd κ] [DecidableEq κ] (m : SortedMap κ ν) (k : κ) (v : ν) (f : ν → ν) :
    (m.insert k v).modify k f = m.insert k (f v) := by
  refine ext fun a => ?_
  simp only [get?_modify, get?_insert, if_true, Option.map_some]
  split
  · rfl
  · rfl

theorem modify_modify [Std.TransOrd κ] [DecidableEq κ] (m : SortedMap κ ν) (k : κ) (f f' : ν → ν) :
    (m.modify k f).modify k f' = m.modify k fun v => f' (f v) := by
  refine ext fun a => ?_
  simp only [get?_modify, if_true, Option.map_map]
  split
  · rfl
  · rfl

theorem get?_erase [DecidableEq κ] (m : SortedMap κ ν) (k a : κ) :
    (m.erase k).get? a = if a = k then none else m.get? a := by
  by_cases h : a = k
  · subst h
    rw [if_pos rfl, get?_erase_self]
  · rw [if_neg h, get?_erase_of_ne m h]

theorem keys_congr [Std.TransOrd κ] {μ : Type} {m : SortedMap κ ν} {n : SortedMap κ μ}
    (h : ∀ k, m.contains k = n.contains k) : m.keys = n.keys := by
  have hkeys : ∀ {τ : Type} (l : SortedMap κ τ), (l.map fun _ _ => ()).keys = l.keys := fun l => List.map_map ..
  have hmaps : (m.map fun _ _ => ()) = n.map fun _ _ => () := ext fun k => by
    have hk : (m.get? k).isSome = (n.get? k).isSome := h k
    rw [get?_map, get?_map]
    generalize m.get? k = v, n.get? k = w at hk ⊢
    cases v <;> cases w <;> first | rfl | cases hk
  rw [← hkeys m, hmaps, hkeys n]

/-! ## Maps from lists -/

theorem lookup_eq [BEq κ] [LawfulBEq κ] (k : κ) : ∀ l : List (κ × ν), l.lookup k = lookup k l
  | [] => rfl
  | (k', v) :: rest => by
    by_cases h : k = k'
    · simp [lookup, h]
    · have hne : (k == k') = false := beq_eq_false_iff_ne.2 h
      simp [List.lookup_cons, lookup, h, hne, lookup_eq k rest]

theorem lookup_toList [BEq κ] [LawfulBEq κ] (m : SortedMap κ ν) (k : κ) : m.toList.lookup k = m.get? k :=
  lookup_eq k m.toList

theorem get?_foldl_insert [Std.TransOrd κ] [DecidableEq κ] {l : List (κ × ν)} (hl : (l.map Prod.fst).Nodup) (k : κ) :
    ∀ m : SortedMap κ ν, (l.foldl (fun m b => m.insert b.1 b.2) m).get? k = (lookup k l).or (m.get? k) := by
  induction l with
  | nil => exact fun m => rfl
  | cons b rest ih =>
    obtain ⟨hnew, hrest⟩ := List.nodup_cons.1 hl
    intro m
    rw [List.foldl_cons, ih hrest, get?_insert]
    by_cases h : k = b.1
    · have hnone : lookup k rest = none := by
        rw [← lookup_eq]
        exact List.lookup_eq_none_iff.2 fun c hc => by
          simpa [h] using fun heq => hnew (List.mem_map.2 ⟨c, hc, heq.symm⟩)
      rw [if_pos h, hnone, h]
      simp [lookup]
    · rw [if_neg h]
      simp [lookup, h]

theorem ofList_toList [Std.TransOrd κ] [DecidableEq κ] (m : SortedMap κ ν) : ofList m.toList = m := ext fun k => by
  rw [ofList, get?_foldl_insert m.keys_nodup k, get?_empty, Option.or_none]
  rfl

theorem toList_ofList [Std.TransOrd κ] [DecidableEq κ] {l : List (κ × ν)}
    (h : l.Pairwise fun a b => compare a.1 b.1 = .lt) : (ofList l).toList = l :=
  congrArg toList (ofList_toList ⟨l, h⟩)

end
end SortedMap
end Reconciliation
