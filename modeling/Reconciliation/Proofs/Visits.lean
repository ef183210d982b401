import Reconciliation.Proofs.Steps
import Reconciliation.Plan.Planner
/-!
# The order of visits

A pass visits exactly the accepted entities of both graphs (`visitOrder_orders`), whatever its options.  Results about a
pass ask for no more of the two orders than that.
-/
namespace Reconciliation

/-- **Two lists of the entities to visit**: exactly those whose source is accepted, in any order. -/
structure Pass.Orders (p : Pass) (targetOrder incomingOrder : List EntityId) : Prop where
  target : ∀ id, id ∈ targetOrder ↔ p.TargetIs true id
  incoming : ∀ id, id ∈ incomingOrder ↔ p.IncomingIs true id

/-! ## Shuffling -/

section
variable {α : Type}

theorem swapIfInBounds_perm (a : Array α) (i j : Nat) : (a.swapIfInBounds i j).Perm a := by
  rw [Array.swapIfInBounds_def]
  split
  · split
    · exact Array.swap_perm _ _
    · exact .refl _
  · exact .refl _

theorem swaps_perm : ∀ (i : Nat) (a : Array α) (s : Shuffle.Stream), (Shuffle.swaps i a s).Perm a
  | 0, a, s => .refl a
  | i + 1, a, s => by
    rw [Shuffle.swaps]
    split
    · exact .refl a
    · exact (swaps_perm i _ _).trans (swapIfInBounds_perm a _ _)

theorem shuffle_perm (seed : UInt64) (l : List α) : (shuffle seed l).Perm l := by
  rw [shuffle]
  exact (swaps_perm _ l.toArray _).toList

end

/-! ## Listing by kind and source -/

/-- An entity stands in one of the groups. -/
def Grouped (groups : SortedMap Kind (SortedMap Source (List EntityId))) (id : EntityId) : Prop :=
  ∃ kind ofKind source ids, groups.get? kind = some ofKind ∧ ofKind.get? source = some ids ∧ id ∈ ids

theorem grouped_iff {groups : SortedMap Kind (SortedMap Source (List EntityId))} {id : EntityId} :
    Grouped groups id ↔ id ∈ groups.values.flatMap fun ofKind => ofKind.values.flatten := by
  simp only [List.mem_flatMap, List.mem_flatten, SortedMap.values, List.mem_map, Prod.exists, exists_eq_right]
  constructor
  · rintro ⟨kind, ofKind, source, ids, hkind, hsource, hid⟩
    exact ⟨ofKind, ⟨kind, SortedMap.get?_eq_some_iff.1 hkind⟩, ids, ⟨source, SortedMap.get?_eq_some_iff.1 hsource⟩, hid⟩
  · rintro ⟨ofKind, ⟨kind, hkind⟩, ids, ⟨source, hsource⟩, hid⟩
    exact ⟨kind, ofKind, source, ids, SortedMap.get?_eq_some_iff.2 hkind, SortedMap.get?_eq_some_iff.2 hsource, hid⟩

theorem grouped_insert {groups : SortedMap Kind (SortedMap Source (List EntityId))} {kind : Kind} {source : Source}
    {new id : EntityId} :
    Grouped (groups.insert kind (((groups.get? kind).getD .empty).insert source
      (((((groups.get? kind).getD .empty).get? source).getD []) ++ [new]))) id ↔ Grouped groups id ∨ id = new := by
  constructor
  · rintro ⟨kind', ofKind, source', ids, hkind, hsource, hid⟩
    rw [SortedMap.get?_insert] at hkind
    by_cases hk : kind' = kind
    · rw [if_pos hk] at hkind
      obtain rfl := Option.some.inj hkind
      rw [SortedMap.get?_insert] at hsource
      by_cases hs : source' = source
      · rw [if_pos hs] at hsource
        obtain rfl := Option.some.inj hsource
        rcases List.mem_append.1 hid with hid | hid
        · left
          cases hg : groups.get? kind with
          | none => simp [hg] at hid
          | some ofKind =>
            rw [hg] at hid
            cases hi : ofKind.get? source with
            | none => simp [hi] at hid
            | some ids => exact ⟨kind, ofKind, source, ids, hg, hi, by simpa [hi] using hid⟩
        · exact .inr (List.mem_singleton.1 hid)
      · rw [if_neg hs] at hsource
        cases hg : groups.get? kind with
        | none => simp [hg] at hsource
        | some ofKind => exact .inl ⟨kind, ofKind, source', ids, hg, by simpa [hg] using hsource, hid⟩
    · rw [if_neg hk] at hkind
      exact .inl ⟨kind', ofKind, source', ids, hkind, hsource, hid⟩
  · rintro (⟨kind', ofKind, source', ids, hkind, hsource, hid⟩ | rfl)
    · by_cases hk : kind' = kind
      · subst hk
        by_cases hs : source' = source
        · subst hs
          refine ⟨kind', _, source', _, SortedMap.get?_insert_self _ _ _, SortedMap.get?_insert_self _ _ _, ?_⟩
          simp only [hkind, hsource, Option.getD_some]
          exact List.mem_append_left _ hid
        · refine ⟨kind', _, source', ids, SortedMap.get?_insert_self _ _ _, ?_, hid⟩
          rw [SortedMap.get?_insert_of_ne _ _ hs, hkind]
          exact hsource
      · exact ⟨kind', ofKind, source', ids, by rw [SortedMap.get?_insert_of_ne _ _ hk, hkind], hsource, hid⟩
    · exact ⟨kind, _, source, _, SortedMap.get?_insert_self _ _ _, SortedMap.get?_insert_self _ _ _,
        List.mem_append_right _ List.mem_cons_self⟩

theorem Graph.mem_acceptedIds_iff {g : Graph} {accepts : Source → Bool} {id : EntityId} :
    id ∈ g.acceptedIds accepts ↔ ∃ e, g.entity id = .ok e ∧ accepts e.source = true := by
  have hfold : ∀ (l : List (EntityId × Entity)) (groups : SortedMap Kind (SortedMap Source (List EntityId))),
      Grouped (l.foldl (fun groups e =>
        if accepts e.2.source then
          let ofKind := (groups.get? e.1.kind).getD .empty
          groups.insert e.1.kind (ofKind.insert e.2.source ((ofKind.get? e.2.source).getD [] ++ [e.1]))
        else groups) groups) id ↔ Grouped groups id ∨ ∃ e, (id, e) ∈ l ∧ accepts e.source = true := by
    intro l
    induction l with
    | nil => simp
    | cons e l ih =>
      intro groups
      obtain ⟨i, e⟩ := e
      rw [List.foldl_cons, ih]
      by_cases hacc : accepts e.source = true
      · simp only [hacc, if_true, grouped_insert, List.mem_cons, Prod.mk.injEq]
        constructor
        · rintro ((hg | rfl) | ⟨e', hmem, he'⟩)
          · exact .inl hg
          · exact .inr ⟨e, .inl ⟨rfl, rfl⟩, hacc⟩
          · exact .inr ⟨e', .inr hmem, he'⟩
        · rintro (hg | ⟨e', ⟨rfl, -⟩ | hmem, he'⟩)
          · exact .inl (.inl hg)
          · exact .inl (.inr rfl)
          · exact .inr ⟨e', hmem, he'⟩
      · simp only [hacc, if_false, List.mem_cons, Prod.mk.injEq, Bool.false_eq_true]
        refine or_congr_right ⟨?_, ?_⟩
        · rintro ⟨e', hmem, he'⟩
          exact ⟨e', .inr hmem, he'⟩
        · rintro ⟨e', ⟨-, rfl⟩ | hmem, he'⟩
          · exact absurd he' hacc
          · exact ⟨e', hmem, he'⟩
  rw [acceptedIds, ← grouped_iff, bySource, hfold]
  simp only [mem_entities_iff]
  refine or_iff_right ?_
  rintro ⟨kind, ofKind, source, ids, hkind, -, -⟩
  rw [SortedMap.get?_empty] at hkind
  cases hkind

/-- **A pass visits exactly the accepted entities**, in the listed order or shuffled. -/
theorem visitOrder_orders (p : Pass) (options : Options) :
    p.Orders (p.target.visitOrder p.accepts options) (p.incoming.visitOrder p.accepts options) := by
  have hmem : ∀ (g : Graph) (id : EntityId), id ∈ g.visitOrder p.accepts options ↔ id ∈ g.acceptedIds p.accepts := by
    intro g id
    rw [Graph.visitOrder]
    cases options.shuffleSeed with
    | none => exact Iff.rfl
    | some seed => exact (shuffle_perm seed _).mem_iff
  exact ⟨fun id => (hmem _ id).trans Graph.mem_acceptedIds_iff, fun id => (hmem _ id).trans Graph.mem_acceptedIds_iff⟩

end Reconciliation
