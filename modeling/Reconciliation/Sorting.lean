/-!
# Sorting by insertion

`sortBy` puts a list in order by inserting its elements one after the other.  It is stable: elements that the order
does not tell apart keep their places relative to each other.  It is structural recursion twice over, so a sorted list
of concrete elements can be computed inside a proof.
-/
namespace Reconciliation

/-- Inserts an element before the first one it is not after. -/
def insertBy {α : Type} (le : α → α → Bool) (a : α) : List α → List α
  | [] => [a]
  | b :: rest => if le a b then a :: b :: rest else b :: insertBy le a rest

/-- **Stable sorting** by an order. -/
def sortBy {α : Type} (le : α → α → Bool) : List α → List α
  | [] => []
  | a :: rest => insertBy le a (sortBy le rest)

theorem mem_insertBy {α : Type} {le : α → α → Bool} {a b : α} : ∀ {l : List α}, b ∈ insertBy le a l ↔ b = a ∨ b ∈ l
  | [] => by simp [insertBy]
  | c :: rest => by
    unfold insertBy
    split
    · simp
    · simp only [List.mem_cons, mem_insertBy (l := rest)]
      exact or_left_comm

@[simp] theorem mem_sortBy {α : Type} {le : α → α → Bool} {b : α} : ∀ {l : List α}, b ∈ sortBy le l ↔ b ∈ l
  | [] => by simp [sortBy]
  | a :: rest => by simp [sortBy, mem_insertBy, mem_sortBy (l := rest)]

theorem insertBy_perm {α : Type} (le : α → α → Bool) (a : α) : ∀ l : List α, (insertBy le a l).Perm (a :: l)
  | [] => .refl _
  | b :: rest => by
    unfold insertBy
    split
    · exact .refl _
    · exact ((insertBy_perm le a rest).cons b).trans (.swap a b rest)

/-- Sorting loses and repeats nothing. -/
theorem sortBy_perm {α : Type} (le : α → α → Bool) : ∀ l : List α, (sortBy le l).Perm l
  | [] => .refl _
  | a :: rest => (insertBy_perm le a _).trans ((sortBy_perm le rest).cons a)

theorem insertBy_pairwise {α : Type} {le : α → α → Bool} (total : ∀ a b, le a b || le b a)
    (trans : ∀ a b c, le a b → le b c → le a c) (a : α) : ∀ {l : List α},
    l.Pairwise (fun x y => le x y) → (insertBy le a l).Pairwise (fun x y => le x y)
  | [], _ => by simp [insertBy]
  | b :: rest, h => by
    have hd : ∀ c ∈ rest, le b c := fun _ hc => List.rel_of_pairwise_cons h hc
    unfold insertBy
    split
    · next hab =>
      refine List.pairwise_cons.2 ⟨fun c hc => ?_, h⟩
      rcases List.mem_cons.1 hc with rfl | hc
      · exact hab
      · exact trans _ _ _ hab (hd c hc)
    · next hab =>
      refine List.pairwise_cons.2 ⟨fun c hc => ?_, insertBy_pairwise total trans a h.of_cons⟩
      rcases mem_insertBy.1 hc with rfl | hc
      · simpa [hab] using total c b
      · exact hd c hc

/-- What comes out is in order. -/
theorem sortBy_pairwise {α : Type} {le : α → α → Bool} (total : ∀ a b, le a b || le b a)
    (trans : ∀ a b c, le a b → le b c → le a c) : ∀ l : List α, (sortBy le l).Pairwise (fun x y => le x y)
  | [] => .nil
  | a :: rest => insertBy_pairwise total trans a (sortBy_pairwise total trans rest)

end Reconciliation
