/-!
# Finite maps in key order

A map is the list of its bindings in strictly ascending key order.  The order is part of the type, so every listing of
a map (attributes of an entity, entities of a graph, operations of a plan) comes out in the one order the answers
show, and two maps with the same bindings are the same map (`SortedMap.ext`).

Each operation has one lemma about what it does to lookups: `get?_insert_self`, `get?_insert_of_ne`,
`get?_erase_self`, `get?_erase_of_ne`, `get?_map`.  `get?_eq_some_iff` joins lookups with the listing.
-/
namespace Reconciliation

/-- **A finite map**, listed in strictly ascending key order. -/
structure SortedMap (κ : Type) (ν : Type) [Ord κ] where
  toList : List (κ × ν)
  ascending : toList.Pairwise fun a b => compare a.1 b.1 = .lt

namespace SortedMap

variable {κ ν μ : Type} [Ord κ]

/-! ## The bindings as a list -/

def lookup (k : κ) : List (κ × ν) → Option ν
  | [] => none
  | (k', v) :: rest => if compare k k' = .eq then some v else lookup k rest

/-- Binds a key at its place in an ascending list; a binding of the same key gives way. -/
def place (k : κ) (v : ν) : List (κ × ν) → List (κ × ν)
  | [] => [(k, v)]
  | (k', v') :: rest =>
    match compare k k' with
    | .lt => (k, v) :: (k', v') :: rest
    | .eq => (k, v) :: rest
    | .gt => (k', v') :: place k v rest

def without (k : κ) (l : List (κ × ν)) : List (κ × ν) := l.filter fun b => compare k b.1 != .eq

theorem mem_place {k : κ} {v : ν} {b : κ × ν} : ∀ {l : List (κ × ν)}, b ∈ place k v l → b = (k, v) ∨ b ∈ l
  | [], h => by simpa [place] using h
  | (k', v') :: rest, h => by
    unfold place at h
    split at h
    · simpa using h
    · rcases List.mem_cons.1 h with h | h
      · exact .inl h
      · exact .inr (List.mem_cons_of_mem _ h)
    · rcases List.mem_cons.1 h with h | h
      · exact .inr (h ▸ List.mem_cons_self)
      · exact (mem_place h).imp id (List.mem_cons_of_mem _)

theorem place_ascending [Std.TransOrd κ] (k : κ) (v : ν) : ∀ {l : List (κ × ν)},
    l.Pairwise (fun a b => compare a.1 b.1 = .lt) → (place k v l).Pairwise (fun a b => compare a.1 b.1 = .lt)
  | [], _ => by simp [place]
  | (k', v') :: rest, h => by
    have hd : ∀ b ∈ rest, compare k' b.1 = .lt := fun _ hb => List.rel_of_pairwise_cons h hb
    unfold place
    split
    · next hlt =>
      refine List.pairwise_cons.2 ⟨fun b hb => ?_, h⟩
      rcases List.mem_cons.1 hb with rfl | hb
      · exact hlt
      · exact Std.TransCmp.lt_trans hlt (hd b hb)
    · next heq =>
      exact List.pairwise_cons.2 ⟨fun b hb => Std.TransCmp.lt_of_eq_of_lt heq (hd b hb), h.of_cons⟩
    · next hgt =>
      refine List.pairwise_cons.2 ⟨fun b hb => ?_, place_ascending k v h.of_cons⟩
      rcases mem_place hb with rfl | hb
      · exact Std.OrientedCmp.gt_iff_lt.1 hgt
      · exact hd b hb

section Lookup
variable [Std.LawfulEqOrd κ]

theorem lookup_place_self (k : κ) (v : ν) : ∀ l : List (κ × ν), lookup k (place k v l) = some v
  | [] => by simp [place, lookup]
  | (k', v') :: rest => by
    unfold place
    split
    · simp [lookup]
    · simp [lookup]
    · next h => simp [lookup, h, lookup_place_self k v rest]

theorem lookup_place_of_ne {k a : κ} (v : ν) (hne : a ≠ k) : ∀ l : List (κ × ν), lookup a (place k v l) = lookup a l
  | [] => by simp [place, lookup, hne]
  | (k', v') :: rest => by
    unfold place
    split
    · simp [lookup, hne]
    · next h =>
      have : k = k' := Std.LawfulEqCmp.compare_eq_iff_eq.1 h
      subst this
      simp [lookup, hne]
    · simp [lookup, lookup_place_of_ne v hne rest]

theorem lookup_without_self (k : κ) : ∀ l : List (κ × ν), lookup k (without k l) = none
  | [] => rfl
  | (k', v') :: rest => by
    have ih := lookup_without_self k rest
    unfold without at ih ⊢
    by_cases h : k = k'
    · simp [h]
      exact h ▸ ih
    · simp [lookup, h, ih]

theorem lookup_without_of_ne {k a : κ} (hne : a ≠ k) : ∀ l : List (κ × ν), lookup a (without k l) = lookup a l
  | [] => rfl
  | (k', v') :: rest => by
    have ih := lookup_without_of_ne hne rest
    unfold without at ih ⊢
    by_cases h : k = k'
    · subst h; simp [lookup, hne, ih]
    · simp [lookup, h, ih]

theorem lookup_eq_some_iff {k : κ} {v : ν} : ∀ {l : List (κ × ν)},
    l.Pairwise (fun a b => compare a.1 b.1 = .lt) → (lookup k l = some v ↔ (k, v) ∈ l)
  | [], _ => by simp [lookup]
  | (k', v') :: rest, h => by
    have ih := lookup_eq_some_iff (k := k) (v := v) h.of_cons
    have hd : ∀ b ∈ rest, compare k' b.1 = .lt := fun _ hb => List.rel_of_pairwise_cons h hb
    by_cases hk : k = k'
    · subst hk
      simp only [lookup, Std.LawfulEqCmp.compare_eq_iff_eq, if_true, List.mem_cons, Prod.mk.injEq, true_and]
      refine ⟨fun hv => .inl (Option.some.inj hv).symm, fun hv => ?_⟩
      rcases hv with rfl | hv
      · rfl
      · exact absurd (hd _ hv) (by simp)
    · simp [lookup, hk, ih]

end Lookup

/-! ## Operations -/

def empty : SortedMap κ ν := ⟨[], .nil⟩

instance : EmptyCollection (SortedMap κ ν) := ⟨empty⟩
instance : Inhabited (SortedMap κ ν) := ⟨empty⟩

def get? (m : SortedMap κ ν) (k : κ) : Option ν := lookup k m.toList

def contains (m : SortedMap κ ν) (k : κ) : Bool := (m.get? k).isSome

/-- Binds a key, in place of what it was bound to. -/
def insert [Std.TransOrd κ] (m : SortedMap κ ν) (k : κ) (v : ν) : SortedMap κ ν :=
  ⟨place k v m.toList, place_ascending k v m.ascending⟩

def erase (m : SortedMap κ ν) (k : κ) : SortedMap κ ν := ⟨without k m.toList, m.ascending.filter _⟩

def map (m : SortedMap κ ν) (f : κ → ν → μ) : SortedMap κ μ :=
  ⟨m.toList.map fun b => (b.1, f b.1 b.2), m.ascending.map _ fun _ _ h => h⟩

/-- Replaces the value of one key; nothing happens to an unbound key. -/
def modify [Std.TransOrd κ] (m : SortedMap κ ν) (k : κ) (f : ν → ν) : SortedMap κ ν :=
  match m.get? k with
  | none => m
  | some v => m.insert k (f v)

def filter (m : SortedMap κ ν) (keep : κ → ν → Bool) : SortedMap κ ν :=
  ⟨m.toList.filter fun b => keep b.1 b.2, m.ascending.filter _⟩

def keys (m : SortedMap κ ν) : List κ := m.toList.map (·.1)

def values (m : SortedMap κ ν) : List ν := m.toList.map (·.2)

def size (m : SortedMap κ ν) : Nat := m.toList.length

def isEmpty (m : SortedMap κ ν) : Bool := m.toList.isEmpty

/-- The map of a list of bindings; of two for one key the later counts. -/
def ofList [Std.TransOrd κ] (l : List (κ × ν)) : SortedMap κ ν := l.foldl (fun m b => m.insert b.1 b.2) empty

def all (m : SortedMap κ ν) (p : κ → ν → Bool) : Bool := m.toList.all fun b => p b.1 b.2

/-! ## Lookups -/

@[simp] theorem get?_empty (k : κ) : (empty : SortedMap κ ν).get? k = none := rfl

section Lemmas
variable [Std.LawfulEqOrd κ]

@[simp] theorem get?_insert_self [Std.TransOrd κ] (m : SortedMap κ ν) (k : κ) (v : ν) :
    (m.insert k v).get? k = some v :=
  lookup_place_self k v m.toList

theorem get?_insert_of_ne [Std.TransOrd κ] (m : SortedMap κ ν) {k a : κ} (v : ν) (h : a ≠ k) :
    (m.insert k v).get? a = m.get? a :=
  lookup_place_of_ne v h m.toList

@[simp] theorem get?_erase_self (m : SortedMap κ ν) (k : κ) : (m.erase k).get? k = none :=
  lookup_without_self k m.toList

theorem get?_erase_of_ne (m : SortedMap κ ν) {k a : κ} (h : a ≠ k) : (m.erase k).get? a = m.get? a :=
  lookup_without_of_ne h m.toList

theorem get?_map (m : SortedMap κ ν) (f : κ → ν → μ) (k : κ) : (m.map f).get? k = (m.get? k).map (f k) := by
  have : ∀ l : List (κ × ν), lookup k (l.map fun b => (b.1, f b.1 b.2)) = (lookup k l).map (f k) := fun l => by
    induction l with
    | nil => rfl
    | cons b rest ih =>
      by_cases h : k = b.1
      · subst h; simp [lookup]
      · simpa [lookup, h] using ih
  exact this m.toList

theorem get?_eq_some_iff {m : SortedMap κ ν} {k : κ} {v : ν} : m.get? k = some v ↔ (k, v) ∈ m.toList :=
  lookup_eq_some_iff m.ascending

theorem mem_keys_iff {m : SortedMap κ ν} {k : κ} : k ∈ m.keys ↔ m.contains k = true := by
  simp only [keys, contains, List.mem_map, Option.isSome_iff_exists, get?_eq_some_iff]
  exact ⟨fun ⟨b, hb, hk⟩ => ⟨b.2, hk ▸ hb⟩, fun ⟨v, hv⟩ => ⟨_, hv, rfl⟩⟩

/-- **Two maps with the same bindings are equal**: strictly ascending lists with the same members are equal. -/
theorem ext [Std.TransOrd κ] {m n : SortedMap κ ν} (h : ∀ k, m.get? k = n.get? k) : m = n := by
  have hmem : ∀ b, b ∈ m.toList ↔ b ∈ n.toList := fun b => by
    rw [← get?_eq_some_iff (k := b.1) (v := b.2), ← get?_eq_some_iff (k := b.1) (v := b.2), h]
  obtain ⟨l, hl⟩ := m
  obtain ⟨r, hr⟩ := n
  have : l = r := by
    clear h
    induction l generalizing r with
    | nil => exact (List.eq_nil_iff_forall_not_mem.2 fun b hb => by simpa using (hmem b).2 hb).symm
    | cons a l ih =>
      cases r with
      | nil => exact absurd ((hmem a).1 List.mem_cons_self) (by simp)
      | cons b r =>
        have ha : ∀ c ∈ l, compare a.1 c.1 = .lt := fun c hc => List.rel_of_pairwise_cons hl hc
        have hb : ∀ c ∈ r, compare b.1 c.1 = .lt := fun c hc => List.rel_of_pairwise_cons hr hc
        have hab : a = b := by
          rcases List.mem_cons.1 ((hmem a).1 List.mem_cons_self) with e | e
          · exact e
          rcases List.mem_cons.1 ((hmem b).2 List.mem_cons_self) with e' | e'
          · exact e'.symm
          exact absurd (Std.TransCmp.lt_trans (ha b e') (hb a e)) (by simp)
        subst hab
        congr 1
        refine ih hl.of_cons r hr.of_cons fun c => ⟨fun hc => ?_, fun hc => ?_⟩
        · rcases List.mem_cons.1 ((hmem c).1 (List.mem_cons_of_mem _ hc)) with e | e
          · exact absurd (ha c hc) (by simp [e])
          · exact e
        · rcases List.mem_cons.1 ((hmem c).2 (List.mem_cons_of_mem _ hc)) with e | e
          · exact absurd (hb c hc) (by simp [e])
          · exact e
  subst this
  rfl

end Lemmas

instance [DecidableEq κ] [DecidableEq ν] : DecidableEq (SortedMap κ ν) := fun m n =>
  decidable_of_iff (m.toList = n.toList) ⟨fun h => by cases m; cases n; cases h; rfl, fun h => h ▸ rfl⟩

end SortedMap
end Reconciliation
