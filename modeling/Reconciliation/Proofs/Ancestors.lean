import Reconciliation.Proofs.Consistent
/-!
# Tracks in a graph

A track unfolds the links that it is grown from: the parents in the tree are those that were asked for, in their order
(`Track.Unfolds`, and `Track.Of` for the links of a graph).  So the entity has no way up that comes back to where it was
(`Unfolds.acyclic`).  Where no way up comes back, it is no longer than there are entities, and there is a track
(`grow_total`).  In a consistent graph every entity has one (`ofGraph_total`).
-/
namespace Reconciliation

section
variable {ε α β : Type}

theorem exists_of_isOk {x : Except ε α} (h : x.isOk = true) : ∃ a, x = .ok a := by
  cases x with
  | ok a => exact ⟨a, rfl⟩
  | error e => cases h

theorem exists_of_any {x : Except ε α} {test : α → Bool} (h : x.toOption.any test = true) :
    ∃ a, x = .ok a ∧ test a = true := by
  cases x with
  | ok a => exact ⟨a, rfl, h⟩
  | error e => cases h

theorem mapM_ok_iff {f : α → Except ε β} : ∀ {l : List α} {r : List β},
    l.mapM f = .ok r ↔ List.Forall₂ (fun a b => f a = .ok b) l r
  | [], r => by
    rw [List.mapM_nil]
    show Except.ok [] = Except.ok r ↔ _
    rw [Except.ok.injEq, List.forall₂_nil_left_iff, eq_comm]
  | a :: l, r => by
    rw [List.mapM_cons, List.forall₂_cons_left_iff]
    cases ha : f a with
    | error e => simp [bind, Except.bind]
    | ok b =>
      cases hl : l.mapM f with
      | error e =>
        have hno : ∀ u, ¬ List.Forall₂ (fun a b => f a = .ok b) l u := fun u hu => by
          rw [← mapM_ok_iff, hl] at hu
          cases hu
        simp [bind, Except.bind, hno]
      | ok bs =>
        have hbs := mapM_ok_iff.1 hl
        constructor
        · intro h
          exact ⟨b, bs, rfl, hbs, (Except.ok.inj h).symm⟩
        · rintro ⟨b', bs', hb, hu, rfl⟩
          obtain rfl := Except.ok.inj hb
          have := mapM_ok_iff.2 hu
          rw [hl] at this
          obtain rfl := Except.ok.inj this
          rfl

theorem mapM_total {f : α → Except ε β} : ∀ {l : List α}, (∀ a ∈ l, ∃ b, f a = .ok b) → ∃ r, l.mapM f = .ok r
  | [], _ => ⟨[], rfl⟩
  | a :: l, h => by
    obtain ⟨b, hb⟩ := h a List.mem_cons_self
    obtain ⟨r, hr⟩ := mapM_total fun x hx => h x (List.mem_cons_of_mem _ hx)
    exact ⟨b :: r, mapM_ok_iff.2 (.cons hb (mapM_ok_iff.1 hr))⟩

end

namespace Track

open Relation

/-! ## Wherever the parents come from -/

variable {parentsOf : EntityId → Except StoreError (List Link)}

/-- **A track unfolds links.** -/
inductive Unfolds (parentsOf : EntityId → Except StoreError (List Link)) : Track → Prop
  | node {id : EntityId} {parents : List (Connection × Track)}
    (links : parentsOf id = .ok (parents.map fun l => (l.1, l.2.entity)))
    (above : ∀ l ∈ parents, Unfolds parentsOf l.2) : Unfolds parentsOf (.node id parents)

/-- One entity is a parent of another one. -/
def Above (parentsOf : EntityId → Except StoreError (List Link)) (parent child : EntityId) : Prop :=
  ∃ links c, parentsOf child = .ok links ∧ (c, parent) ∈ links

theorem climb_ok {start : EntityId} {path : List EntityId} {up : List EntityId → EntityId → Except ReconcileError Track}
    {l : Link} {r : Connection × Track} (h : climb start path up l = .ok r) :
    up (l.2 :: path) l.2 = .ok r.2 ∧ l.1 = r.1 := by
  rw [climb] at h
  split at h
  · cases h
  · cases hup : up (l.2 :: path) l.2 with
    | error e => rw [hup] at h; cases h
    | ok parent =>
      rw [hup] at h
      obtain rfl := Except.ok.inj h
      exact ⟨rfl, rfl⟩

/-- **What is grown unfolds the links.** -/
theorem grow_unfolds {start : EntityId} : ∀ {room : Nat} {path : List EntityId} {id : EntityId} {t : Track},
    grow parentsOf start room path id = .ok t → t.Unfolds parentsOf ∧ t.entity = id
  | 0, path, id, t, h => by cases h
  | room + 1, path, id, t, h => by
    rw [grow] at h
    cases hl : parentsOf id with
    | error e => rw [hl] at h; cases h
    | ok links =>
      rw [hl] at h
      simp only [Except.mapError, bind, Except.bind] at h
      split at h
      · cases h
      · next parents hp =>
        obtain rfl := Except.ok.inj h
        have hall : List.Forall₂ (fun l r => l = (r.1, r.2.entity) ∧ r.2.Unfolds parentsOf) links parents :=
          (mapM_ok_iff.1 hp).imp fun l r hlr => by
            obtain ⟨hup, hconn⟩ := climb_ok hlr
            obtain ⟨hof, hent⟩ := grow_unfolds hup
            exact ⟨by rw [hent, ← hconn], hof⟩
        refine ⟨.node ?_ ?_, rfl⟩
        · have hmap : links = parents.map fun l => (l.1, l.2.entity) := by
            clear hp hl h
            induction hall with
            | nil => rfl
            | cons hr _ ih => rw [List.map_cons, ← ih, ← hr.1]
          rw [hl, hmap]
        · clear hp hl h
          induction hall with
          | nil => intro r hr; cases hr
          | cons hr _ ih =>
            intro r hmem
            rcases List.mem_cons.1 hmem with rfl | hmem
            · exact hr.2
            · exact ih r hmem

theorem Unfolds.acc {t : Track} (h : t.Unfolds parentsOf) : Acc (Above parentsOf) t.entity := by
  induction h with
  | @node id parents links above ih =>
    refine .intro _ fun parent ⟨links', c, hlinks, hmem⟩ => ?_
    obtain rfl := Except.ok.inj (hlinks.symm.trans links)
    obtain ⟨l, hl, heq⟩ := List.mem_map.1 hmem
    obtain ⟨-, rfl⟩ := Prod.mk.inj heq
    exact ih l hl

theorem Unfolds.known {t : Track} (h : t.Unfolds parentsOf) {x : EntityId} (hx : ReflTransGen (Above parentsOf) x t.entity) :
    ∃ links, parentsOf x = .ok links := by
  induction h with
  | @node id parents links above ih =>
    rcases hx.cases_tail with rfl | ⟨parent, hx, links', c, hlinks, hmem⟩
    · exact ⟨_, links⟩
    · obtain rfl := Except.ok.inj (hlinks.symm.trans links)
      obtain ⟨l, hl, heq⟩ := List.mem_map.1 hmem
      obtain ⟨-, rfl⟩ := Prod.mk.inj heq
      exact ih l hl hx

theorem Unfolds.acyclic {t : Track} (h : t.Unfolds parentsOf) {x : EntityId} (hx : ReflTransGen (Above parentsOf) x t.entity) :
    ¬TransGen (Above parentsOf) x x := by
  have hacc : Acc (TransGen (Above parentsOf)) x := by
    rcases reflTransGen_iff_eq_or_transGen.1 hx with heq | hx
    · exact heq ▸ h.acc.transGen
    · exact h.acc.transGen.inv hx
  induction hacc with
  | intro x _ ih => exact fun hcircle => ih x hcircle hx hcircle

/-- The way up is a list of different entities, each an ancestor of those after it; so there is room for one more as
long as there are more entities than steps left. -/
theorem grow_total {known : EntityId → Prop} {size : Nat}
    (hsize : ∀ l : List EntityId, l.Nodup → (∀ x ∈ l, known x) → l.length ≤ size)
    (hlinks : ∀ x, known x → ∃ links, parentsOf x = .ok links ∧ ∀ l ∈ links, known l.2)
    (hacyclic : ∀ x, known x → ¬TransGen (Above parentsOf) x x) (start : EntityId) :
    ∀ {room : Nat} {path : List EntityId} {id : EntityId}, known id → path.Nodup → (∀ x ∈ path, known x) →
    (∀ x ∈ path, x = id ∨ TransGen (Above parentsOf) id x) → size < path.length + room →
    ∃ t, grow parentsOf start room path id = .ok t
  | 0, path, id, _, hnd, hin, _, hroom => by
    have := hsize path hnd hin
    omega
  | room + 1, path, id, hid, hnd, hin, hpath, hroom => by
    obtain ⟨links, hl, habove⟩ := hlinks id hid
    have hparents : ∃ r, links.mapM (climb start path (grow parentsOf start room)) = .ok r := by
      refine mapM_total fun l hmem => ?_
      have hup : Above parentsOf l.2 id := ⟨links, l.1, hl, hmem⟩
      have hoff : l.2 ∉ path := by
        intro hin'
        rcases hpath _ hin' with heq | hanc
        · exact hacyclic id hid (.single (heq ▸ hup))
        · exact hacyclic id hid (hanc.tail hup)
      have hin' : ∀ x ∈ l.2 :: path, known x := List.forall_mem_cons.2 ⟨habove l hmem, hin⟩
      have hpath' : ∀ x ∈ l.2 :: path, x = l.2 ∨ TransGen (Above parentsOf) l.2 x :=
        List.forall_mem_cons.2 ⟨.inl rfl, fun x hx =>
          .inr ((hpath x hx).elim (fun h => h ▸ .single hup) fun h => .head hup h)⟩
      obtain ⟨t, ht⟩ : ∃ t, grow parentsOf start room (l.2 :: path) l.2 = .ok t :=
        grow_total hsize hlinks hacyclic start (habove l hmem) (List.nodup_cons.2 ⟨hoff, hnd⟩) hin' hpath'
          (by rw [List.length_cons]; omega)
      refine ⟨(l.1, t), ?_⟩
      rw [climb, if_neg (by simpa using hoff), ht]
      rfl
    obtain ⟨r, hr⟩ := hparents
    refine ⟨.node id r, ?_⟩
    rw [grow, hl]
    simp only [Except.mapError, bind, Except.bind]
    rw [hr]
    rfl

/-! ## Parents in a graph -/

/-- **A track unfolds the links of a graph.** -/
inductive Of (g : Graph) : Track → Prop
  | node {id : EntityId} {parents : List (Connection × Track)}
    (links : g.parentsOf id = .ok (parents.map fun l => (l.1, l.2.entity)))
    (above : ∀ l ∈ parents, Of g l.2) : Of g (.node id parents)

variable {g : Graph}

theorem above_iff {parent child : EntityId} : Above g.parentsOf parent child ↔ g.IsParent parent child := by
  constructor
  · rintro ⟨links, c, hlinks, hmem⟩
    obtain ⟨n, hn, rfl⟩ := Graph.parentsOf_ok_iff.1 hlinks
    exact ⟨n, c, hn, hmem⟩
  · rintro ⟨n, c, hn, hmem⟩
    exact ⟨n.parents, c, Graph.parentsOf_ok_iff.2 ⟨n, hn, rfl⟩, hmem⟩

theorem above_eq : Above g.parentsOf = g.IsParent := funext fun _ => funext fun _ => propext above_iff

theorem of_iff {t : Track} : t.Of g ↔ t.Unfolds g.parentsOf := by
  constructor
  · intro h
    induction h with
    | node links _ ih => exact .node links ih
  · intro h
    induction h with
    | node links _ ih => exact .node links ih

theorem Of.contains {t : Track} (h : t.Of g) : g.contains t.entity = true := by
  obtain ⟨hl, -⟩ := h
  obtain ⟨n, hn, -⟩ := Graph.parentsOf_ok_iff.1 hl
  exact Graph.contains_iff.2 ⟨n, hn⟩

theorem Of.above {t : Track} (h : t.Of g) : ∀ l ∈ t.parents, l.2.Of g := by
  cases h with
  | node _ above => exact above

theorem ofGraph_of {id : EntityId} {t : Track} (h : ofGraph g id = .ok t) : t.Of g ∧ t.entity = id :=
  let ⟨hunfolds, hentity⟩ := grow_unfolds h
  ⟨of_iff.2 hunfolds, hentity⟩

theorem Of.acc {t : Track} (h : t.Of g) : Acc g.IsParent t.entity := above_eq ▸ (of_iff.1 h).acc

theorem Of.acyclic {t : Track} (h : t.Of g) : ¬TransGen g.IsParent t.entity t.entity :=
  above_eq ▸ (of_iff.1 h).acyclic .refl

/-- **In a consistent graph every entity has a track.** -/
theorem ofGraph_total (hg : g.Consistent) {id : EntityId} (h : g.contains id = true) : ∃ t, ofGraph g id = .ok t := by
  have hsize : ∀ l : List EntityId, l.Nodup → (∀ x ∈ l, g.contains x = true) → l.length ≤ g.size := fun l =>
    Graph.length_le_size
  refine grow_total hsize (fun x hx => ?_) (fun x _ => ?_) id h (List.nodup_cons.2 ⟨List.not_mem_nil, .nil⟩)
    (fun x hx => by rwa [List.mem_singleton.1 hx]) (fun x hx => .inl (List.mem_singleton.1 hx)) ?_
  · obtain ⟨n, hn⟩ := Graph.contains_iff.1 hx
    exact ⟨n.parents, Graph.parentsOf_ok_iff.2 ⟨n, hn, rfl⟩, fun l hl => (hg.parent hn hl).1⟩
  · exact above_eq (g := g) ▸ hg.acyclic x
  · rw [List.length_singleton]
    omega

end Track
end Reconciliation
