import Reconciliation.Proofs.Checking
import Reconciliation.Proofs.Lasting
import Reconciliation.Proofs.Whereabouts
/-!
# Matchings that are written down

A matching that is given as a list of pairs can be checked by looking at the entities of the two graphs (`Pass.Listed`):
each condition speaks of pairs of the list, of entities and of the links that they have.  The check is on the safe side
in one place, as it asks of all roots of the target what matters for the busy ones only.  Whether it lasts can be checked
too (`Pass.ListedLasting`), since what is accepted without a mate is copied when each parent of such an entity has a mate that
stays or is such an entity itself.
-/
namespace Reconciliation

open Relation

/-! ## What can be looked up -/

namespace Graph

variable {g : Graph} {x y : EntityId} {c : Connection}

instance : Decidable (g.HasLink x c y) :=
  decidable_of_iff (((g.links? x).getD []).any fun l => l = (c, y)) (by simp [hasLink_iff_mem])

theorem isRoot_iff_links : g.IsRoot x ↔ g.links? x = some [] := by
  rw [links?_eq_some_iff]
  rfl

instance : Decidable (g.IsRoot x) := decidable_of_iff _ isRoot_iff_links.symm

theorem HasLink.contains (h : g.HasLink x c y) : g.contains x = true :=
  let ⟨n, hn, _⟩ := h
  contains_iff.2 ⟨n, hn⟩

end Graph

namespace Pass

variable {p : Pass} {b : Bool} {t i j : EntityId} {c : Connection}

instance : Decidable (p.TargetIs b t) :=
  decidable_of_iff (∃ e ∈ p.target.data? t, p.accepts e.source = b) (by
    simp only [TargetIs, Graph.entity_ok_iff_data, Option.mem_def])

instance : Decidable (p.IncomingIs b i) :=
  decidable_of_iff (∃ e ∈ p.incoming.data? i, p.accepts e.source = b) (by
    simp only [IncomingIs, Graph.entity_ok_iff_data, Option.mem_def])

instance : Decidable (p.SameContent t i) :=
  decidable_of_iff (∃ e ∈ p.target.data? t, ∃ d ∈ p.incoming.data? i, e.sameContent d = true) (by
    simp only [SameContent, Graph.entity_ok_iff_data, Option.mem_def]
    constructor
    · exact fun ⟨e, he, d, hd, hsame⟩ => ⟨e, d, he, hd, hsame⟩
    · exact fun ⟨e, d, he, hd, hsame⟩ => ⟨e, he, d, hd, hsame⟩)

theorem answers_iff_data : p.Answers t i ↔ ∃ d ∈ p.incoming.data? i,
    (∀ key ∈ p.target.schema.naturalKey? d, p.target.resolve key = some t) ∧
      (p.target.schema.naturalKey? d = none → ∃ e ∈ p.target.data? t, e.sameContent d = true) := by
  simp only [Answers, Graph.entity_ok_iff_data, Option.mem_def]
  refine exists_congr fun d => and_congr_right fun _ => ?_
  cases p.target.schema.naturalKey? d <;> simp

instance : Decidable (p.Answers t i) := decidable_of_iff _ answers_iff_data.symm

instance : Decidable (p.Stays t i) := inferInstanceAs (Decidable (_ ∨ _))

/-! ## Pairs -/

variable {l : List (EntityId × EntityId)}

/-- What a matching has to say of one pair of mates. -/
structure PairFits (p : Pass) (l : List (EntityId × EntityId)) (a : EntityId × EntityId) : Prop where
  unique : ∀ b ∈ l, a.1 = b.1 ↔ a.2 = b.2
  root_iff : p.target.IsRoot a.1 ↔ p.incoming.IsRoot a.2
  answers : p.incoming.IsRoot a.2 → p.Answers a.1 a.2
  sameContent : ¬p.incoming.IsRoot a.2 → p.SameContent a.1 a.2
  shared : ¬p.incoming.IsRoot a.2 → ∃ k ∈ (p.target.links? a.1).getD [], ∃ k' ∈ (p.incoming.links? a.2).getD [],
    k.1 = k'.1 ∧ (k.2, k'.2) ∈ l
  above : ∀ k ∈ (p.incoming.links? a.2).getD [], ∃ b ∈ l, b.2 = k.2 ∧ p.Stays b.1 b.2

instance (a : EntityId × EntityId) : Decidable (p.PairFits l a) :=
  decidable_of_iff (_ ∧ _ ∧ _ ∧ _ ∧ _ ∧ _) ⟨fun ⟨hu, hr, ha, hs, hsh, hab⟩ => ⟨hu, hr, ha, hs, hsh, hab⟩,
    fun ⟨hu, hr, ha, hs, hsh, hab⟩ => ⟨hu, hr, ha, hs, hsh, hab⟩⟩

/-- Two entities that can be taken for counterparts: a root and what answers it, or children of mates with the same
content. -/
def CanPair (p : Pass) (l : List (EntityId × EntityId)) (t i : EntityId) : Prop :=
  (p.target.IsRoot t ∨ p.incoming.IsRoot i) ∧ p.Answers t i ∨
  p.SameContent t i ∧ ∃ k ∈ (p.target.links? t).getD [], ∃ k' ∈ (p.incoming.links? i).getD [],
    k.1 = k'.1 ∧ (k.2, k'.2) ∈ l ∧ p.Stays k.2 k'.2

instance : Decidable (p.CanPair l t i) := inferInstanceAs (Decidable (_ ∨ _))

/-- An incoming entity with a mate that stays. -/
def MateStays (p : Pass) (l : List (EntityId × EntityId)) (i : EntityId) : Prop := ∃ a ∈ l, a.2 = i ∧ p.Stays a.1 a.2

instance : Decidable (p.MateStays l i) := inferInstanceAs (Decidable (∃ a ∈ l, _))

/-- An accepted incoming entity without a mate. -/
def Single (p : Pass) (l : List (EntityId × EntityId)) (i : EntityId) : Prop := p.IncomingIs true i ∧ ∀ a ∈ l, a.2 ≠ i

instance : Decidable (p.Single l i) := inferInstanceAs (Decidable (_ ∧ _))

/-- **A matching that is given by pairs**, as it can be checked. -/
structure Listed (p : Pass) (l : List (EntityId × EntityId)) : Prop where
  pairs : ∀ a ∈ l, p.PairFits l a
  paired : ∀ t ∈ p.target.nodes.keys, ∀ i ∈ p.incoming.nodes.keys, p.CanPair l t i → (t, i) ∈ l
  single : ∀ i ∈ p.incoming.nodes.keys, p.Single l i → ∀ k ∈ (p.incoming.links? i).getD [],
    ∀ k' ∈ (p.incoming.links? i).getD [], k ≠ k' → p.MateStays l k.2 ∨ p.MateStays l k'.2

instance : Decidable (p.Listed l) :=
  decidable_of_iff (_ ∧ _ ∧ _) ⟨fun ⟨hf, hp, hs⟩ => ⟨hf, hp, hs⟩, fun ⟨hf, hp, hs⟩ => ⟨hf, hp, hs⟩⟩

/-- **Pairs that pass the check are an unambiguous matching.** -/
theorem Listed.matching (hp : p.Consistent) (h : p.Listed l) : p.Matching fun t i => (t, i) ∈ l where
  target_unique hm hm' := ((h.pairs _ hm).unique _ hm').2 rfl
  incoming_unique hm hm' := ((h.pairs _ hm).unique _ hm').1 rfl
  root_iff hm := (h.pairs _ hm).root_iff
  answers hm root := (h.pairs _ hm).answers root
  sameContent hm nested := (h.pairs _ hm).sameContent nested
  shared hm nested := by
    obtain ⟨⟨c, u⟩, hk, ⟨_, j⟩, hk', rfl, hmem⟩ := (h.pairs _ hm).shared nested
    exact ⟨c, u, j, Graph.hasLink_iff_mem.2 hk, Graph.hasLink_iff_mem.2 hk', hmem⟩
  above hm hlink := by
    obtain ⟨⟨u, _⟩, hmem, rfl, stays⟩ := (h.pairs _ hm).above _ (Graph.hasLink_iff_mem.1 hlink)
    exact ⟨u, hmem, stays⟩
  target_root root _ ha :=
    have ⟨ht, hi⟩ := ha.contains hp
    h.paired _ (SortedMap.mem_keys_iff.2 ht) _ (SortedMap.mem_keys_iff.2 hi) (.inl ⟨.inl root, ha⟩)
  incoming_root root ha :=
    have ⟨ht, hi⟩ := ha.contains hp
    h.paired _ (SortedMap.mem_keys_iff.2 ht) _ (SortedMap.mem_keys_iff.2 hi) (.inl ⟨.inr root, ha⟩)
  child hlink hlink' parent stays hsame :=
    have ⟨ht, hi⟩ := hsame.contains
    h.paired _ (SortedMap.mem_keys_iff.2 ht) _ (SortedMap.mem_keys_iff.2 hi) (.inr ⟨hsame, _,
      Graph.hasLink_iff_mem.1 hlink, _, Graph.hasLink_iff_mem.1 hlink', rfl, parent, stays⟩)
  alone {i c c' j j'} accepted free hlink hlink' hne := by
    have hsingle : p.Single l i := ⟨accepted, fun a ha heq => free a.1 (heq ▸ ha)⟩
    have hstays : ∀ {j}, p.MateStays l j → ∃ u, (u, j) ∈ l ∧ p.Stays u j := by
      rintro _ ⟨⟨u, _⟩, hmem, rfl, stays⟩
      exact ⟨u, hmem, stays⟩
    exact (h.single i (SortedMap.mem_keys_iff.2 hlink.contains) hsingle _ (Graph.hasLink_iff_mem.1 hlink) _
      (Graph.hasLink_iff_mem.1 hlink') hne).imp hstays hstays

/-! ## Pairs that last -/

/-- Mates that are left alone have corresponding parents. -/
structure ParentsFit (p : Pass) (l : List (EntityId × EntityId)) (t i : EntityId) : Prop where
  forth : ∀ k ∈ (p.target.links? t).getD [], ∃ b ∈ l, b.1 = k.2 ∧ p.incoming.HasLink i k.1 b.2
  back : ∀ k ∈ (p.incoming.links? i).getD [], ∀ b ∈ l, b.2 = k.2 → p.target.HasLink t k.1 b.1

instance : Decidable (p.ParentsFit l t i) :=
  decidable_of_iff (_ ∧ _) ⟨fun ⟨hf, hb⟩ => ⟨hf, hb⟩, fun ⟨hf, hb⟩ => ⟨hf, hb⟩⟩

/-- **A matching that is given by pairs and lasts**, as it can be checked. -/
structure ListedLasting (p : Pass) (l : List (EntityId × EntityId)) : Prop extends Listed p l where
  distinct : p.incoming.Distinct
  parents : ∀ a ∈ l, p.TargetIs false a.1 → p.IncomingIs false a.2 → p.ParentsFit l a.1 a.2
  full : ∀ i ∈ p.incoming.nodes.keys, p.Single l i → ∀ k ∈ (p.incoming.links? i).getD [],
    p.MateStays l k.2 ∨ p.Single l k.2

instance : Decidable (p.ListedLasting l) :=
  decidable_of_iff (_ ∧ _ ∧ _ ∧ _) ⟨fun ⟨hl, hd, hp, hf⟩ => ⟨hl, hd, hp, hf⟩, fun ⟨hl, hd, hp, hf⟩ => ⟨hl, hd, hp, hf⟩⟩

theorem ListedLasting.hasPlace (hp : p.Consistent) (h : p.ListedLasting l) (hi : p.Single l i) :
    p.HasPlace (fun t i => (t, i) ∈ l) i (.added i) := by
  -- induction along the links up, which end somewhere
  induction hp.incoming.acc_isParent hi.1.contains with
  | intro i _ ih =>
    have free : ∀ t, (t, i) ∉ l := fun t ht => hi.2 _ ht rfl
    by_cases hroot : p.incoming.IsRoot i
    · exact .root hroot hi.1 free
    obtain ⟨n, hn⟩ := Graph.contains_iff.1 hi.1.contains
    obtain ⟨⟨c, j⟩, hmem⟩ := List.exists_mem_of_ne_nil _ fun hnil => hroot ⟨n, hn, hnil⟩
    have hlink : p.incoming.HasLink i c j := ⟨n, hn, hmem⟩
    rcases h.full i (SortedMap.mem_keys_iff.2 hlink.contains) hi _ (Graph.hasLink_iff_mem.1 hlink) with
      ⟨⟨u, _⟩, hu, rfl, stays⟩ | hsingle
    · exact .child hlink (.mate hu stays) hi.1 free
    · exact .child hlink (ih j hlink.isParent hsingle) hi.1 free

theorem ListedLasting.lasting (hp : p.Consistent) (h : p.ListedLasting l) : p.Lasting fun t i => (t, i) ∈ l where
  toMatching := h.toListed.matching hp
  distinct := h.distinct
  alike {t i c u} hm rejected rejected' := by
    have hfit := h.parents _ hm rejected rejected'
    constructor
    · intro hlink
      obtain ⟨⟨_, j⟩, hb, rfl, hlink'⟩ := hfit.forth _ (Graph.hasLink_iff_mem.1 hlink)
      exact ⟨j, hb, hlink'⟩
    · rintro ⟨j, hb, hlink⟩
      exact hfit.back _ (Graph.hasLink_iff_mem.1 hlink) _ hb rfl
  full {i c j} hplace hlink := by
    have hi : p.Single l i := by
      cases hplace with
      | root _ accepted free => exact ⟨accepted, fun a ha heq => free a.1 (heq ▸ ha)⟩
      | child _ _ accepted free => exact ⟨accepted, fun a ha heq => free a.1 (heq ▸ ha)⟩
    rcases h.full i (SortedMap.mem_keys_iff.2 hlink.contains) hi _ (Graph.hasLink_iff_mem.1 hlink) with
      ⟨⟨u, _⟩, hu, rfl, stays⟩ | hsingle
    · exact ⟨_, .mate hu stays⟩
    · exact ⟨_, h.hasPlace hp hsingle⟩

end Pass

/-- An `A` and its children. -/
def Graph.parentWith (children : List Entity) : Graph :=
  .ofNodes ⟨#[⟨"A", [], []⟩, ⟨"K", [], [⟨0, 1, .many, .optional⟩]⟩]⟩
    ((⟨0, 0⟩, .new 0 "s", []) ::
      children.zipIdx.map fun (e, n) => (⟨1, .ofNat n⟩, e, [(⟨0, 1, .many, .optional⟩, ⟨0, 0⟩)]))
    [(0, 1), (1, .ofNat children.length)]

/-- A child is to be replaced by two, beside one that stays alone. -/
def replacingPass : Pass where
  target := .parentWith [(Entity.new 1 "s").set "name" (.text "old"), (Entity.new 1 "u").set "name" (.text "own")]
  incoming := .parentWith [(Entity.new 1 "s").set "name" (.text "first"), (Entity.new 1 "s").set "name" (.text "second"),
    (Entity.new 1 "u").set "name" (.text "own")]
  accepts source := source = "s"

theorem replacingPass_consistent : replacingPass.Consistent := ⟨by decide +kernel, by decide +kernel, rfl⟩

/-- The parents are mates, and so are the children that stay. -/
theorem replacingPass_listed : replacingPass.ListedLasting [(⟨0, 0⟩, ⟨0, 0⟩), (⟨1, 1⟩, ⟨1, 2⟩)] := by decide +kernel

theorem replacingPass_plainKeys : replacingPass.target.PlainKeys := Graph.plainKeys_iff.2 (by decide +kernel)

theorem replacingPass_counted : replacingPass.target.Counted := by decide +kernel

end Reconciliation
