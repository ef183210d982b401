import Reconciliation.Proofs.Consistent
import Reconciliation.Plan.Matching
/-!
# What a search for equal content gives

A search gives an entity of the wanted content that is not to be skipped (`firstMatch_some`), or there is none
(`firstMatch_none`), and it gives an answer at all when everything it looks at is there (`firstMatch_total`).  An index
is coherent with a graph when each of its kinds lists what the graph has; then a search through it is a search through
a part of the graph's own listing (`findByContent_eq`, `bucket_eq`).
-/
namespace Reconciliation

theorem lt_of_find? {β : Type} {lt' : β → β → Prop} {test : β → Bool} {b : β} : ∀ {bs : List β}, bs.Pairwise lt' →
    bs.find? test = some b → ∀ b' ∈ bs, test b' = true → b' ≠ b → lt' b b'
  | [], _, h, _, _, _, _ => by cases h
  | c :: bs, hbs, h, b', hb', htest, hne => by
    obtain ⟨hc, hbs⟩ := List.pairwise_cons.1 hbs
    by_cases hctest : test c = true
    · simp only [List.find?_cons_of_pos hctest, Option.some.injEq] at h
      subst h
      exact hc b' ((List.mem_cons.1 hb').resolve_left hne)
    · rw [List.find?_cons_of_neg hctest] at h
      refine lt_of_find? hbs h b' ((List.mem_cons.1 hb').resolve_left ?_) htest hne
      rintro rfl
      exact hctest htest

namespace Graph

variable {g : Graph} {data : Entity} {skip : EntityId → Bool}

theorem firstMatch_some : ∀ {ids : List EntityId} {id : EntityId}, g.firstMatch data skip ids = .ok (some id) →
    id ∈ ids ∧ skip id = false ∧ ∃ e, g.entity id = .ok e ∧ e.sameContent data = true
  | [], id, h => by cases h
  | i :: rest, id, h => by
    rw [firstMatch] at h
    split at h
    · obtain ⟨hmem, hrest⟩ := firstMatch_some h
      exact ⟨List.mem_cons_of_mem _ hmem, hrest⟩
    · next hskip =>
      split at h
      · cases h
      · next other hent =>
        split at h
        · next hsame =>
          obtain rfl := Option.some.inj (Except.ok.inj h)
          exact ⟨List.mem_cons_self, by simpa using hskip, other, hent, hsame⟩
        · obtain ⟨hmem, hrest⟩ := firstMatch_some h
          exact ⟨List.mem_cons_of_mem _ hmem, hrest⟩

theorem firstMatch_none : ∀ {ids : List EntityId}, g.firstMatch data skip ids = .ok none →
    ∀ id ∈ ids, skip id = false → ∀ e, g.entity id = .ok e → e.sameContent data = false
  | [], _ => fun _ h => by cases h
  | i :: rest, h => by
    rw [firstMatch] at h
    refine List.forall_mem_cons.2 ?_
    split at h
    · next hskip =>
      refine ⟨fun hnot => ?_, firstMatch_none h⟩
      rw [hskip] at hnot
      cases hnot
    · split at h
      · cases h
      · next other hent =>
        split at h
        · cases h
        · next hsame =>
          refine ⟨fun _ e he => ?_, firstMatch_none h⟩
          rw [hent] at he
          rw [← Except.ok.inj he]
          simpa using hsame

theorem firstMatch_total : ∀ {ids : List EntityId}, (∀ id ∈ ids, g.contains id = true) →
    ∃ r, g.firstMatch data skip ids = .ok r
  | [], _ => ⟨none, rfl⟩
  | i :: rest, h => by
    obtain ⟨e, he⟩ := exists_entity (h i List.mem_cons_self)
    have ih := firstMatch_total fun id hid => h id (List.mem_cons_of_mem _ hid)
    rw [firstMatch]
    split
    · exact ih
    · rw [he]
      dsimp only
      split
      · exact ⟨some i, rfl⟩
      · exact ih

theorem contains_of_mem_childIds {parent child : EntityId} {c : Connection} (h : child ∈ g.childIds parent c) :
    g.contains child = true := by
  obtain ⟨n, hn, -⟩ := mem_childIds_iff.1 h
  exact contains_iff.2 ⟨n, hn⟩

theorem contains_of_mem_childLinks {parent : EntityId} {l : Link} (h : l ∈ g.childLinks parent) :
    g.contains l.2 = true := by
  obtain ⟨n, hn, -⟩ := mem_childLinks_iff.1 h
  exact contains_iff.2 ⟨n, hn⟩

theorem findChild_some {parent id : EntityId} {c : Connection} (h : g.findChild parent c data skip = .ok (some id)) :
    id ∈ g.childIds parent c ∧ skip id = false ∧ ∃ e, g.entity id = .ok e ∧ e.sameContent data = true := by
  rw [findChild, childrenOf] at h
  cases hn : g.node parent with
  | error e => rw [hn] at h; cases h
  | ok n =>
    rw [hn] at h
    exact firstMatch_some h

theorem findChild_none {parent : EntityId} {c : Connection} (h : g.findChild parent c data skip = .ok none) :
    ∀ id ∈ g.childIds parent c, skip id = false → ∀ e, g.entity id = .ok e → e.sameContent data = false := by
  rw [findChild, childrenOf] at h
  cases hn : g.node parent with
  | error e => rw [hn] at h; cases h
  | ok n =>
    rw [hn] at h
    exact firstMatch_none h

theorem findChild_total {parent : EntityId} {c : Connection} (h : g.contains parent = true) :
    ∃ r, g.findChild parent c data skip = .ok r := by
  obtain ⟨n, hn⟩ := contains_iff.1 h
  rw [findChild, childrenOf, node_ok_iff.2 hn]
  exact firstMatch_total fun id hid => contains_of_mem_childIds hid

theorem childrenOf_eq {parent : EntityId} {c : Connection} (h : g.contains parent = true) :
    g.childrenOf parent c = .ok (g.childIds parent c) := by
  obtain ⟨n, hn⟩ := contains_iff.1 h
  rw [childrenOf, node_ok_iff.2 hn]
  rfl

theorem children_eq {parent : EntityId} (h : g.contains parent = true) :
    g.children parent = .ok (g.childLinks parent) := by
  obtain ⟨n, hn⟩ := contains_iff.1 h
  rw [children, node_ok_iff.2 hn]
  rfl

theorem childrenOf_ok {parent : EntityId} {c : Connection} {l : List EntityId} (h : g.childrenOf parent c = .ok l) :
    l = g.childIds parent c := by
  rw [childrenOf] at h
  cases hn : g.node parent with
  | error e => rw [hn] at h; cases h
  | ok n => rw [hn] at h; exact (Except.ok.inj h).symm

theorem children_ok {parent : EntityId} {l : List Link} (h : g.children parent = .ok l) : l = g.childLinks parent := by
  rw [children] at h
  cases hn : g.node parent with
  | error e => rw [hn] at h; cases h
  | ok n => rw [hn] at h; exact (Except.ok.inj h).symm

theorem mem_entities_iff {id : EntityId} {e : Entity} : (id, e) ∈ g.entities ↔ g.entity id = .ok e := by
  simp only [entities, List.mem_map, Prod.mk.injEq, entity_ok_iff, Prod.exists, SortedMap.get?_eq_some_iff]
  constructor
  · rintro ⟨i, n, hn, rfl, rfl⟩
    exact ⟨n, hn, rfl⟩
  · rintro ⟨n, hn, rfl⟩
    exact ⟨id, n, hn, rfl, rfl⟩

end Graph

namespace ContentIndex

variable {hash : Entity → UInt64} {g : Graph} {index : ContentIndex} {data : Entity}

/-- **A bucket is a part of the graph's own listing**, in its order: the entities of the kind with the hash. -/
theorem bucket_eq (hash : Entity → UInt64) (g : Graph) (kind : Kind) (h : UInt64) :
    ((bucketsOf hash g kind).get? h).getD [] =
      ((g.entities.filter (·.1.kind = kind)).filter (hash ·.2 = h)).map (·.1) := by
  have hfold : ∀ (l : List (EntityId × Entity)) (buckets : SortedMap UInt64 (List EntityId)),
      ((l.foldl (fun buckets e =>
        buckets.insert (hash e.2) ((buckets.get? (hash e.2)).getD [] ++ [e.1])) buckets).get? h).getD [] =
        (buckets.get? h).getD [] ++ (l.filter (hash ·.2 = h)).map (·.1) := by
    intro l
    induction l with
    | nil => simp
    | cons e l ih =>
      intro buckets
      rw [List.foldl_cons, ih, SortedMap.get?_insert, List.filter_cons]
      by_cases heq : hash e.2 = h
      · simp [heq]
      · simp [heq, Ne.symm heq]
  rw [bucketsOf, hfold, SortedMap.get?_empty, Option.getD_none, List.nil_append]

theorem mem_bucket_iff {kind : Kind} {h : UInt64} {id : EntityId} :
    id ∈ ((bucketsOf hash g kind).get? h).getD [] ↔ ∃ e, g.entity id = .ok e ∧ id.kind = kind ∧ hash e = h := by
  simp only [bucket_eq, List.mem_map, List.mem_filter, decide_eq_true_eq, Graph.mem_entities_iff, Prod.exists]
  constructor
  · rintro ⟨_, e, ⟨⟨he, hkind⟩, hhash⟩, rfl⟩
    exact ⟨e, he, hkind, hhash⟩
  · rintro ⟨e, he, hkind, hhash⟩
    exact ⟨id, e, ⟨⟨he, hkind⟩, hhash⟩, rfl⟩

theorem contains_of_mem_bucket {kind : Kind} {h : UInt64} {id : EntityId}
    (hid : id ∈ ((bucketsOf hash g kind).get? h).getD []) : g.contains id = true :=
  let ⟨_, he, _⟩ := mem_bucket_iff.1 hid
  Graph.contains_of_entity he

/-- **An index lists what a graph has**, as far as it has been asked for. -/
def Coherent (hash : Entity → UInt64) (g : Graph) (index : ContentIndex) : Prop :=
  ∀ kind buckets, index.kinds.get? kind = some buckets → buckets = bucketsOf hash g kind

theorem coherent_empty : empty.Coherent hash g := fun kind buckets h => by cases h

theorem candidates_index (hash : Entity → UInt64) (g : Graph) (index : ContentIndex) (data : Entity) :
    (index.candidates hash g data).2 = index ∨ index.kinds.get? data.kind = none ∧
      (index.candidates hash g data).2 = ⟨index.kinds.insert data.kind (bucketsOf hash g data.kind)⟩ := by
  rw [candidates]
  cases h : index.kinds.get? data.kind with
  | some buckets => exact .inl rfl
  | none => exact .inr ⟨rfl, rfl⟩

theorem Coherent.after_candidates (hi : index.Coherent hash g) (data : Entity) :
    (index.candidates hash g data).2.Coherent hash g := by
  rcases candidates_index hash g index data with heq | ⟨-, heq⟩
  · rwa [heq]
  · intro kind buckets h
    rw [heq, SortedMap.get?_insert] at h
    split at h
    · next hk => rw [← Option.some.inj h, hk]
    · exact hi kind buckets h

theorem Coherent.findByContent_eq (hi : index.Coherent hash g) (skip : EntityId → Bool) :
    (index.findByContent hash g data skip).1 =
      g.firstMatch data skip (((bucketsOf hash g data.kind).get? (hash data)).getD []) := by
  rw [findByContent, candidates]
  cases h : index.kinds.get? data.kind with
  | some buckets =>
    have hb : buckets = bucketsOf hash g data.kind := hi _ _ h
    rw [hb]
  | none => rfl

theorem findByContent_snd (skip : EntityId → Bool) :
    (index.findByContent hash g data skip).2 = (index.candidates hash g data).2 := rfl

end ContentIndex
end Reconciliation
