import Reconciliation.Proofs.Ancestors
/-!
# Checking consistency

Whether a graph is consistent can be computed.  All rules but one speak of an entity and what it is linked to; that
nothing is its own ancestor comes to every entity having a track.
-/
namespace Reconciliation

variable {g : Graph}

namespace Graph

/-- The rules of the store for one entity. -/
structure NodeFits (g : Graph) (id : EntityId) (n : Node) : Prop where
  kind : n.data.kind = id.kind
  kind_declared : (g.schema.kind? id.kind).isSome = true
  declared : ∀ l ∈ n.parents, l.1.child = id.kind ∧ g.schema.declares l.1 = true
  parent : ∀ l ∈ n.parents, g.contains l.2 = true ∧ l.2.kind = l.1.parent
  slot : ∀ l ∈ n.parents, l.1.cardinality = .one → ∀ b ∈ g.nodes.toList, l ∈ b.2.parents → id = b.1
  connections : (n.parents.map Prod.fst).Nodup
  ordered : inDeclarationOrder g.schema id.kind n.parents = n.parents
  required : ∀ c ∈ g.schema.requiredConnections id.kind, c ∈ n.parents.map Prod.fst
  track : (Track.ofGraph g id).isOk = true
  owner : ∀ key ∈ g.schema.naturalKey? n.data, g.resolve key = some id
  referrer : ∀ key ∈ n.data.refs, id ∈ g.referrers key

instance (id : EntityId) (n : Node) : Decidable (g.NodeFits id n) :=
  decidable_of_iff
    (n.data.kind = id.kind ∧ (g.schema.kind? id.kind).isSome = true ∧
      (∀ l ∈ n.parents, l.1.child = id.kind ∧ g.schema.declares l.1 = true) ∧
      (∀ l ∈ n.parents, g.contains l.2 = true ∧ l.2.kind = l.1.parent) ∧
      (∀ l ∈ n.parents, l.1.cardinality = .one → ∀ b ∈ g.nodes.toList, l ∈ b.2.parents → id = b.1) ∧
      (n.parents.map Prod.fst).Nodup ∧ inDeclarationOrder g.schema id.kind n.parents = n.parents ∧
      (∀ c ∈ g.schema.requiredConnections id.kind, c ∈ n.parents.map Prod.fst) ∧
      (Track.ofGraph g id).isOk = true ∧
      (∀ key ∈ g.schema.naturalKey? n.data, g.resolve key = some id) ∧ ∀ key ∈ n.data.refs, id ∈ g.referrers key)
    ⟨fun ⟨hk, hd, hl, hp, hs, hc, ho, hr, ht, hn, hf⟩ => ⟨hk, hd, hl, hp, hs, hc, ho, hr, ht, hn, hf⟩,
      fun ⟨hk, hd, hl, hp, hs, hc, ho, hr, ht, hn, hf⟩ => ⟨hk, hd, hl, hp, hs, hc, ho, hr, ht, hn, hf⟩⟩

/-- The lookups know nothing that the data does not say. -/
def KeysFit (g : Graph) : Prop :=
  (∀ o ∈ g.keys.owners.toList, ∃ n ∈ g.nodes.get? o.2, g.schema.naturalKey? n.data = some o.1) ∧
  ∀ r ∈ g.keys.referring.toList, ∀ id ∈ r.2.keys, ∃ n ∈ g.nodes.get? id, r.1 ∈ n.data.refs

instance : Decidable g.KeysFit := by
  unfold KeysFit
  infer_instance

theorem mem_referrers_iff {key : NaturalKey} {id : EntityId} :
    id ∈ g.referrers key ↔ ∃ ids, (key, ids) ∈ g.keys.referring.toList ∧ id ∈ ids.keys := by
  rw [referrers, KeyTable.referrers]
  simp only [← SortedMap.get?_eq_some_iff]
  cases g.keys.referring.get? key <;> simp

/-- **Consistency is a matter of looking at each entity and at the two lookups.** -/
theorem consistent_iff : g.Consistent ↔ (∀ b ∈ g.nodes.toList, g.NodeFits b.1 b.2) ∧ g.KeysFit := by
  constructor
  · intro hg
    refine ⟨fun ⟨id, n⟩ hmem => ?_, fun ⟨key, id⟩ hmem => ?_, fun ⟨key, ids⟩ hmem id hid => ?_⟩
    · have hn := SortedMap.get?_eq_some_iff.2 hmem
      refine ⟨hg.kind hn, hg.kind_declared hn, fun l hl => hg.declared hn hl, fun l hl => hg.parent hn hl,
        fun l hl hone b hb hlb => ?_, hg.connections hn, hg.ordered hn, fun c hc => hg.required hn hc, ?_,
        fun key hkey => hg.owner.2 ⟨n, hn, hkey⟩, fun key hkey => hg.referrer.2 ⟨n, hn, hkey⟩⟩
      · exact hg.slot hn (SortedMap.get?_eq_some_iff.2 hb) hone hl hlb
      · obtain ⟨t, ht⟩ := Track.ofGraph_total hg (contains_iff.2 ⟨n, hn⟩)
        rw [show Track.ofGraph g (id, n).1 = .ok t from ht]
        rfl
    · obtain ⟨n, hn, hkey⟩ := hg.owner.1 (SortedMap.get?_eq_some_iff.2 hmem)
      exact ⟨n, hn, hkey⟩
    · obtain ⟨n, hn, hkey⟩ := hg.referrer.1 (mem_referrers_iff.2 ⟨ids, hmem, hid⟩)
      exact ⟨n, hn, hkey⟩
  · rintro ⟨hnodes, howners, hreferring⟩
    have hfits : ∀ {id n}, g.nodes.get? id = some n → g.NodeFits id n := fun {id n} hn =>
      hnodes (id, n) (SortedMap.get?_eq_some_iff.1 hn)
    have htrack : ∀ {id n}, g.nodes.get? id = some n → ¬ Relation.TransGen g.IsParent id id := by
      intro id n hn
      obtain ⟨t, ht⟩ := exists_of_isOk (hfits hn).track
      obtain ⟨hof, hentity⟩ := Track.ofGraph_of ht
      exact hentity ▸ hof.acyclic
    exact {
      kind := fun hn => (hfits hn).kind
      kind_declared := fun hn => (hfits hn).kind_declared
      declared := fun hn hl => (hfits hn).declared _ hl
      parent := fun hn hl => (hfits hn).parent _ hl
      connections := fun hn => (hfits hn).connections
      ordered := fun hn => (hfits hn).ordered
      required := fun hn hc => (hfits hn).required _ hc
      slot := fun {id id' n n' c parent} hn hn' hone hl hl' =>
        (hfits hn).slot (c, parent) hl hone (id', n') (SortedMap.get?_eq_some_iff.1 hn') hl'
      acyclic := fun id hcycle => by
        obtain ⟨parent, -, n, c, hn, -⟩ := Relation.TransGen.tail'_iff.1 hcycle
        exact htrack hn hcycle
      owner := fun {key id} => ⟨fun h => howners (key, id) (SortedMap.get?_eq_some_iff.1 h),
        fun ⟨n, hn, hkey⟩ => (hfits hn).owner key hkey⟩
      referrer := fun {key id} => ⟨fun h => by
          obtain ⟨ids, hmem, hid⟩ := mem_referrers_iff.1 h
          exact hreferring (key, ids) hmem id hid,
        fun ⟨n, hn, hkey⟩ => (hfits hn).referrer key hkey⟩ }

instance : Decidable g.Consistent := decidable_of_iff _ consistent_iff.symm

/-- A graph of entities without natural keys and soft references. -/
def ofNodes (schema : Schema) (nodes : List (EntityId × Entity × List Link)) (counters : List (Kind × UInt32)) : Graph :=
  ⟨schema, .ofList (nodes.map fun n => (n.1, ⟨n.2.1, n.2.2, .empty⟩)), .ofList counters, .empty⟩

end Graph
end Reconciliation
