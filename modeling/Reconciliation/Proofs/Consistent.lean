import Mathlib.Logic.Relation
import Reconciliation.Proofs.Bindings
import Reconciliation.Track
/-!
# Consistent graphs

A graph is consistent when every rule of the store holds of it and its two lookups agree with its data: links go
through declared connections to parents that are there, no connection is used twice, none that is required is missing,
a one-to-one slot has one child, nothing is its own ancestor, and natural keys and soft references are registered
exactly.

Each half stands on its own.  The rules of the store about kinds and links are those of `Lawful`; whether the look-ups
are right is asked of one entity at a time (`WellKeyed`, `WellReferred`), since an edit may put them off for one.
-/
namespace Reconciliation
namespace Graph

/-- One entity is a parent of another one. -/
def IsParent (g : Graph) (parent child : EntityId) : Prop :=
  ∃ n c, g.nodes.get? child = some n ∧ (c, parent) ∈ n.parents

/-- One entity is a parent of another one that cannot be without it. -/
def IsRequiredParent (g : Graph) (parent child : EntityId) : Prop :=
  ∃ n c, g.nodes.get? child = some n ∧ (c, parent) ∈ n.parents ∧ c.isRequired = true

/-- **Every rule of the store holds, and the lookups agree with the data.** -/
structure Consistent (g : Graph) : Prop where
  kind : ∀ {id n}, g.nodes.get? id = some n → n.data.kind = id.kind
  kind_declared : ∀ {id n}, g.nodes.get? id = some n → (g.schema.kind? id.kind).isSome = true
  declared : ∀ {id n c parent}, g.nodes.get? id = some n → (c, parent) ∈ n.parents →
    c.child = id.kind ∧ g.schema.declares c = true
  parent : ∀ {id n c parent}, g.nodes.get? id = some n → (c, parent) ∈ n.parents →
    g.contains parent = true ∧ parent.kind = c.parent
  connections : ∀ {id n}, g.nodes.get? id = some n → (n.parents.map Prod.fst).Nodup
  ordered : ∀ {id n}, g.nodes.get? id = some n → inDeclarationOrder g.schema id.kind n.parents = n.parents
  required : ∀ {id n c}, g.nodes.get? id = some n → c ∈ g.schema.requiredConnections id.kind →
    c ∈ n.parents.map Prod.fst
  slot : ∀ {id id' n n' c parent}, g.nodes.get? id = some n → g.nodes.get? id' = some n' → c.cardinality = .one →
    (c, parent) ∈ n.parents → (c, parent) ∈ n'.parents → id = id'
  acyclic : ∀ id, ¬ Relation.TransGen g.IsParent id id
  owner : ∀ {key id}, g.resolve key = some id ↔
    ∃ n, g.nodes.get? id = some n ∧ g.schema.naturalKey? n.data = some key
  referrer : ∀ {key id}, id ∈ g.referrers key ↔ ∃ n, g.nodes.get? id = some n ∧ key ∈ n.data.refs

/-- **The look-up of natural keys is right about an entity**: a key leads to it exactly when its data has this key. -/
def WellKeyed (g : Graph) (id : EntityId) : Prop :=
  ∀ key, g.resolve key = some id ↔ ∃ e, g.entity id = .ok e ∧ g.schema.naturalKey? e = some key

/-- **The look-up of referrers is right about an entity**: it is listed exactly for the keys that its data refers to. -/
def WellReferred (g : Graph) (id : EntityId) : Prop :=
  ∀ key, id ∈ g.referrers key ↔ ∃ e, g.entity id = .ok e ∧ key ∈ e.refs

/-- **Every rule of the store about kinds and links holds.** -/
structure Lawful (g : Graph) : Prop where
  /-- The data of an entity has the kind of its id. -/
  kind : ∀ {id n}, g.nodes.get? id = some n → n.data.kind = id.kind
  kind_declared : ∀ {id n}, g.nodes.get? id = some n → (g.schema.kind? id.kind).isSome = true
  /-- A link goes through a connection that is declared for the kind of the child. -/
  declared : ∀ {id n c parent}, g.nodes.get? id = some n → (c, parent) ∈ n.parents →
    c.child = id.kind ∧ g.schema.declares c = true
  /-- A link leads to an entity that is there, and of the kind that the connection asks for. -/
  parent : ∀ {id n c parent}, g.nodes.get? id = some n → (c, parent) ∈ n.parents →
    g.contains parent = true ∧ parent.kind = c.parent
  /-- No entity has two parents through one connection. -/
  connections : ∀ {id n}, g.nodes.get? id = some n → (n.parents.map Prod.fst).Nodup
  ordered : ∀ {id n}, g.nodes.get? id = some n → inDeclarationOrder g.schema id.kind n.parents = n.parents
  /-- Every required connection has a parent. -/
  required : ∀ {id n c}, g.nodes.get? id = some n → c ∈ g.schema.requiredConnections id.kind →
    c ∈ n.parents.map Prod.fst
  /-- No parent has two children through a one-to-one connection. -/
  slot : ∀ {id id' n n' c parent}, g.nodes.get? id = some n → g.nodes.get? id' = some n' → c.cardinality = .one →
    (c, parent) ∈ n.parents → (c, parent) ∈ n'.parents → id = id'
  /-- No entity is its own ancestor. -/
  acyclic : ∀ id, ¬ Relation.TransGen g.IsParent id id

/-- **A graph that edits keep intact**: the rules hold, and referrers are looked up right.  Natural keys may be off. -/
structure Intact (g : Graph) : Prop extends Lawful g where
  referred : ∀ id, g.WellReferred id

variable {g : Graph} {id : EntityId}

theorem contains_iff : g.contains id = true ↔ ∃ n, g.nodes.get? id = some n := SortedMap.contains_iff

theorem node_ok_iff {n : Node} : g.node id = .ok n ↔ g.nodes.get? id = some n := by
  rw [node]
  cases g.nodes.get? id <;> simp

theorem entity_ok_iff {e : Entity} : g.entity id = .ok e ↔ ∃ n, g.nodes.get? id = some n ∧ n.data = e := by
  rw [entity, node]
  cases g.nodes.get? id <;> simp [Except.map]

theorem parentsOf_ok_iff {links : List Link} :
    g.parentsOf id = .ok links ↔ ∃ n, g.nodes.get? id = some n ∧ n.parents = links := by
  rw [parentsOf, node]
  cases g.nodes.get? id <;> simp [Except.map]

theorem contains_of_entity {e : Entity} (h : g.entity id = .ok e) : g.contains id = true := by
  obtain ⟨n, hn, -⟩ := entity_ok_iff.1 h
  exact contains_iff.2 ⟨n, hn⟩

theorem exists_entity (h : g.contains id = true) : ∃ e, g.entity id = .ok e := by
  obtain ⟨n, hn⟩ := contains_iff.1 h
  exact ⟨n.data, entity_ok_iff.2 ⟨n, hn, rfl⟩⟩

theorem contains_of_mem {b : EntityId × Node} (h : b ∈ g.nodes.toList) : g.contains b.1 = true :=
  contains_iff.2 ⟨_, SortedMap.get?_eq_some_iff.2 h⟩

theorem exists_mem_of_contains (h : g.contains id = true) : ∃ b ∈ g.nodes.toList, b.1 = id := by
  obtain ⟨n, hn⟩ := contains_iff.1 h
  exact ⟨(id, n), SortedMap.get?_eq_some_iff.1 hn, rfl⟩

theorem mem_ids_iff : id ∈ g.ids ↔ g.contains id = true := SortedMap.mem_keys_iff

theorem length_ids (g : Graph) : g.ids.length = g.size := by
  rw [ids, SortedMap.keys, List.length_map, size, SortedMap.size]

theorem length_le_size {l : List EntityId} (hl : l.Nodup) (h : ∀ x ∈ l, g.contains x = true) : l.length ≤ g.size := by
  rw [← g.length_ids]
  exact (hl.subperm fun x hx => mem_ids_iff.2 (h x hx)).length_le

theorem mem_childIds_iff {parent child : EntityId} {c : Connection} :
    child ∈ g.childIds parent c ↔ ∃ n, g.nodes.get? child = some n ∧ (c, parent) ∈ n.parents := by
  simp only [childIds, List.mem_map, List.mem_filter, List.contains_iff_mem]
  constructor
  · rintro ⟨⟨id, n⟩, ⟨hmem, hp⟩, rfl⟩
    exact ⟨n, SortedMap.get?_eq_some_iff.2 hmem, hp⟩
  · rintro ⟨n, hn, hp⟩
    exact ⟨(child, n), ⟨SortedMap.get?_eq_some_iff.1 hn, hp⟩, rfl⟩

theorem mem_childLinks_iff {parent child : EntityId} {c : Connection} :
    (c, child) ∈ g.childLinks parent ↔ ∃ n, g.nodes.get? child = some n ∧ (c, parent) ∈ n.parents := by
  simp only [childLinks, mem_sortBy, List.mem_flatMap, List.mem_map, List.mem_filter, decide_eq_true_eq]
  constructor
  · rintro ⟨⟨id, n⟩, hmem, ⟨c', p⟩, ⟨hp, hpp⟩, heq⟩
    obtain ⟨rfl, rfl⟩ := Prod.mk.inj heq
    simp only at hpp
    subst hpp
    exact ⟨n, SortedMap.get?_eq_some_iff.2 hmem, hp⟩
  · rintro ⟨n, hn, hp⟩
    exact ⟨(child, n), SortedMap.get?_eq_some_iff.1 hn, (c, parent), ⟨hp, rfl⟩, rfl⟩

theorem exists_entity_iff {P : Entity → Prop} :
    (∃ e, g.entity id = .ok e ∧ P e) ↔ ∃ n, g.nodes.get? id = some n ∧ P n.data := by
  simp only [entity_ok_iff]
  constructor
  · rintro ⟨_, ⟨n, hn, rfl⟩, hP⟩
    exact ⟨n, hn, hP⟩
  · rintro ⟨n, hn, hP⟩
    exact ⟨_, ⟨n, hn, rfl⟩, hP⟩

/-- **Consistent is what is intact and looks up natural keys right.** -/
theorem consistent_iff_intact : g.Consistent ↔ g.Intact ∧ ∀ id, g.WellKeyed id := by
  have howner : ∀ key id, (∃ e, g.entity id = .ok e ∧ g.schema.naturalKey? e = some key) ↔
      ∃ n, g.nodes.get? id = some n ∧ g.schema.naturalKey? n.data = some key := fun _ _ => exists_entity_iff
  have hreferrer : ∀ key id, (∃ e, g.entity id = .ok e ∧ key ∈ e.refs) ↔
      ∃ n, g.nodes.get? id = some n ∧ key ∈ n.data.refs := fun _ _ => exists_entity_iff
  constructor
  · intro hg
    exact ⟨⟨⟨hg.kind, hg.kind_declared, hg.declared, hg.parent, hg.connections, hg.ordered, hg.required, hg.slot,
      hg.acyclic⟩, fun id key => hg.referrer.trans (hreferrer key id).symm⟩,
      fun id key => hg.owner.trans (howner key id).symm⟩
  · rintro ⟨hg, hkeyed⟩
    exact ⟨hg.kind, hg.kind_declared, hg.declared, hg.parent, hg.connections, hg.ordered, hg.required, hg.slot,
      hg.acyclic, fun {key id} => (hkeyed id key).trans (howner key id),
      fun {key id} => (hg.referred id key).trans (hreferrer key id)⟩

theorem Consistent.intact (hg : g.Consistent) : g.Intact := (consistent_iff_intact.1 hg).1

theorem Consistent.wellKeyed (hg : g.Consistent) (id : EntityId) : g.WellKeyed id := (consistent_iff_intact.1 hg).2 id

theorem Intact.consistent (hg : g.Intact) (hkeyed : ∀ id, g.WellKeyed id) : g.Consistent :=
  consistent_iff_intact.2 ⟨hg, hkeyed⟩

theorem Consistent.kind_eq (hg : g.Consistent) {e : Entity} (h : g.entity id = .ok e) : e.kind = id.kind := by
  obtain ⟨n, hn, rfl⟩ := entity_ok_iff.1 h
  exact hg.kind hn

theorem Consistent.contains_of_resolve (hg : g.Consistent) {key : NaturalKey} (h : g.resolve key = some id) :
    g.contains id = true := by
  obtain ⟨n, hn, -⟩ := hg.owner.1 h
  exact contains_iff.2 ⟨n, hn⟩

end Graph
end Reconciliation
