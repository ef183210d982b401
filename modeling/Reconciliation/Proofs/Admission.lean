import Reconciliation.Proofs.Edits
/-!
# What the checks of the store let through

Every edit checks first.  The links that an entity may have are those that break no rule of the store (`Admits`), and
the check of links lets through exactly these (`checkLinks_ok_iff`).  A natural key is let through when it is free or
the entity's own, and parents are when none of them is the entity or lies below it.
-/
namespace Reconciliation
namespace Graph

open Relation

/-- **Links that an entity of a kind may have**: they break no rule of the store.  A slot that `moving` holds itself is
free. -/
structure Admits (g : Graph) (kind : Kind) (moving : Option EntityId) (links : List Link) : Prop where
  kind_declared : (g.schema.kind? kind).isSome = true
  declared : ∀ l ∈ links, l.1.child = kind ∧ g.schema.declares l.1 = true
  connections : (links.map Prod.fst).Nodup
  parent : ∀ l ∈ links, ∃ e, g.entity l.2 = .ok e ∧ e.kind = l.1.parent
  slot : ∀ l ∈ links, l.1.cardinality = .one → ∀ child ∈ g.childIds l.2 l.1, some child = moving
  required : ∀ c ∈ g.schema.requiredConnections kind, c ∈ links.map Prod.fst

variable {g : Graph} {cause : StoreError} {kind : Kind} {moving : Option EntityId} {links : List Link} {c : Connection}
  {parent id : EntityId} {u : Unit}

theorem node_refused (h : g.node id = .error cause) : g.contains id = false ∧ cause = .notFound id := by
  rw [node] at h
  split at h
  · cases h
  · next hnone => exact ⟨SortedMap.contains_eq_false_iff.2 hnone, (Except.error.inj h).symm⟩

theorem entity_refused (h : g.entity id = .error cause) : g.contains id = false ∧ cause = .notFound id := by
  cases hnode : g.node id with
  | ok n =>
    rw [entity, hnode] at h
    cases h
  | error cause' =>
    rw [entity, hnode] at h
    obtain rfl := Except.error.inj h
    exact node_refused hnode

theorem checkLink_ok_iff {seen : List Connection} : g.checkLink kind moving seen (c, parent) = .ok u ↔
    (c.child = kind ∧ g.schema.declares c = true) ∧ c ∉ seen ∧ (∃ e, g.entity parent = .ok e ∧ e.kind = c.parent) ∧
      (c.cardinality = .one → ∀ child ∈ g.childIds parent c, some child = moving) := by
  rw [checkLink]
  dsimp only
  by_cases hdeclared : c.child = kind ∧ g.schema.declares c = true
  case neg =>
    have hnot := not_and_or.1 hdeclared
    rw [if_pos (by simpa using hnot)]
    exact ⟨fun h => (by cases h), fun h => absurd h.1 hdeclared⟩
  rw [if_neg (by simp [hdeclared])]
  by_cases hseen : c ∈ seen
  · rw [if_pos (by simpa using hseen)]
    exact ⟨fun h => (by cases h), fun h => absurd hseen h.2.1⟩
  rw [if_neg (by simpa using hseen)]
  cases he : g.entity parent with
  | error cause =>
    refine ⟨fun h => (by cases h), ?_⟩
    rintro ⟨-, -, ⟨e, he', -⟩, -⟩
    cases he'
  | ok e =>
    simp only [hdeclared, hseen, Except.ok.injEq, exists_eq_left', not_false_eq_true, true_and, and_self, bind,
      Except.bind]
    by_cases hkind : e.kind = c.parent
    case neg =>
      rw [if_pos hkind]
      exact ⟨fun h => (by cases h), fun h => absurd h.1 hkind⟩
    rw [if_neg (by simpa using hkind)]
    by_cases hslot : c.cardinality = .one → ∀ child ∈ g.childIds parent c, some child = moving
    · rw [if_neg (by simpa using hslot)]
      exact ⟨fun _ => ⟨hkind, hslot⟩, fun _ => rfl⟩
    · rw [if_pos (by simpa using hslot)]
      exact ⟨fun h => (by cases h), fun h => absurd h.2 hslot⟩

theorem checkEachLink_ok_iff : ∀ {seen : List Connection} {links : List Link},
    g.checkEachLink kind moving seen links = .ok u ↔
      (links.map Prod.fst).Nodup ∧ ∀ l ∈ links, (l.1.child = kind ∧ g.schema.declares l.1 = true) ∧ l.1 ∉ seen ∧
        (∃ e, g.entity l.2 = .ok e ∧ e.kind = l.1.parent) ∧
        (l.1.cardinality = .one → ∀ child ∈ g.childIds l.2 l.1, some child = moving)
  | seen, [] => ⟨fun _ => ⟨.nil, fun _ h => (by cases h)⟩, fun _ => rfl⟩
  | seen, (c, parent) :: rest => by
    rw [checkEachLink, except_bind_ok_iff, List.forall_mem_cons]
    simp only [checkLink_ok_iff, checkEachLink_ok_iff, List.map_cons, List.nodup_cons]
    constructor
    · rintro ⟨_, hhead, hnodup, hrest⟩
      refine ⟨⟨fun hmem => ?_, hnodup⟩, hhead, fun l hl => ?_⟩
      · obtain ⟨l, hl, rfl⟩ := List.mem_map.1 hmem
        exact (hrest l hl).2.1 List.mem_cons_self
      · obtain ⟨hdeclared, hseen, hparent, hslot⟩ := hrest l hl
        exact ⟨hdeclared, fun hmem => hseen (List.mem_cons_of_mem _ hmem), hparent, hslot⟩
    · rintro ⟨⟨hnew, hnodup⟩, hhead, hrest⟩
      refine ⟨(), hhead, hnodup, fun l hl => ?_⟩
      obtain ⟨hdeclared, hseen, hparent, hslot⟩ := hrest l hl
      refine ⟨hdeclared, fun hmem => ?_, hparent, hslot⟩
      rcases List.mem_cons.1 hmem with heq | hmem
      · exact hnew (heq ▸ List.mem_map_of_mem hl)
      · exact hseen hmem

theorem checkLinks_ok_iff : g.checkLinks kind links moving = .ok u ↔ g.Admits kind moving links := by
  rw [checkLinks]
  by_cases hkind : (g.schema.kind? kind).isSome = true
  case neg =>
    rw [if_pos (by simpa using hkind)]
    exact ⟨fun h => (by cases h), fun h => absurd h.kind_declared hkind⟩
  rw [if_neg (by simpa [Option.isSome_iff_ne_none] using hkind), except_bind_ok_iff]
  simp only [checkEachLink_ok_iff]
  constructor
  · rintro ⟨_, ⟨hnodup, hall⟩, h⟩
    refine ⟨hkind, fun l hl => (hall l hl).1, hnodup, fun l hl => (hall l hl).2.2.1, fun l hl => (hall l hl).2.2.2, ?_⟩
    intro c hc
    split at h
    · cases h
    · next hnone =>
      have hcovered := List.find?_eq_none.1 hnone c hc
      simpa using hcovered
  · intro h
    have heach : ∀ l ∈ links, (l.1.child = kind ∧ g.schema.declares l.1 = true) ∧ l.1 ∉ [] ∧
        (∃ e, g.entity l.2 = .ok e ∧ e.kind = l.1.parent) ∧
        (l.1.cardinality = .one → ∀ child ∈ g.childIds l.2 l.1, some child = moving) := fun l hl =>
      ⟨h.declared l hl, List.not_mem_nil, h.parent l hl, h.slot l hl⟩
    refine ⟨(), ⟨h.connections, heach⟩, ?_⟩
    split
    · next c hsome =>
      have hcovered := h.required c (List.mem_of_find?_eq_some hsome)
      have hmissing := List.find?_some hsome
      rw [Bool.not_eq_true', List.contains_eq_mem, decide_eq_false_iff_not] at hmissing
      exact absurd hcovered hmissing
    · rfl

/-! ## Keys and circles -/

theorem checkKey_ok_iff {key : Option NaturalKey} {holder : Option EntityId} : g.checkKey key holder = .ok u ↔
    ∀ k, key = some k → ∀ existing, g.resolve k = some existing → some existing = holder := by
  cases key with
  | none => exact ⟨fun _ _ h => (by cases h), fun _ => rfl⟩
  | some k =>
    simp only [checkKey, Option.some.injEq, forall_eq']
    cases g.resolve k with
    | none => exact ⟨fun _ _ h => (by cases h), fun _ => rfl⟩
    | some existing =>
      simp only [Option.some.injEq, forall_eq']
      by_cases h : some existing = holder
      · simp [h]
      · simp [h]

theorem checkKey_refused {key : Option NaturalKey} {holder : Option EntityId} (h : g.checkKey key holder = .error cause) :
    ∃ k owner, key = some k ∧ g.resolve k = some owner ∧ some owner ≠ holder ∧ cause = .duplicateKey k owner := by
  cases key with
  | none => cases h
  | some k =>
    simp only [checkKey] at h
    split at h
    · cases h
    next owner howner =>
    split at h
    · cases h
    next hother =>
    exact ⟨k, owner, rfl, howner, hother, (Except.error.inj h).symm⟩

theorem isDescendant_iff {root candidate : EntityId} :
    g.isDescendant root candidate = true ↔ ReflTransGen g.IsParent root candidate := by
  have hnext : ∀ id, ((g.childLinks id).map (·.2)).length ≤ (g.childLinks id).length := fun id =>
    Nat.le_of_eq (List.length_map _)
  rw [isDescendant, List.contains_iff_mem, mem_reachedFrom_iff hnext]
  have hstep : (fun a b => b ∈ (g.childLinks a).map (·.2)) = g.IsParent := by
    funext a b
    rw [eq_iff_iff, List.mem_map]
    constructor
    · rintro ⟨⟨c, b⟩, hmem, rfl⟩
      obtain ⟨n, hn, hp⟩ := mem_childLinks_iff.1 hmem
      exact ⟨n, c, hn, hp⟩
    · rintro ⟨n, c, hn, hp⟩
      exact ⟨(c, b), mem_childLinks_iff.2 ⟨n, hn, hp⟩, rfl⟩
  rw [hstep]

theorem checkAcyclic_ok_iff : ∀ {links : List Link},
    g.checkAcyclic id links = .ok u ↔ ∀ l ∈ links, ¬ReflTransGen g.IsParent id l.2
  | [] => ⟨fun _ _ h => (by cases h), fun _ => rfl⟩
  | (c, parent) :: rest => by
    rw [checkAcyclic, List.forall_mem_cons]
    by_cases h : ReflTransGen g.IsParent id parent
    · rw [if_pos (by simp [isDescendant_iff.2 h])]
      exact ⟨fun h => (by cases h), fun hall => absurd h hall.1⟩
    · have hne : parent ≠ id := by
        rintro rfl
        exact h .refl
      have hnot : g.isDescendant id parent = false := Bool.eq_false_iff.2 fun hd => h (isDescendant_iff.1 hd)
      rw [if_neg (by simp [hne, hnot]), checkAcyclic_ok_iff]
      exact ⟨fun hrest => ⟨h, hrest⟩, fun hall => hall.2⟩

theorem checkAcyclic_refused : ∀ {links : List Link}, g.checkAcyclic id links = .error cause →
    ∃ l ∈ links, ReflTransGen g.IsParent id l.2 ∧ cause = .parentCycle l.2 id
  | [], h => by cases h
  | (c, parent) :: rest, h => by
    rw [checkAcyclic] at h
    split at h
    · next hbelow =>
      refine ⟨_, List.mem_cons_self, ?_, (Except.error.inj h).symm⟩
      simp only [Bool.or_eq_true, decide_eq_true_eq] at hbelow
      rcases hbelow with rfl | hbelow
      · exact .refl
      · exact isDescendant_iff.1 hbelow
    · obtain ⟨l, hl, hrefused⟩ := checkAcyclic_refused h
      exact ⟨l, List.mem_cons_of_mem _ hl, hrefused⟩

/-! ## Edits that pass -/

/-- **Other parents are given exactly when they are admitted** and none of them is the entity or lies below it. -/
theorem setParents_ok_iff {g' : Graph} : setParents id links g = .ok u g' ↔
    g.contains id = true ∧ g.Admits id.kind (some id) links ∧ (∀ l ∈ links, ¬ReflTransGen g.IsParent id l.2) ∧
      g' = { g with nodes := g.nodes.modify id fun n => { n with parents := inDeclarationOrder g.schema id.kind links } } := by
  rw [setParents_ok_iff_checks, checkLinks_ok_iff, checkAcyclic_ok_iff, contains_iff]

/-- **An entity is added exactly when its links are admitted**, its natural key is free and its kind has an index left. -/
theorem add_ok_iff {data : Entity} {g' : Graph} : add data links g = .ok id g' ↔
    g.Admits data.kind none links ∧ (∀ k, g.schema.naturalKey? data = some k → g.resolve k = none) ∧
      (g.nextIndex data.kind).toNat + 1 < UInt32.size ∧ (g', id) = g.insertEntity data links := by
  have hfree : (∀ k, g.schema.naturalKey? data = some k → ∀ existing, g.resolve k = some existing →
      some existing = none) ↔ ∀ k, g.schema.naturalKey? data = some k → g.resolve k = none :=
    forall₂_congr fun k _ => by
      rw [Option.eq_none_iff_forall_ne_some]
      exact forall_congr' fun existing => by simp
  rw [add_ok_iff_checks, checkLinks_ok_iff, checkKey_ok_iff, checkIndex_ok_iff, hfree]

end Graph
end Reconciliation
