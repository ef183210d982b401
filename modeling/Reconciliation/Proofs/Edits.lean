import Reconciliation.Proofs.Runs
import Reconciliation.Proofs.Walks
import Reconciliation.Store.Edit
/-!
# What edits do to links

Seen from the links alone there are three kinds of edits.  Changing or attaching data leaves them as they are
(`SameLinks`).  Adding an entity or giving it other parents changes its own links, and the parents are there
(`add_ok`, `setParents_ok`).  Removing one takes away what requires it, and of the links of the others at most those to
what is gone (`remove_ok`).

What an edit has checked when it succeeds, and which check refused it when it fails, is said once for each edit
(`add_ok_iff_checks`, `add_error_cases` and so on); everything else about edits starts from there.
-/
namespace Reconciliation
namespace Graph

/-- The links of an entity to its parents, if it is there. -/
def links? (g : Graph) (id : EntityId) : Option (List Link) := (g.nodes.get? id).map (·.parents)

theorem links?_isSome (g : Graph) (id : EntityId) : (g.links? id).isSome = g.contains id := by
  rw [links?, Option.isSome_map]
  rfl

theorem contains_iff_links {g : Graph} {id : EntityId} : g.contains id = true ↔ ∃ links, g.links? id = some links := by
  rw [← links?_isSome, Option.isSome_iff_exists]

theorem contains_eq_false_iff_links {g : Graph} {id : EntityId} : g.contains id = false ↔ g.links? id = none := by
  rw [← links?_isSome, Option.isSome_eq_false_iff, Option.isNone_iff_eq_none]

theorem links?_eq_some_iff {g : Graph} {id : EntityId} {links : List Link} :
    g.links? id = some links ↔ ∃ n, g.nodes.get? id = some n ∧ n.parents = links := Option.map_eq_some_iff

theorem parentsOf_eq (g : Graph) (id : EntityId) :
    g.parentsOf id = match g.links? id with
      | some links => .ok links
      | none => .error (.notFound id) := by
  rw [parentsOf, node, links?]
  cases g.nodes.get? id <;> rfl

theorem isRequiredParent_iff {g : Graph} {parent child : EntityId} :
    g.IsRequiredParent parent child ↔
      ∃ links c, g.links? child = some links ∧ (c, parent) ∈ links ∧ c.isRequired = true := by
  constructor
  · rintro ⟨n, c, hn, hmem, hreq⟩
    exact ⟨n.parents, c, links?_eq_some_iff.2 ⟨n, hn, rfl⟩, hmem, hreq⟩
  · rintro ⟨links, c, hlinks, hmem, hreq⟩
    obtain ⟨n, hn, rfl⟩ := links?_eq_some_iff.1 hlinks
    exact ⟨n, c, hn, hmem, hreq⟩

/-- Two graphs have the same entities and links, and give the same ids next. -/
structure SameLinks (g g' : Graph) : Prop where
  links : ∀ id, g'.links? id = g.links? id
  counters : ∀ kind, g'.nextIndex kind = g.nextIndex kind

theorem SameLinks.refl (g : Graph) : g.SameLinks g := ⟨fun _ => rfl, fun _ => rfl⟩

theorem SameLinks.trans {g g₁ g₂ : Graph} (h : g.SameLinks g₁) (h' : g₁.SameLinks g₂) : g.SameLinks g₂ :=
  ⟨fun id => (h'.links id).trans (h.links id), fun kind => (h'.counters kind).trans (h.counters kind)⟩

theorem SameLinks.contains {g g' : Graph} (h : g.SameLinks g') (id : EntityId) : g'.contains id = g.contains id := by
  rw [← links?_isSome, ← links?_isSome, h.links]

theorem SameLinks.parentsOf {g g' : Graph} (h : g.SameLinks g') (x : EntityId) : g'.parentsOf x = g.parentsOf x := by
  rw [parentsOf_eq, parentsOf_eq, h.links]

variable {g g' : Graph} {id : EntityId} {links : List Link} {u : Unit}

theorem sameLinks_of_modify {f : Node → Node} {keys : KeyTable} (hf : ∀ n, (f n).parents = n.parents) :
    g.SameLinks { g with nodes := g.nodes.modify id f, keys := keys } where
  links x := by
    simp only [links?, SortedMap.get?_modify]
    split
    · next h =>
      subst h
      cases g.nodes.get? x with
      | none => rfl
      | some n => simp [hf]
    · rfl
  counters _ := rfl

/-! ## Edits that leave the links alone -/

/-- The graph when one entity has followed a rename. -/
def renameAt (g : Graph) (old new : NaturalKey) (id : EntityId) : Graph :=
  { g with
    nodes := g.nodes.modify id fun n => { n with data := n.data.rename old new }
    keys := (g.keys.dropReferrer old id).addReferrer new id }

theorem renameAt_sameLinks {old new : NaturalKey} : g.SameLinks (g.renameAt old new id) :=
  sameLinks_of_modify (f := fun n => { n with data := n.data.rename old new }) fun _ => rfl

theorem followRename_cons_ok_iff {old new : NaturalKey} {rest : List EntityId} :
    followRename old new (id :: rest) g = .ok u g' ↔
      g.contains id = true ∧ followRename old new rest (g.renameAt old new id) = .ok u g' := by
  rw [followRename, get_bind]
  simp only [ofExcept_bind_ok_iff, node_ok_iff, contains_iff]
  exact ⟨fun ⟨n, hn, h⟩ => ⟨⟨n, hn⟩, h⟩, fun ⟨⟨n, hn⟩, h⟩ => ⟨n, hn, h⟩⟩

theorem followRename_ok {old new : NaturalKey} : ∀ {ids : List EntityId} {g : Graph},
    followRename old new ids g = .ok u g' → g.SameLinks g'
  | [], g, h => by
    obtain ⟨-, rfl⟩ := EStateM.Result.ok.inj h
    exact .refl g
  | _ :: _, _, h => renameAt_sameLinks.trans (followRename_ok (followRename_cons_ok_iff.1 h).2)

theorem setExternal_ok {mapping : String} {value : Json} (h : setExternal mapping id value g = .ok u g') :
    g.SameLinks g' := by
  rw [setExternal, get_bind] at h
  obtain ⟨n, -, h⟩ := ofExcept_bind_ok_iff.1 h
  obtain ⟨-, rfl⟩ := EStateM.Result.ok.inj h
  exact sameLinks_of_modify fun _ => rfl

/-- **What changing data comes to**: the kind stays.  Under the same key the data alone changes, and under another one the
entity takes that over and the soft references follow. -/
theorem modify_ok_cases {change : Entity → Entity} (h : modify id change g = .ok u g') :
    ∃ old, g.entity id = .ok old ∧ (change old).kind = old.kind ∧
      (g.schema.naturalKey? (change old) = g.schema.naturalKey? old ∧ g' = g.replaceData id old (change old) ∨
        g.schema.naturalKey? (change old) ≠ g.schema.naturalKey? old ∧
          ∃ rekeyed, rekeyed = (g.replaceData id old (change old)).rekey id (g.schema.naturalKey? old)
              (g.schema.naturalKey? (change old)) ∧
            (g' = rekeyed ∨ ∃ a b, followRename a b (rekeyed.referrers a) rekeyed = .ok u g')) := by
  rw [modify, get_bind] at h
  obtain ⟨old, hold, h⟩ := ofExcept_bind_ok_iff.1 h
  split at h
  · cases h
  next hkind =>
  refine ⟨old, hold, not_not.1 hkind, ?_⟩
  dsimp only at h
  split at h
  · next hkey =>
    obtain ⟨-, rfl⟩ := EStateM.Result.ok.inj h
    exact .inl ⟨hkey.symm, rfl⟩
  · next hkey =>
    refine .inr ⟨fun heq => hkey heq.symm, _, rfl, ?_⟩
    obtain ⟨_, -, h⟩ := ofExcept_bind_ok_iff.1 h
    obtain ⟨_, g₁, hset, h⟩ := bind_ok_iff.1 h
    obtain ⟨-, rfl⟩ := EStateM.Result.ok.inj hset
    generalize g.schema.naturalKey? old = a at h ⊢
    generalize g.schema.naturalKey? (change old) = b at h ⊢
    cases a with
    | none => exact .inl (EStateM.Result.ok.inj h).2.symm
    | some a =>
      cases b with
      | none => exact .inl (EStateM.Result.ok.inj h).2.symm
      | some b => exact .inr ⟨a, b, h⟩

theorem modify_ok {change : Entity → Entity} (h : modify id change g = .ok u g') :
    g.contains id = true ∧ g.SameLinks g' := by
  obtain ⟨old, hold, -, hcases⟩ := modify_ok_cases h
  have hreplace : g.SameLinks (g.replaceData id old (change old)) :=
    sameLinks_of_modify (f := fun n => { n with data := change old }) fun _ => rfl
  have hrekey : g.SameLinks ((g.replaceData id old (change old)).rekey id (g.schema.naturalKey? old)
      (g.schema.naturalKey? (change old))) := ⟨hreplace.links, hreplace.counters⟩
  refine ⟨contains_of_entity hold, ?_⟩
  rcases hcases with ⟨-, rfl⟩ | ⟨-, _, rfl, rfl | ⟨a, b, hfollow⟩⟩
  · exact hreplace
  · exact hrekey
  · exact hrekey.trans (followRename_ok hfollow)

/-! ## Adding and moving -/

/-- **An addition that succeeds has passed its checks**, and then the entity is inserted. -/
theorem add_ok_iff_checks {data : Entity} : add data links g = .ok id g' ↔
    g.checkLinks data.kind links none = .ok () ∧ g.checkKey (g.schema.naturalKey? data) none = .ok () ∧
      g.checkIndex data.kind = .ok () ∧ (g', id) = g.insertEntity data links := by
  rw [add, get_bind]
  simp only [ofExcept_bind_ok_iff]
  constructor
  · rintro ⟨_, hlinks, _, hkey, _, hindex, h⟩
    obtain ⟨rfl, rfl⟩ := EStateM.Result.ok.inj h
    exact ⟨hlinks, hkey, hindex, rfl⟩
  · rintro ⟨hlinks, hkey, hindex, heq⟩
    obtain ⟨rfl, rfl⟩ := Prod.mk.inj heq
    exact ⟨(), hlinks, (), hkey, (), hindex, rfl⟩

/-- **An addition is refused by one of its checks**, before anything is written. -/
theorem add_error_cases {data : Entity} {cause : StoreError} (h : add data links g = .error cause g') : g' = g ∧
    (g.checkLinks data.kind links none = .error cause ∨ g.checkKey (g.schema.naturalKey? data) none = .error cause ∨
      g.checkIndex data.kind = .error cause) := by
  rw [add, get_bind] at h
  rcases ofExcept_bind_error_iff.1 h with ⟨hlinks, hsame⟩ | ⟨_, -, h⟩
  · exact ⟨hsame, .inl hlinks⟩
  rcases ofExcept_bind_error_iff.1 h with ⟨hkey, hsame⟩ | ⟨_, -, h⟩
  · exact ⟨hsame, .inr (.inl hkey)⟩
  rcases ofExcept_bind_error_iff.1 h with ⟨hindex, hsame⟩ | ⟨_, -, h⟩
  · exact ⟨hsame, .inr (.inr hindex)⟩
  · cases h

/-- **A move that succeeds has passed its checks**, and then the parents are replaced. -/
theorem setParents_ok_iff_checks : setParents id links g = .ok u g' ↔
    (∃ n, g.nodes.get? id = some n) ∧ g.checkLinks id.kind links (some id) = .ok () ∧ g.checkAcyclic id links = .ok () ∧
      g' = { g with nodes := g.nodes.modify id fun n => { n with parents := inDeclarationOrder g.schema id.kind links } } := by
  rw [setParents, get_bind]
  simp only [ofExcept_bind_ok_iff, node_ok_iff]
  constructor
  · rintro ⟨n, hn, _, hlinks, _, hacyclic, h⟩
    exact ⟨⟨n, hn⟩, hlinks, hacyclic, (EStateM.Result.ok.inj h).2.symm⟩
  · rintro ⟨⟨n, hn⟩, hlinks, hacyclic, rfl⟩
    exact ⟨n, hn, (), hlinks, (), hacyclic, rfl⟩

/-- **A move is refused since the entity is missing or by one of its checks**, before anything is written. -/
theorem setParents_error_cases {cause : StoreError} (h : setParents id links g = .error cause g') : g' = g ∧
    (g.node id = .error cause ∨ g.checkLinks id.kind links (some id) = .error cause ∨
      g.checkAcyclic id links = .error cause) := by
  rw [setParents, get_bind] at h
  rcases ofExcept_bind_error_iff.1 h with ⟨hnode, hsame⟩ | ⟨_, -, h⟩
  · exact ⟨hsame, .inl hnode⟩
  rcases ofExcept_bind_error_iff.1 h with ⟨hlinks, hsame⟩ | ⟨_, -, h⟩
  · exact ⟨hsame, .inr (.inl hlinks)⟩
  rcases ofExcept_bind_error_iff.1 h with ⟨hacyclic, hsame⟩ | ⟨_, -, h⟩
  · exact ⟨hsame, .inr (.inr hacyclic)⟩
  · cases h

theorem checkEachLink_ok {kind : Kind} {moving : Option EntityId} : ∀ {seen : List Connection} {links : List Link},
    g.checkEachLink kind moving seen links = .ok u → ∀ l ∈ links, g.contains l.2 = true
  | _, [], _ => fun _ hl => by cases hl
  | seen, (c, parent) :: rest, h => by
    obtain ⟨_, hlink, hrest⟩ := except_bind_ok_iff.1 h
    refine List.forall_mem_cons.2 ⟨?_, checkEachLink_ok hrest⟩
    rw [checkLink] at hlink
    dsimp only at hlink
    split at hlink
    · cases hlink
    split at hlink
    · cases hlink
    obtain ⟨data, hdata, -⟩ := except_bind_ok_iff.1 hlink
    exact contains_of_entity hdata

theorem checkLinks_ok {kind : Kind} {moving : Option EntityId} (h : g.checkLinks kind links moving = .ok u) :
    ∀ l ∈ links, g.contains l.2 = true := by
  rw [checkLinks] at h
  split at h
  · cases h
  obtain ⟨_, heach, -⟩ := except_bind_ok_iff.1 h
  exact checkEachLink_ok heach

theorem mem_inDeclarationOrder {s : Schema} {kind : Kind} {l : Link} :
    l ∈ inDeclarationOrder s kind links ↔ l ∈ links := mem_sortBy

/-- **An entity gets other parents**, all of them there, and nothing else changes. -/
theorem setParents_ok (h : setParents id links g = .ok u g') :
    g.contains id = true ∧ (∀ l ∈ links, g.contains l.2 = true) ∧
      (∀ x, g'.links? x = if x = id then some (inDeclarationOrder g.schema id.kind links) else g.links? x) ∧
      ∀ kind, g'.nextIndex kind = g.nextIndex kind := by
  obtain ⟨⟨n, hn⟩, hlinks, -, rfl⟩ := setParents_ok_iff_checks.1 h
  refine ⟨contains_iff.2 ⟨n, hn⟩, checkLinks_ok hlinks, fun x => ?_, fun _ => rfl⟩
  simp only [links?, SortedMap.get?_modify, hn, Option.map_some]
  split <;> rfl

theorem checkIndex_ok_iff {kind : Kind} :
    g.checkIndex kind = .ok u ↔ (g.nextIndex kind).toNat + 1 < UInt32.size := by
  rw [checkIndex]
  split <;> simp [*]

theorem checkIndex_error_iff {kind : Kind} {cause : StoreError} : g.checkIndex kind = .error cause ↔
    UInt32.size ≤ (g.nextIndex kind).toNat + 1 ∧ cause = .indexOverflow kind := by
  rw [checkIndex]
  split
  · next h => simp [Nat.not_le_of_lt h]
  · next h => simp [Nat.le_of_not_lt h, eq_comm]

theorem insertEntity_of_add {data : Entity} (h : add data links g = .ok id g') :
    (∀ l ∈ links, g.contains l.2 = true) ∧ (g.nextIndex data.kind).toNat + 1 < UInt32.size ∧
      (g', id) = g.insertEntity data links := by
  obtain ⟨hlinks, -, hindex, hinsert⟩ := add_ok_iff_checks.1 h
  exact ⟨checkLinks_ok hlinks, checkIndex_ok_iff.1 hindex, hinsert⟩

/-- **A new entity gets the next id of its kind** and parents that are there, and nothing else changes. -/
theorem add_ok {data : Entity} (h : add data links g = .ok id g') :
    id = ⟨data.kind, g.nextIndex data.kind⟩ ∧ (∀ l ∈ links, g.contains l.2 = true) ∧
      (∀ x, g'.links? x = if x = id then some (inDeclarationOrder g.schema data.kind links) else g.links? x) ∧
      ∀ kind, g'.nextIndex kind = if kind = data.kind then g.nextIndex kind + 1 else g.nextIndex kind := by
  obtain ⟨hlinks, -, heq⟩ := insertEntity_of_add h
  obtain ⟨rfl, rfl⟩ := Prod.mk.inj heq
  refine ⟨rfl, hlinks, fun x => ?_, fun kind => ?_⟩
  · simp only [links?, SortedMap.get?_insert]
    split <;> rfl
  · simp only [nextIndex, SortedMap.get?_insert]
    split
    · next hk => rw [hk, Option.getD_some]
    · rfl

theorem contains_add {data : Entity} (h : add data links g = .ok id g') {x : EntityId} :
    g'.contains x = true ↔ x = id ∨ g.contains x = true := by
  rw [← links?_isSome, (add_ok h).2.2.1, ← links?_isSome]
  split <;> simp [*]

theorem contains_of_add {data : Entity} (h : add data links g = .ok id g') : g'.contains id = true :=
  (contains_add h).2 (.inl rfl)

theorem contains_setParents (h : setParents id links g = .ok u g') (x : EntityId) : g'.contains x = g.contains x := by
  obtain ⟨hthere, -, hlinks, -⟩ := setParents_ok h
  rw [← links?_isSome, hlinks]
  split
  · next heq => rw [heq, hthere]; rfl
  · rw [links?_isSome]

theorem contains_of_setParents (h : setParents id links g = .ok u g') : g'.contains id = true :=
  (contains_setParents h id).trans (setParents_ok h).1

/-! ## Removing -/

/-- Links of which at most those to `gone` are taken away. -/
def Thinned (gone : List EntityId) (links links' : List Link) : Prop :=
  (∀ l ∈ links', l ∈ links) ∧ ∀ l ∈ links, l.2 ∉ gone → l ∈ links'

/-- **A graph without some entities**: the others stay, with the links to what stays. -/
structure Cuts (g g' : Graph) (gone : List EntityId) : Prop where
  taken : ∀ {x}, x ∈ gone → g'.links? x = none
  absent : ∀ {x}, g.links? x = none → g'.links? x = none
  kept : ∀ {x links}, x ∉ gone → g.links? x = some links → ∃ links', g'.links? x = some links' ∧ Thinned gone links links'
  counters : ∀ kind, g'.nextIndex kind = g.nextIndex kind

theorem Cuts.refl (g : Graph) : g.Cuts g [] where
  taken h := by cases h
  absent h := h
  kept {_ links} _ h := ⟨links, h, fun _ hl => hl, fun _ hl _ => hl⟩
  counters _ := rfl

theorem Cuts.trans {g g₁ g₂ : Graph} {l l' : List EntityId} (h : g.Cuts g₁ l) (h' : g₁.Cuts g₂ l') :
    g.Cuts g₂ (l ++ l') where
  taken hx := by
    rcases List.mem_append.1 hx with hx | hx
    · exact h'.absent (h.taken hx)
    · exact h'.taken hx
  absent hx := h'.absent (h.absent hx)
  kept {x links} hx hlinks := by
    rw [List.mem_append, not_or] at hx
    obtain ⟨links₁, hlinks₁, hsub₁, hkeep₁⟩ := h.kept hx.1 hlinks
    obtain ⟨links₂, hlinks₂, hsub₂, hkeep₂⟩ := h'.kept hx.2 hlinks₁
    refine ⟨links₂, hlinks₂, fun l hl => hsub₁ l (hsub₂ l hl), fun l hl hnot => ?_⟩
    rw [List.mem_append, not_or] at hnot
    exact hkeep₂ l (hkeep₁ l hl hnot.1) hnot.2
  counters kind := (h'.counters kind).trans (h.counters kind)

theorem Cuts.contains_iff {gone : List EntityId} (h : g.Cuts g' gone) {x : EntityId} :
    g'.contains x = true ↔ g.contains x = true ∧ x ∉ gone := by
  rw [contains_iff_links, contains_iff_links]
  constructor
  · rintro ⟨links', hx⟩
    refine ⟨?_, fun hgone => by simp [h.taken hgone] at hx⟩
    by_contra habsent
    simp [h.absent (Option.eq_none_iff_forall_ne_some.2 fun links hlinks => habsent ⟨links, hlinks⟩)] at hx
  · rintro ⟨⟨links, hlinks⟩, hnot⟩
    obtain ⟨links', hlinks', -⟩ := h.kept hnot hlinks
    exact ⟨links', hlinks'⟩

theorem cuts_dropEntity (g : Graph) (id : EntityId) : g.Cuts (g.dropEntity id) [id] := by
  cases hid : g.nodes.get? id with
  | none =>
    have hsame : g.dropEntity id = g := by simp only [dropEntity, hid]
    rw [hsame]
    refine ⟨fun {x} hx => ?_, fun hx => hx, fun {x links} _ h => ⟨links, h, fun _ hl => hl, fun _ hl _ => hl⟩, fun _ => rfl⟩
    rw [List.mem_singleton.1 hx, links?, hid, Option.map_none]
  | some n =>
    have hlinks : ∀ x, (g.dropEntity id).links? x =
        if x = id then none else (g.links? x).map (·.filter (·.2 ≠ id)) := fun x => by
      simp only [dropEntity, hid, links?, SortedMap.get?_map, SortedMap.get?_erase]
      split
      · rfl
      · cases g.nodes.get? x <;> rfl
    refine ⟨fun {x} hx => ?_, fun {x} hx => ?_, fun {x links} hx h => ?_, fun kind => ?_⟩
    · rw [hlinks, if_pos (List.mem_singleton.1 hx)]
    · rw [hlinks, hx, Option.map_none, ite_self]
    · rw [List.mem_singleton] at hx
      rw [hlinks, if_neg hx, h]
      refine ⟨_, rfl, fun l hl => (List.mem_filter.1 hl).1, fun l hl hne => List.mem_filter.2 ⟨hl, ?_⟩⟩
      simpa using hne
    · simp only [dropEntity, hid, nextIndex]

theorem cuts_foldl_dropEntity : ∀ (gone : List EntityId) (g : Graph), g.Cuts (gone.foldl dropEntity g) gone
  | [], g => .refl g
  | id :: gone, g => (cuts_dropEntity g id).trans (cuts_foldl_dropEntity gone (g.dropEntity id))

/-- **Removing an entity takes away what requires it.** -/
theorem remove_ok {gone : List EntityId} (h : remove id g = .ok gone g') :
    gone = g.requiredClosure id ∧ g.Cuts g' gone := by
  rw [remove, get_bind] at h
  obtain ⟨n, -, h⟩ := ofExcept_bind_ok_iff.1 h
  obtain ⟨_, g₁, hset, h⟩ := bind_ok_iff.1 h
  obtain ⟨-, rfl⟩ := EStateM.Result.ok.inj hset
  obtain ⟨rfl, rfl⟩ := EStateM.Result.ok.inj h
  exact ⟨rfl, cuts_foldl_dropEntity _ _⟩

/-! ## Indices -/

/-- **Every id is below the counter of its kind**, so the next one is new.  This holds of whatever a session, a document or
a pass leaves behind (`Builder.Reachable.counted`, `Document.build_counted`, `reconcile_counted`). -/
def Counted (g : Graph) : Prop := ∀ id, g.contains id = true → id.index < g.nextIndex id.kind

instance : Decidable g.Counted :=
  decidable_of_iff (∀ id ∈ g.ids, id.index < g.nextIndex id.kind)
    ⟨fun h id hid => h id (mem_ids_iff.2 hid), fun h id hid => h id (mem_ids_iff.1 hid)⟩

theorem Counted.fresh (h : g.Counted) (kind : Kind) : g.contains ⟨kind, g.nextIndex kind⟩ = false :=
  Bool.eq_false_iff.2 fun hin => UInt32.lt_irrefl _ (h _ hin)

theorem Counted.of_less (h : g.Counted) (hless : ∀ {x}, g'.contains x = true → g.contains x = true)
    (hcounters : ∀ kind, g'.nextIndex kind = g.nextIndex kind) : g'.Counted := fun x hx => by
  rw [hcounters]
  exact h x (hless hx)

theorem toNat_nextIndex {kind : Kind} (h : (g.nextIndex kind).toNat + 1 < UInt32.size) :
    (g.nextIndex kind + 1).toNat = (g.nextIndex kind).toNat + 1 := by
  rw [UInt32.toNat_add, UInt32.toNat_one]
  exact Nat.mod_eq_of_lt h

theorem Counted.of_new (h : g.Counted) {kind : Kind} (hindex : (g.nextIndex kind).toNat + 1 < UInt32.size)
    (hnew : ∀ {x}, g'.contains x = true → x = ⟨kind, g.nextIndex kind⟩ ∨ g.contains x = true)
    (hcounters : ∀ k, g'.nextIndex k = if k = kind then g.nextIndex k + 1 else g.nextIndex k) : g'.Counted := fun x hx => by
  have hnext := toNat_nextIndex hindex
  rw [hcounters, UInt32.lt_iff_toNat_lt]
  rcases hnew hx with rfl | hthere
  · rw [if_pos rfl, hnext]
    exact Nat.lt_succ_self _
  · have habove := UInt32.lt_iff_toNat_lt.1 (h x hthere)
    split
    · next hk => rw [hk] at habove ⊢; omega
    · exact habove

theorem Counted.add (h : g.Counted) {data : Entity} (hadd : add data links g = .ok id g') : g'.Counted := by
  obtain ⟨hid, -, -, hcounters⟩ := add_ok hadd
  exact h.of_new (insertEntity_of_add hadd).2.1 (fun hx => hid ▸ (contains_add hadd).1 hx) hcounters

end Graph
end Reconciliation
