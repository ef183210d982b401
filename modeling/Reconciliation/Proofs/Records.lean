import Reconciliation.Proofs.Edits
/-!
# What edits do to data

No edit changes the schema.  Attaching, moving and removing leave the data of what is left as it is (`KeepsData`).
Adding gives data to a new id alone (`add_data`).  Changing the data of an entity changes nothing else, as long as its
natural key stays (`modify_data`): only a new key makes others follow.
-/
namespace Reconciliation
namespace Graph

/-- The data of an entity, if it is there. -/
def data? (g : Graph) (id : EntityId) : Option Entity := (g.nodes.get? id).map (·.data)

variable {g g₁ g' : Graph} {id : EntityId} {links : List Link} {u : Unit}

theorem entity_eq (g : Graph) (id : EntityId) :
    g.entity id = match g.data? id with
      | some e => .ok e
      | none => .error (.notFound id) := by
  rw [entity, node, data?]
  cases g.nodes.get? id <;> rfl

theorem entity_ok_iff_data {e : Entity} : g.entity id = .ok e ↔ g.data? id = some e := by
  rw [entity_ok_iff, data?, Option.map_eq_some_iff]

theorem contains_of_data {e : Entity} (h : g.data? id = some e) : g.contains id = true :=
  contains_of_entity (entity_ok_iff_data.2 h)

/-- The schema stays, and what is left has the data that it had. -/
structure KeepsData (g g' : Graph) : Prop where
  schema : g'.schema = g.schema
  data : ∀ {x e}, g'.data? x = some e → g.data? x = some e

theorem KeepsData.refl (g : Graph) : g.KeepsData g := ⟨rfl, fun h => h⟩

theorem KeepsData.trans (h : g.KeepsData g₁) (h' : g₁.KeepsData g') : g.KeepsData g' :=
  ⟨h'.schema.trans h.schema, fun hx => h.data (h'.data hx)⟩

theorem KeepsData.less (h : g.KeepsData g') {x : EntityId} (hx : g'.contains x = true) : g.contains x = true := by
  obtain ⟨e, he⟩ := exists_entity hx
  exact contains_of_data (h.data (entity_ok_iff_data.1 he))

theorem keepsData_of_modify {f : Node → Node} (hf : ∀ n, (f n).data = n.data) :
    g.KeepsData { g with nodes := g.nodes.modify id f } where
  schema := rfl
  data {x e} h := by
    simp only [data?, SortedMap.get?_modify] at h ⊢
    split at h
    · next heq =>
      subst heq
      simpa [hf] using h
    · exact h

/-! ## Attaching, moving and removing -/

theorem setExternal_keeps {mapping : String} {value : Json} (h : setExternal mapping id value g = .ok u g') :
    g.KeepsData g' := by
  rw [setExternal, get_bind] at h
  obtain ⟨n, -, h⟩ := ofExcept_bind_ok_iff.1 h
  obtain ⟨-, rfl⟩ := EStateM.Result.ok.inj h
  exact keepsData_of_modify fun _ => rfl

theorem setExternal_total (mapping : String) (value : Json) (h : g.contains id = true) :
    ∃ g', setExternal mapping id value g = .ok () g' := by
  obtain ⟨n, hn⟩ := contains_iff.1 h
  simp only [setExternal, get_bind, node_ok_iff.2 hn]
  exact ⟨_, rfl⟩

theorem setParents_keeps (h : setParents id links g = .ok u g') : g.KeepsData g' := by
  obtain ⟨-, -, -, rfl⟩ := setParents_ok_iff_checks.1 h
  exact keepsData_of_modify fun _ => rfl

theorem dropEntity_keeps (g : Graph) (id : EntityId) : g.KeepsData (g.dropEntity id) := by
  rw [dropEntity]
  split
  · exact .refl g
  · refine ⟨rfl, fun {x e} h => ?_⟩
    simp only [data?, SortedMap.get?_map, SortedMap.get?_erase] at h ⊢
    split at h
    · cases h
    · rwa [Option.map_map] at h

theorem foldl_dropEntity_keeps : ∀ (gone : List EntityId) (g : Graph), g.KeepsData (gone.foldl dropEntity g)
  | [], g => .refl g
  | id :: gone, g => (dropEntity_keeps g id).trans (foldl_dropEntity_keeps gone (g.dropEntity id))

theorem remove_keeps {gone : List EntityId} (h : remove id g = .ok gone g') : g.KeepsData g' := by
  rw [remove, get_bind] at h
  obtain ⟨n, -, h⟩ := ofExcept_bind_ok_iff.1 h
  obtain ⟨_, g₁, hset, h⟩ := bind_ok_iff.1 h
  obtain ⟨-, rfl⟩ := EStateM.Result.ok.inj hset
  obtain ⟨-, rfl⟩ := EStateM.Result.ok.inj h
  exact foldl_dropEntity_keeps _ _

theorem remove_total (h : g.contains id = true) : ∃ gone g', remove id g = .ok gone g' := by
  obtain ⟨n, hn⟩ := contains_iff.1 h
  simp only [remove, get_bind, node_ok_iff.2 hn]
  exact ⟨_, _, rfl⟩

/-! ## Adding and changing -/

theorem add_data {data : Entity} (h : add data links g = .ok id g') :
    g'.schema = g.schema ∧ ∀ x, g'.data? x = if x = id then some data else g.data? x := by
  obtain ⟨rfl, rfl⟩ := Prod.mk.inj (insertEntity_of_add h).2.2
  refine ⟨rfl, fun x => ?_⟩
  simp only [data?, SortedMap.get?_insert]
  split <;> rfl

theorem followRename_schema {old new : NaturalKey} : ∀ {ids : List EntityId} {g : Graph},
    followRename old new ids g = .ok u g' → g'.schema = g.schema
  | [], _, h => by
    obtain ⟨-, rfl⟩ := EStateM.Result.ok.inj h
    rfl
  | _ :: _, _, h => (followRename_schema (followRename_cons_ok_iff.1 h).2).trans rfl

theorem modify_cases {change : Entity → Entity} (h : modify id change g = .ok u g') :
    ∃ old, g.data? id = some old ∧
      (g.schema.naturalKey? (change old) = g.schema.naturalKey? old ∧ g' = g.replaceData id old (change old) ∨
        g.schema.naturalKey? (change old) ≠ g.schema.naturalKey? old ∧
          ∃ rekeyed, rekeyed = (g.replaceData id old (change old)).rekey id (g.schema.naturalKey? old)
              (g.schema.naturalKey? (change old)) ∧
            (g' = rekeyed ∨ ∃ a b, followRename a b (rekeyed.referrers a) rekeyed = .ok u g')) := by
  obtain ⟨old, hold, -, hcases⟩ := modify_ok_cases h
  exact ⟨old, entity_ok_iff_data.1 hold, hcases⟩

theorem modify_schema {change : Entity → Entity} (h : modify id change g = .ok u g') : g'.schema = g.schema := by
  obtain ⟨old, -, ⟨-, rfl⟩ | ⟨-, rekeyed, rfl, rfl | ⟨a, b, hfollow⟩⟩⟩ := modify_cases h
  · rfl
  · rfl
  · exact (followRename_schema hfollow).trans rfl

theorem modify_data {change : Entity → Entity} {old : Entity} (hold : g.data? id = some old)
    (hkey : g.schema.naturalKey? (change old) = g.schema.naturalKey? old) (h : modify id change g = .ok u g') (x : EntityId) :
    g'.data? x = if x = id then some (change old) else g.data? x := by
  obtain ⟨old', hold', ⟨-, rfl⟩ | ⟨hne, -⟩⟩ := modify_cases h
  · obtain rfl := Option.some.inj (hold.symm.trans hold')
    obtain ⟨n, hn, -⟩ := Option.map_eq_some_iff.1 hold
    simp only [data?, replaceData, SortedMap.get?_modify, hn]
    split <;> rfl
  · obtain rfl := Option.some.inj (hold.symm.trans hold')
    exact absurd hkey hne

theorem modify_of_key_eq {change : Entity → Entity} {old : Entity} (hold : g.data? id = some old)
    (hkind : (change old).kind = old.kind) (hkey : g.schema.naturalKey? (change old) = g.schema.naturalKey? old) :
    modify id change g = .ok () (g.replaceData id old (change old)) := by
  rw [modify, get_bind, bind_of_ok (ofExcept_ok_iff.2 ⟨entity_ok_iff_data.2 hold, rfl⟩)]
  simp only [hkind, hkey, ne_eq, not_true_eq_false, if_false, if_true]
  rfl

end Graph
end Reconciliation
