import Reconciliation.Proofs.Upkeep
/-!
# What edits do to what is attached

Attaching writes to one entity alone, under one mapping name (`setExternal_externals`).  Nothing is attached to a new
entity (`add_externals`).  No other edit touches what is attached to whatever stays (`KeepsExternals`).
-/
namespace Reconciliation
namespace Graph

/-- What is attached to an entity, if it is there. -/
def externals? (g : Graph) (id : EntityId) : Option (SortedMap String Json) := (g.nodes.get? id).map (·.externals)

variable {g g₁ g' : Graph} {id : EntityId} {links : List Link} {u : Unit}

theorem externalsOf_eq (g : Graph) (id : EntityId) :
    g.externalsOf id = ((g.externals? id).map SortedMap.toList).getD [] := by
  rw [externalsOf, externals?]
  cases g.nodes.get? id <;> rfl

theorem external?_eq (g : Graph) (mapping : String) (id : EntityId) :
    g.external? mapping id = (g.externals? id).bind (·.get? mapping) := by
  rw [external?, externals?]
  cases g.nodes.get? id <;> rfl

theorem externals?_of_not_contains (h : g.contains id = false) : g.externals? id = none := by
  rw [externals?, SortedMap.contains_eq_false_iff.1 h, Option.map_none]

theorem exists_externals (h : g.contains id = true) : ∃ l, g.externals? id = some l := by
  obtain ⟨n, hn⟩ := contains_iff.1 h
  exact ⟨n.externals, by rw [externals?, hn, Option.map_some]⟩

/-- What is left has attached what it had. -/
def KeepsExternals (g g' : Graph) : Prop := ∀ x l, g'.externals? x = some l → g.externals? x = some l

theorem KeepsExternals.refl (g : Graph) : g.KeepsExternals g := fun _ _ h => h

theorem KeepsExternals.trans (h : g.KeepsExternals g₁) (h' : g₁.KeepsExternals g') : g.KeepsExternals g' :=
  fun x l hl => h x l (h' x l hl)

theorem KeepsExternals.externals?_eq {x : EntityId} (h : g.KeepsExternals g') (hthere : g'.contains x = g.contains x) :
    g'.externals? x = g.externals? x := by
  cases hx : g.contains x with
  | true =>
    obtain ⟨l, hl⟩ := exists_externals (hthere.trans hx)
    rw [hl, h x l hl]
  | false => rw [externals?_of_not_contains hx, externals?_of_not_contains (hthere.trans hx)]

theorem KeepsExternals.externalsOf {x : EntityId} (h : g.KeepsExternals g') (hthere : g'.contains x = g.contains x) :
    g'.externalsOf x = g.externalsOf x := by
  rw [externalsOf_eq, externalsOf_eq, h.externals?_eq hthere]

theorem keepsExternals_of_modify {f : Node → Node} {keys : KeyTable} (hf : ∀ n, (f n).externals = n.externals) :
    g.KeepsExternals { g with nodes := g.nodes.modify id f, keys := keys } := by
  intro x l h
  simp only [externals?, SortedMap.get?_modify] at h ⊢
  split at h
  · next heq =>
    subst heq
    simpa [hf] using h
  · exact h

theorem setParents_keepsExternals (h : setParents id links g = .ok u g') : g.KeepsExternals g' := by
  obtain ⟨-, -, -, rfl⟩ := setParents_ok_iff_checks.1 h
  exact keepsExternals_of_modify fun _ => rfl

theorem followRename_keepsExternals {old new : NaturalKey} : ∀ {ids : List EntityId} {g : Graph},
    followRename old new ids g = .ok u g' → g.KeepsExternals g'
  | [], g, h => by
    obtain ⟨-, rfl⟩ := EStateM.Result.ok.inj h
    exact .refl g
  | id :: _, g, h => by
    have hat : g.KeepsExternals (g.renameAt old new id) := keepsExternals_of_modify fun _ => rfl
    exact hat.trans (followRename_keepsExternals (followRename_cons_ok_iff.1 h).2)

theorem modify_keepsExternals {change : Entity → Entity} (h : modify id change g = .ok u g') : g.KeepsExternals g' := by
  obtain ⟨old, -, hcases⟩ := modify_cases h
  have hreplace : g.KeepsExternals (g.replaceData id old (change old)) := keepsExternals_of_modify fun _ => rfl
  rcases hcases with ⟨-, rfl⟩ | ⟨-, rekeyed, heq, hends⟩
  · exact hreplace
  · have hrekeyed : g.KeepsExternals rekeyed := by
      rw [heq]
      exact hreplace
    rcases hends with rfl | ⟨a, b, hfollow⟩
    · exact hrekeyed
    · exact hrekeyed.trans (followRename_keepsExternals hfollow)

theorem add_externals {data : Entity} (h : add data links g = .ok id g') (x : EntityId) :
    g'.externals? x = if x = id then some .empty else g.externals? x := by
  obtain ⟨rfl, rfl⟩ := Prod.mk.inj (insertEntity_of_add h).2.2
  simp only [externals?, SortedMap.get?_insert]
  split <;> rfl

theorem contains_of_setExternal {mapping : String} {value : Json} (h : setExternal mapping id value g = .ok u g') :
    g.contains id = true := by
  rw [setExternal, get_bind] at h
  obtain ⟨n, hn, -⟩ := ofExcept_bind_ok_iff.1 h
  exact contains_iff.2 ⟨n, node_ok_iff.1 hn⟩

theorem setExternal_externals {mapping : String} {value : Json} (h : setExternal mapping id value g = .ok u g')
    (x : EntityId) : g'.externals? x =
      if x = id then (g.externals? id).map (·.insert mapping value) else g.externals? x := by
  rw [setExternal, get_bind] at h
  obtain ⟨n, -, h⟩ := ofExcept_bind_ok_iff.1 h
  obtain ⟨-, rfl⟩ := EStateM.Result.ok.inj h
  simp only [externals?, SortedMap.get?_modify]
  split
  · rw [Option.map_map, Option.map_map]
    rfl
  · rfl

end Graph
end Reconciliation
