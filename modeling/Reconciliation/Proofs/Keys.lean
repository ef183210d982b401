import Reconciliation.Proofs.Consistent
/-!
# Renames and natural keys

A natural key is made of what the key attributes say (`Schema.naturalKey?_eq_some`).  A rename changes nothing in what
does not refer to the old key (`Value.rename_eq_self`).  So when the key attributes of an entity hold no soft references
(`PlainKey`), its natural key stays whatever is renamed.
-/
namespace Reconciliation

/-! ## Key attributes -/

/-- The attributes that form the natural key of a kind. -/
def Schema.keyAttributes (s : Schema) (kind : Kind) : List String := ((s.kind? kind).map (·.keyAttributes)).getD []

/-- What an attribute says: null when it is not set. -/
def Entity.valueOf (e : Entity) (name : String) : Value := (e.get? name).getD .null

namespace Schema

variable {s : Schema} {e : Entity}

theorem naturalKey?_eq_none (h : s.keyAttributes e.kind = []) : s.naturalKey? e = none := by
  rw [keyAttributes] at h
  rw [naturalKey?]
  cases hk : s.kind? e.kind with
  | none => rfl
  | some k =>
    rw [hk, Option.map_some, Option.getD_some] at h
    simp [h]

theorem naturalKey?_eq_some (h : s.keyAttributes e.kind ≠ []) : s.naturalKey? e =
    some ⟨e.kind, "/".intercalate ((s.keyAttributes e.kind).map fun a => (e.valueOf a).render)⟩ := by
  rw [keyAttributes] at h ⊢
  rw [naturalKey?]
  cases hk : s.kind? e.kind with
  | none => exact absurd (by rw [hk]; rfl) h
  | some k =>
    rw [hk, Option.map_some, Option.getD_some] at h
    rw [Option.map_some, Option.getD_some]
    have hkeyed : ¬ k.keyAttributes.isEmpty = true := by simpa using h
    show (if k.keyAttributes.isEmpty = true then none else some _) = _
    rw [if_neg hkeyed]
    rfl

end Schema

/-! ## Renaming -/

namespace Value

variable {old new : NaturalKey}

mutual
theorem rename_eq_self : ∀ {v : Value}, old ∉ v.refs → v.rename old new = v
  | .ref key, h => by
    rw [rename, if_neg fun heq => h (by rw [refs, heq]; exact List.mem_singleton_self old)]
  | .list items, h => by
    rw [refs] at h
    rw [rename, renameAll_eq_self h]
  | .null, _ => rfl
  | .bool _, _ => rfl
  | .int _, _ => rfl
  | .text _, _ => rfl
theorem renameAll_eq_self : ∀ {l : List Value}, old ∉ refsAll l → renameAll old new l = l
  | [], _ => rfl
  | v :: vs, h => by
    rw [refsAll, List.mem_append, not_or] at h
    rw [renameAll, rename_eq_self h.1, renameAll_eq_self h.2]
end

mutual
theorem rename_self (key : NaturalKey) : ∀ v : Value, v.rename key key = v
  | .ref k => by
    rw [rename]
    split
    · next heq => rw [heq]
    · rfl
  | .list items => by rw [rename, renameAll_self key items]
  | .null => rfl
  | .bool _ => rfl
  | .int _ => rfl
  | .text _ => rfl
theorem renameAll_self (key : NaturalKey) : ∀ l : List Value, renameAll key key l = l
  | [] => rfl
  | v :: vs => by rw [renameAll, rename_self key v, renameAll_self key vs]
end

end Value

namespace Entity

variable {s : Schema} {e : Entity} {old new : NaturalKey}

/-- No key attribute of an entity holds a soft reference. -/
def PlainKey (s : Schema) (e : Entity) : Prop :=
  ∀ d ∈ s.kind? e.kind, ∀ a ∈ d.keyAttributes, ∀ v ∈ e.get? a, v.refs = []

instance (s : Schema) (e : Entity) : Decidable (e.PlainKey s) := by
  unfold PlainKey
  infer_instance

theorem get?_rename (e : Entity) (old new : NaturalKey) (a : String) :
    (e.rename old new).get? a = (e.get? a).map (Value.rename old new) := SortedMap.get?_map _ _ _

theorem rename_eq_self (h : old ∉ e.refs) : e.rename old new = e := by
  have hvalues : e.attributes.map (fun _ v => v.rename old new) = e.attributes := SortedMap.ext fun a => by
    rw [SortedMap.get?_map]
    cases hv : e.attributes.get? a with
    | none => rfl
    | some v =>
      have hnot : old ∉ v.refs := fun hmem => h (List.mem_flatMap.2
        ⟨v, List.mem_map.2 ⟨(a, v), SortedMap.get?_eq_some_iff.1 hv, rfl⟩, hmem⟩)
      rw [Option.map_some, Value.rename_eq_self hnot]
  rw [rename, hvalues]

theorem rename_self (e : Entity) (key : NaturalKey) : e.rename key key = e := by
  have hvalues : e.attributes.map (fun _ v => v.rename key key) = e.attributes := SortedMap.ext fun a => by
    simp only [SortedMap.get?_map, Value.rename_self, Option.map_id']
  rw [rename, hvalues]

theorem PlainKey.get?_rename (h : e.PlainKey s) {d : KindDef} {a : String} (hd : s.kind? e.kind = some d)
    (ha : a ∈ d.keyAttributes) : (e.rename old new).get? a = e.get? a := by
  rw [Entity.get?_rename]
  cases hv : e.get? a with
  | none => rfl
  | some v =>
    have hnone : old ∉ v.refs := by
      rw [h d hd a ha v hv]
      exact List.not_mem_nil
    rw [Option.map_some, Value.rename_eq_self hnone]

theorem PlainKey.rename (h : e.PlainKey s) : (e.rename old new).PlainKey s := fun d hd a ha v hv =>
  h d hd a ha v ((h.get?_rename hd ha).symm.trans hv)

theorem PlainKey.of_rename (h : (e.rename old new).PlainKey s) : e.PlainKey s := fun d hd a ha v hv => by
  have hrefs : (v.rename old new).refs = [] := h d hd a ha _ ((Entity.get?_rename ..).trans (congrArg _ hv))
  rw [Value.refs_rename] at hrefs
  exact List.map_eq_nil_iff.1 hrefs

theorem PlainKey.naturalKey?_rename (h : e.PlainKey s) : s.naturalKey? (e.rename old new) = s.naturalKey? e := by
  have hkind : (e.rename old new).kind = e.kind := rfl
  simp only [Schema.naturalKey?, hkind]
  cases hd : s.kind? e.kind with
  | none => rfl
  | some d =>
    have htexts : (d.keyAttributes.map fun a => (((e.rename old new).get? a).getD .null).render) =
        d.keyAttributes.map fun a => ((e.get? a).getD .null).render :=
      List.map_congr_left fun a ha => by rw [h.get?_rename hd ha]
    simp only [htexts]

end Entity

namespace Graph

/-- **No natural key is made of soft references.** -/
def PlainKeys (g : Graph) : Prop := ∀ id e, g.entity id = .ok e → e.PlainKey g.schema

theorem plainKeys_iff {g : Graph} : g.PlainKeys ↔ ∀ b ∈ g.nodes.toList, b.2.data.PlainKey g.schema := by
  constructor
  · exact fun h b hb => h b.1 _ (entity_ok_iff.2 ⟨b.2, SortedMap.get?_eq_some_iff.2 hb, rfl⟩)
  · intro h id e he
    obtain ⟨n, hn, rfl⟩ := entity_ok_iff.1 he
    exact h (id, n) (SortedMap.get?_eq_some_iff.1 hn)

end Graph
end Reconciliation
