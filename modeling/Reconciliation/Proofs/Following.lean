import Reconciliation.Proofs.References
import Reconciliation.Proofs.Upkeep
/-!
# Following a rename

When the natural key of an entity changes, every soft reference at the old key follows.  The store asks its look-up of
referrers whom that concerns, and rewrites one after the other (`Graph.renameAt`).  Each of them has to be there
(`Graph.Referred`); then nothing is refused any more, and when the look-up is right, every entity has its data with the
old key renamed to the new one, and the look-up is right again (`followRename_renames`).

So a change of data comes to this (`Graph.Changes`): the entity has its new data, references have followed, links are as
they were, and the natural key that the entity was given leads to it.  The natural keys of those that followed are not
looked at: where a reference stands in a natural key, that key changes behind the back of the look-up.
-/
namespace Reconciliation

open Relation

/-- Data that has followed some renames. -/
def Entity.Follows : Entity → Entity → Prop := ReflTransGen fun e d => ∃ old new, d = e.rename old new

/-- Data whose references follow a natural key, if there is one before and after. -/
def Entity.followKey (e : Entity) : Option NaturalKey → Option NaturalKey → Entity
  | some old, some new => e.rename old new
  | _, _ => e

theorem Entity.followKey_self (e : Entity) (key : Option NaturalKey) : e.followKey key key = e := by
  cases key with
  | none => rfl
  | some key => exact e.rename_self key

theorem Entity.followKey_kind (e : Entity) (old new : Option NaturalKey) : (e.followKey old new).kind = e.kind := by
  cases old with
  | none => rfl
  | some old => cases new <;> rfl

theorem Entity.PlainKey.naturalKey?_followKey {s : Schema} {e : Entity} {old new : Option NaturalKey}
    (h : (e.followKey old new).PlainKey s) : s.naturalKey? (e.followKey old new) = s.naturalKey? e := by
  cases old with
  | none => rfl
  | some old =>
    cases new with
    | none => rfl
    | some new => exact (Entity.PlainKey.of_rename h).naturalKey?_rename

namespace Graph

variable {g g' : Graph} {id x : EntityId} {e d : Entity} {u : Unit} {cause : StoreError} {old new : NaturalKey}
  {rest : List EntityId}

/-! ## One reference after the other -/

theorem data?_renameAt : (g.renameAt old new id).data? x = if x = id then (g.data? x).map (·.rename old new) else g.data? x := by
  simp only [data?, renameAt, SortedMap.get?_modify]
  split
  · next heq =>
    subst heq
    simp only [Option.map_map]
    rfl
  · rfl

theorem mem_referrers_renameAt {key : NaturalKey} : x ∈ (g.renameAt old new id).referrers key ↔
    x ∈ g.referrers key ∧ ¬(key = old ∧ x = id) ∨ key = new ∧ x = id :=
  KeyTable.mem_referrers_addReferrer.trans (or_congr_left KeyTable.mem_referrers_dropReferrer)

theorem resolve_renameAt {key : NaturalKey} : (g.renameAt old new id).resolve key = g.resolve key :=
  KeyTable.owner?_dropReferrer

/-- **Every referrer that is listed is there.** -/
def Referred (g : Graph) : Prop := ∀ key, ∀ x ∈ g.referrers key, g.contains x = true

theorem referred_of_wellReferred (hg : ∀ x, g.WellReferred x) : g.Referred := fun key x hx => by
  obtain ⟨e, he, -⟩ := (hg x key).1 hx
  exact contains_of_entity he

theorem Consistent.referred (hg : g.Consistent) : g.Referred := referred_of_wellReferred hg.intact.referred

theorem followRename_total : ∀ {ids : List EntityId} {g : Graph},
    (∀ id ∈ ids, g.contains id = true) → ∃ g', followRename old new ids g = .ok () g'
  | [], g, _ => ⟨g, rfl⟩
  | id :: rest, g, h => by
    obtain ⟨hid, hrest⟩ := List.forall_mem_cons.1 h
    obtain ⟨g', hfollow⟩ : ∃ g', followRename old new rest (g.renameAt old new id) = .ok () g' :=
      followRename_total fun x hx => (renameAt_sameLinks.contains x).trans (hrest x hx)
    exact ⟨g', followRename_cons_ok_iff.2 ⟨hid, hfollow⟩⟩

theorem followRename_resolve {k : NaturalKey} : ∀ {ids : List EntityId} {g : Graph},
    followRename old new ids g = .ok u g' → g'.resolve k = g.resolve k
  | [], g, h => by
    obtain ⟨-, rfl⟩ := EStateM.Result.ok.inj h
    rfl
  | id :: rest, g, h => (followRename_resolve (followRename_cons_ok_iff.1 h).2).trans resolve_renameAt

theorem followRename_referred : ∀ {ids : List EntityId} {g : Graph}, g.Referred →
    followRename old new ids g = .ok u g' →
    g'.Referred ∧ ∀ {x d}, g'.data? x = some d → ∃ e, g.data? x = some e ∧ e.Follows d
  | [], g, hg, h => by
    obtain ⟨-, rfl⟩ := EStateM.Result.ok.inj h
    exact ⟨hg, fun {x d} hd => ⟨d, hd, .refl⟩⟩
  | id :: rest, g, hg, h => by
    obtain ⟨hid, h⟩ := followRename_cons_ok_iff.1 h
    obtain ⟨hg', hdata⟩ := followRename_referred (fun key x hx => by
      rw [renameAt_sameLinks.contains]
      rcases mem_referrers_renameAt.1 hx with ⟨hx, -⟩ | ⟨-, rfl⟩
      · exact hg key x hx
      · exact hid) h
    refine ⟨hg', fun {x d} hd => ?_⟩
    obtain ⟨e, he, hfollows⟩ := hdata hd
    rw [data?_renameAt] at he
    split at he
    · obtain ⟨e₀, he₀, rfl⟩ := Option.map_eq_some_iff.1 he
      exact ⟨e₀, he₀, .head ⟨old, new, rfl⟩ hfollows⟩
    · exact ⟨e, he, hfollows⟩

theorem followRename_data : ∀ {ids : List EntityId} {g : Graph}, ids.Nodup → followRename old new ids g = .ok u g' →
    ∀ x, g'.data? x = if x ∈ ids then (g.data? x).map (·.rename old new) else g.data? x
  | [], g, _, h => by
    obtain ⟨-, rfl⟩ := EStateM.Result.ok.inj h
    simp
  | id :: rest, g, hnodup, h => by
    intro x
    obtain ⟨hid, hnodup⟩ := List.nodup_cons.1 hnodup
    rw [followRename_data hnodup (followRename_cons_ok_iff.1 h).2, data?_renameAt]
    by_cases hx : x = id
    · simp [hx, hid]
    · simp [hx]

theorem mem_referrers_followRename {key : NaturalKey} : ∀ {ids : List EntityId} {g : Graph},
    followRename old new ids g = .ok u g' →
    (x ∈ g'.referrers key ↔ x ∈ g.referrers key ∧ ¬(key = old ∧ x ∈ ids) ∨ key = new ∧ x ∈ ids)
  | [], g, h => by
    obtain ⟨-, rfl⟩ := EStateM.Result.ok.inj h
    simp
  | id :: rest, g, h => by
    rw [mem_referrers_followRename (followRename_cons_ok_iff.1 h).2, mem_referrers_renameAt, List.mem_cons]
    tauto

theorem nodup_referrers (g : Graph) (key : NaturalKey) : (g.referrers key).Nodup := by
  rw [referrers, KeyTable.referrers]
  cases g.keys.referring.get? key with
  | none => exact .nil
  | some ids => exact ids.keys_nodup

/-- **When the look-up of referrers is right, every reference follows a rename**, and the look-up is right again. -/
theorem followRename_renames (hg : ∀ x, g.WellReferred x) (h : followRename old new (g.referrers old) g = .ok u g') :
    (∀ x, g'.data? x = (g.data? x).map (·.rename old new)) ∧ ∀ x, g'.WellReferred x := by
  have hdata : ∀ x, g'.data? x = (g.data? x).map (·.rename old new) := by
    intro x
    rw [followRename_data (g.nodup_referrers old) h]
    split
    · rfl
    · next hnot =>
      cases he : g.data? x with
      | none => rfl
      | some e =>
        -- who is not listed holds no reference that could follow
        have hold : old ∉ e.refs := fun hmem => hnot ((wellReferred_iff.1 (hg x) old).2 ⟨e, he, hmem⟩)
        rw [Option.map_some, Entity.rename_eq_self hold]
  refine ⟨hdata, fun x => wellReferred_iff.2 fun key => ?_⟩
  rw [mem_referrers_followRename h, wellReferred_iff.1 (hg x), wellReferred_iff.1 (hg x), hdata]
  cases g.data? x with
  | none => simp
  | some e =>
    simp only [Option.some.injEq, exists_eq_left', Option.map_some, Entity.mem_refs_rename]
    by_cases hkey : key = old
    · simp [hkey]
    · simp [hkey]

/-! ## Another key -/

theorem referrers_rekey {a b : Option NaturalKey} {key : NaturalKey} : (g.rekey id a b).referrers key = g.referrers key := by
  cases a with
  | none => cases b <;> rfl
  | some a => cases b <;> exact KeyTable.referrers_release

theorem resolve_rekey {a b : Option NaturalKey} {k : NaturalKey} : (g.rekey id a b).resolve k =
    if b = some k then some id else if a = some k ∧ g.resolve k = some id then none else g.resolve k := by
  have hreleased : (g.rekey id a none).resolve k = if a = some k ∧ g.resolve k = some id then none else g.resolve k := by
    cases a with
    | none => simp [rekey, resolve]
    | some a =>
      refine (KeyTable.owner?_release (t := g.keys)).trans ?_
      by_cases heq : k = a
      · simp [heq, resolve]
      · simp [heq, Ne.symm heq, resolve]
  cases b with
  | none => simpa using hreleased
  | some b =>
    have hclaimed : (g.rekey id a (some b)).resolve k = if k = b then some id else (g.rekey id a none).resolve k :=
      KeyTable.owner?_claim
    rw [hclaimed, hreleased]
    simp only [Option.some.injEq, eq_comm (a := k)]

theorem resolve_of_rekey {a b : Option NaturalKey} {k : NaturalKey} (h : (g.rekey id a b).resolve k = some x) :
    g.resolve k = some x ∨ x = id ∧ b = some k := by
  rw [resolve_rekey] at h
  split at h
  · next hb => exact .inr ⟨(Option.some.inj h).symm, hb⟩
  · split at h
    · cases h
    · exact .inl h

theorem Referred.rekey (hg : g.Referred) (hid : g.contains id = true) {old new : Entity} {a b : Option NaturalKey} :
    ((g.replaceData id old new).rekey id a b).Referred := by
  intro key x hx
  have hsame : g.SameLinks (g.replaceData id old new) :=
    sameLinks_of_modify (f := fun n => { n with data := new }) fun _ => rfl
  rw [referrers_rekey] at hx
  change (g.replaceData id old new).contains x = true
  rw [hsame.contains]
  rcases mem_referrers_replaceData.1 hx with ⟨hx, -⟩ | ⟨-, rfl⟩
  · exact hg key x hx
  · exact hid

theorem WellReferred.rekey (hx : g.WellReferred x) {a b : Option NaturalKey} : (g.rekey id a b).WellReferred x := by
  rw [wellReferred_iff] at hx ⊢
  intro key
  rw [referrers_rekey]
  exact hx key

/-! ## Changing data -/

/-- References follow a natural key, if there is one before and after. -/
def followKey : Option NaturalKey → Option NaturalKey → Edit Unit
  | some old, some new => do followRename old new ((← get).referrers old)
  | _, _ => return ()

/-- **Changing data in its steps**: the kind has to stay.  Under the same natural key that is all; another one has to be
free, and references follow it. -/
theorem modify_eq {change : Entity → Entity} {old : Entity} (hold : g.data? id = some old)
    (hkind : (change old).kind = old.kind) : modify id change g =
      if g.schema.naturalKey? old = g.schema.naturalKey? (change old) then .ok () (g.replaceData id old (change old))
      else match g.checkKey (g.schema.naturalKey? (change old)) (some id) with
        | .error cause => .error cause g
        | .ok _ => followKey (g.schema.naturalKey? old) (g.schema.naturalKey? (change old))
            ((g.replaceData id old (change old)).rekey id (g.schema.naturalKey? old) (g.schema.naturalKey? (change old))) := by
  rw [modify, get_bind, bind_of_ok (ofExcept_ok_iff.2 ⟨entity_ok_iff_data.2 hold, rfl⟩)]
  simp only [hkind, ne_eq, not_true_eq_false, if_false]
  split
  · rfl
  · cases hkey : g.checkKey (g.schema.naturalKey? (change old)) (some id) with
    | error cause => exact bind_of_error (ofExcept_error_iff.2 ⟨rfl, rfl⟩)
    | ok u =>
      refine (bind_of_ok (ofExcept_ok_iff.2 ⟨rfl, rfl⟩)).trans ?_
      cases g.schema.naturalKey? old with
      | none => rfl
      | some a => cases g.schema.naturalKey? (change old) <;> rfl

theorem modify_kind {change : Entity → Entity} (h : modify id change g = .ok u g') :
    ∃ old, g.data? id = some old ∧ (change old).kind = old.kind := by
  obtain ⟨old, hold, hkind, -⟩ := modify_ok_cases h
  exact ⟨old, entity_ok_iff_data.1 hold, hkind⟩

/-- **What a change of data leaves behind**: `new` is what the entity was given in place of `old`. -/
structure Changes (g g' : Graph) (id : EntityId) (old new : Entity) : Prop where
  found : g.data? id = some old
  kind : new.kind = old.kind
  schema : g'.schema = g.schema
  links : g.SameLinks g'
  data : ∀ x, g'.data? x = (if x = id then some new else g.data? x).map
    (·.followKey (g.schema.naturalKey? old) (g.schema.naturalKey? new))
  referred : ∀ x, g'.WellReferred x
  /-- The natural keys of others lead to whom they led before. -/
  others : ∀ {key x}, x ≠ id → (g'.resolve key = some x ↔ g.resolve key = some x)
  /-- To the entity leads what it was given. -/
  own : g.WellKeyed id → ∀ key, g'.resolve key = some id ↔ g.schema.naturalKey? new = some key

theorem followKey_renames {a b : Option NaturalKey} (hg : ∀ x, g.WellReferred x) (h : followKey a b g = .ok u g') :
    g'.schema = g.schema ∧ g.SameLinks g' ∧ (∀ x, g'.data? x = (g.data? x).map (·.followKey a b)) ∧
      (∀ x, g'.WellReferred x) ∧ ∀ key, g'.resolve key = g.resolve key := by
  cases a with
  | none =>
    obtain ⟨-, rfl⟩ := EStateM.Result.ok.inj h
    exact ⟨rfl, .refl g, fun x => by simp [Entity.followKey], hg, fun _ => rfl⟩
  | some a =>
    cases b with
    | none =>
      obtain ⟨-, rfl⟩ := EStateM.Result.ok.inj h
      exact ⟨rfl, .refl g, fun x => by simp [Entity.followKey], hg, fun _ => rfl⟩
    | some b =>
      have h : followRename a b (g.referrers a) g = .ok u g' := h
      obtain ⟨hdata, hreferred⟩ := followRename_renames hg h
      exact ⟨followRename_schema h, followRename_ok h, hdata, hreferred, fun _ => followRename_resolve h⟩

theorem modify_changes {change : Entity → Entity} (hg : ∀ x, g.WellReferred x) (h : modify id change g = .ok u g') :
    ∃ old, g.Changes g' id old (change old) := by
  obtain ⟨old, hold, hkind⟩ := modify_kind h
  have hthere := contains_of_data hold
  have hreplaced : g.SameLinks (g.replaceData id old (change old)) :=
    sameLinks_of_modify (f := fun n => { n with data := change old }) fun _ => rfl
  refine ⟨old, ?_⟩
  rw [modify_eq hold hkind] at h
  split at h
  · next hkey =>
    obtain ⟨-, rfl⟩ := EStateM.Result.ok.inj h
    refine ⟨hold, hkind, rfl, hreplaced, fun x => ?_, fun x => (hg x).replaceData hold, fun {key x} _ => ?_,
      fun hid key => ?_⟩
    · rw [data?_replaceData hthere, hkey]
      simp only [Entity.followKey_self, Option.map_id']
    · rw [resolve_replaceData]
    · rw [resolve_replaceData, wellKeyed_iff.1 hid, hold, ← hkey]
      simp
  · next hkey =>
    split at h
    · cases h
    next hcheck =>
    have hfree := checkKey_ok_iff.1 hcheck
    obtain ⟨hschema, hlinks, hdata, hreferred, hresolve⟩ :=
      followKey_renames (fun x => ((hg x).replaceData hold).rekey) h
    refine ⟨hold, hkind, hschema, ⟨fun x => (hlinks.links x).trans (hreplaced.links x), fun k => hlinks.counters k⟩,
      fun x => ?_, hreferred, fun {key x} hx => ?_, fun hid key => ?_⟩
    · have hgiven : (g.replaceData id old (change old)).data? x = if x = id then some (change old) else g.data? x :=
        data?_replaceData hthere x
      rw [hdata]
      exact congrArg _ hgiven
    · rw [hresolve, resolve_rekey, resolve_replaceData]
      split
      · next hb =>
        -- the new key leads to the entity, and the check has seen to it that it led to nobody else
        refine ⟨fun h => absurd (Option.some.inj h).symm hx, fun hown => ?_⟩
        exact absurd (Option.some.inj (hfree key hb x hown)) hx
      · split
        · next ha => simp [ha.2, Ne.symm hx]
        · rfl
    · rw [hresolve, resolve_rekey, resolve_replaceData]
      have hown := (wellKeyed_iff.1 hid key).symm
      simp only [hold, Option.some.injEq, exists_eq_left'] at hown
      split
      · next hb => simp [hb]
      · next hb => simp [hb, hown]

theorem Intact.modify (hg : g.Intact) {change : Entity → Entity} (h : Graph.modify id change g = .ok u g') : g'.Intact := by
  obtain ⟨old, hchanges⟩ := modify_changes hg.referred h
  refine ⟨hg.of_sameLinks hchanges.links hchanges.schema fun {x e} hx => ?_, hchanges.referred⟩
  rw [hchanges.data, Option.map_eq_some_iff] at hx
  obtain ⟨d, hd, rfl⟩ := hx
  rw [Entity.followKey_kind]
  split at hd
  · next heq =>
    obtain rfl := Option.some.inj hd
    rw [hchanges.kind, heq]
    exact hg.kind_of_data hchanges.found
  · exact hg.kind_of_data hd

theorem modify_resolve {change : Entity → Entity} {k : NaturalKey} (h : modify id change g = .ok u g')
    (hk : g'.resolve k = some x) : g.resolve k = some x ∨ x = id ∧
      ∃ e, g.data? id = some e ∧ g.schema.naturalKey? e ≠ some k ∧ g.schema.naturalKey? (change e) = some k := by
  obtain ⟨e, he, ⟨-, rfl⟩ | ⟨hne, rekeyed, rfl, hcases⟩⟩ := modify_cases h
  · exact .inl (resolve_replaceData.symm.trans hk)
  · have hrekeyed : ((g.replaceData id e (change e)).rekey id (g.schema.naturalKey? e)
        (g.schema.naturalKey? (change e))).resolve k = some x := by
      rcases hcases with rfl | ⟨a, b, hfollow⟩
      · exact hk
      · exact (followRename_resolve hfollow).symm.trans hk
    rcases resolve_of_rekey hrekeyed with hx | ⟨hx, hafter⟩
    · exact .inl (resolve_replaceData.symm.trans hx)
    · exact .inr ⟨hx, e, he, fun hbefore => hne (hafter.trans hbefore.symm), hafter⟩

theorem Referred.rename (hg : g.Referred) {old new : NaturalKey} (h : modify id (fun e => e.rename old new) g = .ok u g') :
    g'.Referred ∧ ∀ {x d}, g'.data? x = some d → ∃ e, g.data? x = some e ∧ e.Follows d := by
  obtain ⟨e, he, hcases⟩ := modify_cases h
  have hid := contains_of_data he
  have hdata : ∀ {x d}, (g.replaceData id e (e.rename old new)).data? x = some d →
      ∃ e, g.data? x = some e ∧ e.Follows d := by
    intro x d hd
    rw [data?_replaceData hid] at hd
    split at hd
    · next heq =>
      obtain rfl := Option.some.inj hd
      exact ⟨e, heq ▸ he, .single ⟨old, new, rfl⟩⟩
    · exact ⟨d, hd, .refl⟩
  rcases hcases with ⟨-, rfl⟩ | ⟨-, rekeyed, rfl, rfl | ⟨a, b, hfollow⟩⟩
  · exact ⟨hg.rekey (a := none) (b := none) hid, hdata⟩
  · exact ⟨hg.rekey hid, hdata⟩
  · obtain ⟨hg', hdata'⟩ := followRename_referred (hg.rekey hid) hfollow
    refine ⟨hg', fun {x d} hd => ?_⟩
    obtain ⟨e₁, he₁, hfollows₁⟩ := hdata' hd
    obtain ⟨e₀, he₀, hfollows₀⟩ := hdata he₁
    exact ⟨e₀, he₀, hfollows₀.trans hfollows₁⟩

/-! ## Changes that are refused -/

theorem followKey_total (hg : g.Referred) (a b : Option NaturalKey) : ∃ g', followKey a b g = .ok () g' := by
  cases a with
  | none => exact ⟨g, rfl⟩
  | some a =>
    cases b with
    | none => exact ⟨g, rfl⟩
    | some b => exact followRename_total (hg a)

/-- **A change of data is refused before anything is written**: the entity is missing, its kind would change, or its new
natural key belongs to another one. -/
theorem modify_error_cases {change : Entity → Entity} (hg : g.Referred) (h : modify id change g = .error cause g') :
    g' = g ∧ (cause = .notFound id ∧ g.contains id = false ∨
      ∃ old, g.data? id = some old ∧ (cause = .kindMismatch id old.kind (change old).kind ∧ (change old).kind ≠ old.kind ∨
        ∃ k holder, cause = .duplicateKey k holder ∧ g.schema.naturalKey? (change old) = some k ∧
          g.schema.naturalKey? old ≠ some k ∧ g.resolve k = some holder ∧ holder ≠ id)) := by
  cases hold : g.entity id with
  | error missing =>
    rw [modify, get_bind, bind_of_error (ofExcept_error_iff.2 ⟨hold, rfl⟩)] at h
    obtain ⟨rfl, rfl⟩ := EStateM.Result.error.inj h
    obtain ⟨hgone, rfl⟩ := entity_refused hold
    exact ⟨rfl, .inl ⟨rfl, hgone⟩⟩
  | ok old =>
    have hdata := entity_ok_iff_data.1 hold
    by_cases hkind : (change old).kind = old.kind
    case neg =>
      rw [modify, get_bind, bind_of_ok (ofExcept_ok_iff.2 ⟨hold, rfl⟩), if_pos hkind] at h
      obtain ⟨rfl, rfl⟩ := EStateM.Result.error.inj h
      exact ⟨rfl, .inr ⟨old, hdata, .inl ⟨rfl, hkind⟩⟩⟩
    rw [modify_eq hdata hkind] at h
    split at h
    · cases h
    next hne =>
    split at h
    · next hcheck =>
      obtain ⟨rfl, rfl⟩ := EStateM.Result.error.inj h
      obtain ⟨k, owner, hkey, howner, hother, rfl⟩ := checkKey_refused hcheck
      exact ⟨rfl, .inr ⟨old, hdata, .inr ⟨k, owner, rfl, hkey, hkey ▸ hne, howner, fun heq => hother (heq ▸ rfl)⟩⟩⟩
    · obtain ⟨after, htotal⟩ := followKey_total (hg.rekey (contains_of_data hdata)) _ _
      cases h.symm.trans htotal

theorem modify_refused {change : Entity → Entity} (hg : g.Referred) (hid : g.contains id = true)
    (h : modify id change g = .error cause g') (hkind : ∀ e, (change e).kind = e.kind) :
    ∃ e k holder, g.data? id = some e ∧ g.schema.naturalKey? e ≠ some k ∧ g.schema.naturalKey? (change e) = some k ∧
      holder ≠ id ∧ g.resolve k = some holder ∧ cause = .duplicateKey k holder := by
  obtain ⟨-, ⟨-, hgone⟩ | ⟨e, he, ⟨-, hne⟩ | ⟨k, holder, rfl, hafter, hbefore, hholder, hother⟩⟩⟩ := modify_error_cases hg h
  · rw [hid] at hgone
    cases hgone
  · exact absurd (hkind e) hne
  · exact ⟨e, k, holder, he, hbefore, hafter, hother, hholder, rfl⟩

end Graph
end Reconciliation
