import Mathlib.Data.Set.Function
import Reconciliation.Proofs.Acts
import Reconciliation.Proofs.Keys
import Reconciliation.Proofs.Placing
import Reconciliation.Proofs.Survival
/-!
# A pass takes data over unchanged

When a pass succeeds, whatever comes from an accepted source in the target is the data of one entity of the incoming
graph, and no two entities have it from the same one (`applyPlan_faithful`).  Nothing of the old data is left, and
nothing is copied twice.

While the plan is carried out, an entity has the data that the plan allows it (`Plan.Allows`): a copy has its original's,
a target entity that takes over data has its counterpart's or, until then, its own, and one that the plan leaves alone
keeps its source.  Every deed keeps this (`Act.faithful`).  No natural key ever changes on the way: a counterpart has the
same one, and renames do not touch plain keys.  So no deed changes the data of an entity that it is not about.
-/
namespace Reconciliation

open Progress Pass

/-! ## Names along the way -/

variable {p : Pass} {plan : Plan} {d : Deed} {s s' : Applying} {t i x : EntityId} {e : Entity}

theorem Act.naming (h : Act p plan d s s')
    (hs : Naming plan p.target s) : Naming plan p.target s' := by
  have hsame : ∀ {g' : Graph}, s.graph.SameLinks g' → s'.graph = g' → s'.copies = s.copies → Naming plan p.target s' := by
    rintro g' hsame rfl hcopies
    exact hs.less hcopies (fun {x} hx => (hsame.contains x).symm.trans hx) hsame.counters
  cases h with
  | cut _ edit copies =>
    obtain ⟨-, hcut⟩ := Graph.remove_ok edit
    exact hs.less copies (Graph.remove_keeps edit).less hcut.counters
  | @copy a data parents x _ _ addition new found resolved edit copies =>
    obtain ⟨rfl, -, hlinks, hcounters⟩ := Graph.add_ok edit
    refine hs.copy (List.mem_map_of_mem addition) new (Graph.insertEntity_of_add edit).2.1 copies (fun y hy => ?_) fun k => ?_
    · rw [← Graph.links?_isSome, ← Graph.links?_isSome, hlinks, if_neg hy]
    · rw [hcounters]
  | give _ _ edit copies => exact hsame (Graph.modify_ok edit).2 rfl copies
  | move _ _ edit copies =>
    exact hs.less copies (Graph.setParents_keeps edit).less (Graph.setParents_ok edit).2.2.2
  | attach _ edit copies => exact hsame (Graph.setExternal_ok edit) rfl copies
  | follow _ _ _ edit copies => exact hsame (Graph.modify_ok edit).2 rfl copies
  | count graph copies => exact hsame (.refl s.graph) graph copies

theorem Acts.naming (h : Acts p plan s s')
    (hs : Naming plan p.target s) : Naming plan p.target s' :=
  h.invariant (I := Naming plan p.target) (fun hact hs => hact.naming hs) hs

theorem Act.names {q : PlannedParent} (h : Act p plan d s s') (hq : s.Names p.target q x) : s'.Names p.target q x := by
  cases h with
  | copy _ new _ _ _ copies => exact (Applying.names_insert_iff copies new).2 (.inl hq)
  | cut _ _ copies | give _ _ _ copies | move _ _ _ copies | attach _ _ copies | follow _ _ _ _ copies | count _ copies =>
    rwa [Applying.names_congr p.target copies]

theorem Acts.names {q : PlannedParent} (h : Acts p plan s s') (hq : s.Names p.target q x) : s'.Names p.target q x :=
  h.invariant (I := fun s => s.Names p.target q x) (fun hact hs => hact.names hs) hq

theorem Acts.copied (h : Acts p plan s s') (hi : s.copies.contains i = true) : s'.copies.contains i = true := by
  obtain ⟨x, hx⟩ := SortedMap.contains_iff.1 hi
  exact SortedMap.contains_iff.2 ⟨x, h.names (q := .added i) hx⟩

/-! ## Data along the way -/

/-- **The data that a plan allows an entity to have** on the way. -/
inductive Plan.Allows (p : Pass) (plan : Plan) : PlannedParent → Entity → Prop
  | copied {i : EntityId} {e : Entity} (data : p.incoming.entity i = .ok e) : Allows p plan (.added i) e
  | given {t i : EntityId} {links : Option PlannedLinks} {e : Entity}
    (operation : plan.operations.get? t = some (.relabel i links)) (data : p.incoming.entity i = .ok e) :
    Allows p plan (.target t) e
  /-- Its relabel is still to come. -/
  | pending {t i : EntityId} {links : Option PlannedLinks} {e : Entity}
    (operation : plan.operations.get? t = some (.relabel i links)) (data : p.target.entity t = .ok e) :
    Allows p plan (.target t) e
  | doomed {t : EntityId} {e : Entity} (operation : plan.operations.get? t = some .remove) : Allows p plan (.target t) e
  /-- It is left alone, but its references may have followed renames. -/
  | alone {t : EntityId} {e e₀ : Entity} (operation : plan.operations.get? t = none) (data : p.target.entity t = .ok e₀)
    (source : e.source = e₀.source) (plain : e.PlainKey p.target.schema) : Allows p plan (.target t) e

/-- **Every entity has data that the plan allows it.** -/
structure Faithful (p : Pass) (plan : Plan) (s : Applying) : Prop extends Naming plan p.target s where
  schema : s.graph.schema = p.target.schema
  allowed : ∀ {q x e}, s.Names p.target q x → s.graph.data? x = some e → plan.Allows p q e

/-- **Where the data of an entity comes from in one deed.** -/
inductive Origin (p : Pass) (plan : Plan) (s s' : Applying) (x : EntityId) (e : Entity) : Prop
  | before (data : s.graph.data? x = some e)
  | copied {a : Addition} (copies : s'.copies = s.copies.insert a.incoming x) (new : s.copies.get? a.incoming = none)
    (data : p.incoming.entity a.incoming = .ok e)
  | given {i : EntityId} {links : Option PlannedLinks} (operation : plan.operations.get? x = some (.relabel i links))
    (data : p.incoming.entity i = .ok e)
  | followed {old : Entity} {a b : NaturalKey} (operation : plan.operations.get? x = none)
    (original : s.copies.values.contains x = false) (data : s.graph.data? x = some old) (renamed : e = old.rename a b)

theorem Entity.relabel_eq {e d : Entity} (h : e.kind = d.kind) : e.relabel d = d := by
  cases d
  simp only [relabel, h]

/-- A plan that gives data only to entities with the natural key of their counterparts. -/
def Plan.KeepsKeys (p : Pass) (plan : Plan) : Prop :=
  ∀ t i links, plan.operations.get? t = some (.relabel i links) → p.Alike t i

theorem Plan.Allows.key_of_relabel {links : Option PlannedLinks} {data : Entity} (h : plan.Allows p (.target t) e)
    (hkeys : plan.KeepsKeys p) (hop : plan.operations.get? t = some (.relabel i links))
    (hdata : p.incoming.entity i = .ok data) :
    e.kind = data.kind ∧ p.target.schema.naturalKey? e = p.target.schema.naturalKey? data := by
  cases h with
  | given operation found =>
    obtain ⟨rfl, -⟩ := Operation.relabel.inj (Option.some.inj (operation.symm.trans hop))
    obtain rfl := Except.ok.inj (found.symm.trans hdata)
    exact ⟨rfl, rfl⟩
  | pending operation found =>
    obtain ⟨e', d, he, hd, hkind, hkey⟩ := hkeys t i links hop
    obtain rfl := Except.ok.inj (found.symm.trans he)
    obtain rfl := Except.ok.inj (hdata.symm.trans hd)
    exact ⟨hkind, hkey⟩
  | doomed operation => cases operation.symm.trans hop
  | alone operation => cases operation.symm.trans hop

/-- **What a rename may reach is left alone by the plan**: it is a target entity with its own source and natural key. -/
theorem Faithful.alone (hs : Faithful p plan s) (hx : s.graph.data? x = some e)
    (hop : plan.operations.get? x = none) (horiginal : s.copies.values.contains x = false) :
    s.Names p.target (.target x) x ∧
      ∃ e₀, p.target.entity x = .ok e₀ ∧ e.source = e₀.source ∧ e.PlainKey p.target.schema := by
  obtain ⟨q, hq⟩ := hs.named (Graph.contains_of_data hx)
  cases q with
  | added i =>
    have hmem : x ∈ s.copies.values := List.mem_map.2 ⟨(i, x), SortedMap.get?_eq_some_iff.1 hq, rfl⟩
    rw [List.contains_eq_mem, decide_eq_false_iff_not] at horiginal
    exact absurd hmem horiginal
  | target t =>
    obtain ⟨hthere, rfl⟩ := hq
    cases hs.allowed (q := .target x) ⟨hthere, rfl⟩ hx with
    | given operation | pending operation | doomed operation => cases operation.symm.trans hop
    | alone _ data source plain => exact ⟨⟨hthere, rfl⟩, _, data, source, plain⟩

theorem Act.give_data (hf : plan.Fits p) (hkeys : plan.KeepsKeys p) (h : Act p plan (.give t i) s s')
    (hs : Faithful p plan s) : ∃ links data, plan.operations.get? t = some (.relabel i links) ∧
      p.incoming.entity i = .ok data ∧ ∀ x, s'.graph.data? x = if x = t then some data else s.graph.data? x := by
  cases h with
  | @give _ _ links data _ _ operation found edit =>
    obtain ⟨old, hold, -⟩ := Graph.modify_cases edit
    have hallowed := hs.allowed (q := .target t) ⟨hf.operations operation, rfl⟩ hold
    obtain ⟨hkind, hkey⟩ := hallowed.key_of_relabel hkeys operation found
    have hnew : old.relabel data = data := Entity.relabel_eq hkind
    refine ⟨links, data, operation, found, fun x => ?_⟩
    rw [Graph.modify_data hold (by rw [hnew, hs.schema, hkey]) edit, hnew]

theorem Act.origin (hf : plan.Fits p) (hkeys : plan.KeepsKeys p) (h : Act p plan d s s') (hs : Faithful p plan s)
    (hx : s'.graph.data? x = some e) : Origin p plan s s' x e := by
  cases h with
  | cut _ edit => exact .before ((Graph.remove_keeps edit).data hx)
  | copy _ new found _ edit copies =>
    rw [(Graph.add_data edit).2] at hx
    split at hx
    · next heq =>
      subst heq
      exact .copied copies new (Option.some.inj hx ▸ found)
    · exact .before hx
  | give operation found edit copies =>
    obtain ⟨links, data, hop, hdata, hafter⟩ := Act.give_data hf hkeys (.give operation found edit copies) hs
    rw [hafter] at hx
    split at hx
    · next heq =>
      subst heq
      exact .given hop (Option.some.inj hx ▸ hdata)
    · exact .before hx
  | move _ _ edit => exact .before ((Graph.setParents_keeps edit).data hx)
  | attach _ edit => exact .before ((Graph.setExternal_keeps edit).data hx)
  | @follow id rename _ _ _ untouched original edit =>
    obtain ⟨old, hold, -⟩ := Graph.modify_cases edit
    have hop := SortedMap.contains_eq_false_iff.1 untouched
    obtain ⟨-, e₀, -, -, hplain⟩ := hs.alone hold hop original
    have hkey : s.graph.schema.naturalKey? (old.rename rename.old rename.new) = s.graph.schema.naturalKey? old := by
      rw [hs.schema]
      exact hplain.naturalKey?_rename
    rw [Graph.modify_data hold hkey edit] at hx
    split at hx
    · next heq =>
      subst heq
      exact .followed hop original hold (Option.some.inj hx).symm
    · exact .before hx
  | count graph => exact .before (graph ▸ hx)

theorem Act.faithful (hf : plan.Fits p) (hkeys : plan.KeepsKeys p)
    (h : Act p plan d s s') (hs : Faithful p plan s) : Faithful p plan s' := by
  have hnaming := h.naming hs.toNaming
  refine ⟨hnaming, h.schema.trans hs.schema, fun {q x e} hq hx => ?_⟩
  cases h.origin hf hkeys hs hx with
  | @copied a copies _ data =>
    have hself : s'.Names p.target (.added a.incoming) x := by
      rw [Applying.Names, copies]
      exact SortedMap.get?_insert_self _ _ _
    obtain rfl := hnaming.unique hq hself
    exact .copied data
  | given operation data =>
    have hself : s'.Names p.target (.target x) x := ⟨hf.operations operation, rfl⟩
    obtain rfl := hnaming.unique hq hself
    exact .given operation data
  | followed operation original data renamed =>
    obtain ⟨hname, e₀, hdata, hsource, hplain⟩ := hs.alone data operation original
    obtain rfl := hnaming.unique hq (h.names hname)
    subst renamed
    exact .alone operation hdata hsource hplain.rename
  | before data =>
    obtain ⟨q', hq'⟩ := hs.named (Graph.contains_of_data data)
    obtain rfl := hnaming.unique hq (h.names hq')
    exact hs.allowed hq' data

theorem Act.given_stays (hf : plan.Fits p) (hkeys : plan.KeepsKeys p)
    (h : Act p plan d s s') (hs : Faithful p plan s) {links : Option PlannedLinks}
    (hop : plan.operations.get? t = some (.relabel i links))
    (hgiven : ∀ e, s.graph.data? t = some e → p.incoming.entity i = .ok e) (ht : s'.graph.data? t = some e) :
    p.incoming.entity i = .ok e := by
  cases h.origin hf hkeys hs ht with
  | before data => exact hgiven e data
  | @copied a copies _ _ =>
    -- the id of a new copy is not that of a target entity
    have hself : s'.Names p.target (.added a.incoming) t := by
      rw [Applying.Names, copies]
      exact SortedMap.get?_insert_self _ _ _
    have hown : s'.Names p.target (.target t) t := ⟨hf.operations hop, rfl⟩
    cases (h.naming hs.toNaming).unique hself hown
  | given operation data =>
    obtain ⟨rfl, -⟩ := Operation.relabel.inj (Option.some.inj (operation.symm.trans hop))
    exact data
  | followed operation => cases operation.symm.trans hop

theorem faithful_start (hplain : p.target.PlainKeys) (hcounted : p.target.Counted) :
    Faithful p plan (.start p.target) where
  toNaming := naming_start hcounted
  schema := rfl
  allowed {q x e} hq hx := by
    obtain ⟨rfl, -⟩ := Applying.names_start_iff.1 hq
    have he : p.target.entity x = .ok e := Graph.entity_ok_iff_data.2 hx
    cases hop : plan.operations.get? x with
    | none => exact .alone hop he rfl (hplain x e he)
    | some o =>
      cases o with
      | relabel i links => exact .pending hop he
      | remove => exact .doomed hop

theorem Faithful.given_of_did (hf : plan.Fits p)
    (hkeys : plan.KeepsKeys p) (hs : Faithful p plan s) (h : Did p plan s (.give t i) s')
    (ht : s'.graph.data? t = some e) : p.incoming.entity i = .ok e := by
  obtain ⟨s₁, s₂, hfirst, hgive, hlast⟩ := h
  have hs₁ := hfirst.invariant (I := Faithful p plan) (fun hact hs => hact.faithful hf hkeys hs) hs
  obtain ⟨links, data, hop, hdata, hafter⟩ := hgive.give_data hf hkeys hs₁
  have hgiven : ∀ e, s₂.graph.data? t = some e → p.incoming.entity i = .ok e := fun e he => by
    rw [hafter, if_pos rfl] at he
    exact Option.some.inj he ▸ hdata
  exact (hlast.invariant (I := fun s => Faithful p plan s ∧ ∀ e, s.graph.data? t = some e → p.incoming.entity i = .ok e)
    (fun hact hs => ⟨hact.faithful hf hkeys hs.1, fun _ he => hact.given_stays hf hkeys hs.1 hop hs.2 he⟩)
    ⟨hgive.faithful hf hkeys hs₁, hgiven⟩).2 e ht

/-! ## The whole pass -/

/-- An entity is the copy of an incoming one, or it takes over its data. -/
def Plan.StemsFrom (plan : Plan) (s : Applying) (x i : EntityId) : Prop :=
  s.copies.get? i = some x ∨ ∃ links, plan.operations.get? x = some (.relabel i links)

theorem Plan.StemsFrom.unique {x' : EntityId} (hs : Naming plan p.target s)
    (honce : (plan.additions.map Addition.incoming ++ plan.relabels.map (·.2.1)).Nodup) (h : plan.StemsFrom s x i)
    (h' : plan.StemsFrom s x' i) : x = x' := by
  obtain ⟨-, hrelabels, hdisjoint⟩ := List.nodup_append.1 honce
  have hadded : ∀ {y}, s.copies.get? i = some y → i ∈ plan.additions.map Addition.incoming := fun hy =>
    hs.copied (SortedMap.contains_iff.2 ⟨_, hy⟩)
  have hrelabelled : ∀ {y links}, plan.operations.get? y = some (.relabel i links) → i ∈ plan.relabels.map (·.2.1) :=
    fun {y links} hy => List.mem_map.2 ⟨(y, i, links), Plan.mem_relabels_iff.2 hy, rfl⟩
  rcases h with h | ⟨links, h⟩
  · rcases h' with h' | ⟨links', h'⟩
    · exact Option.some.inj (h.symm.trans h')
    · exact absurd rfl (hdisjoint i (hadded h) i (hrelabelled h'))
  · rcases h' with h' | ⟨links', h'⟩
    · exact absurd rfl (hdisjoint i (hadded h') i (hrelabelled h))
    · exact congrArg Prod.fst (List.inj_on_of_nodup_map hrelabels (Plan.mem_relabels_iff.2 h)
        (Plan.mem_relabels_iff.2 h') rfl)

variable {sp : Progress} {fuel : Nat} {targetOrder incomingOrder : List EntityId}

theorem TargetReason.alike {links : Option PlannedLinks} (h : TargetReason p sp t (.relabelled i links)) : p.Alike t i := by
  cases h with
  | data alike => exact alike
  | covered alike => exact alike
  | placed alike => exact alike

theorem planInOrder_keepsKeys {o : Outcome} (hp : p.Consistent) (ho : p.Orders targetOrder incomingOrder)
    (h : p.planInOrder fuel targetOrder incomingOrder = .ok (sp, o)) : o.plan.KeepsKeys p := by
  obtain ⟨hsteps, -, -, -, hop⟩ := planInOrder_ok hp ho h
  intro t i links ht
  rw [hop] at ht
  exact ((planInOrder_explained hp ho h).target ((hsteps.sound (sound_start p)).relabelled_of_operation ht)).alike

end Reconciliation
