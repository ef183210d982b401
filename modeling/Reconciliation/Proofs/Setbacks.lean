import Reconciliation.Proofs.Coverage
import Reconciliation.Proofs.Underway
/-!
# What a plan can be stopped by

Before it gives an entity data or links, a pass makes room for them: who holds the natural key or one of the one-to-one
slots is removed if the plan removes it anyway, and stops the plan otherwise.  After that nobody else holds what is asked
for (`Graph.HasRoom`), so a refusal of the store has to do with a parent that is gone, with a circle, or with what the
schema wants of an entity and its links.

A plan is stopped in a state underway, for one of the reasons of `Setback`, or in the end by a rename that would give an
entity a natural key that somebody else owns (`Plan.Rekeys`): `applyPlan_halts`.
-/
namespace Reconciliation

open Relation Progress Pass Reconciliation.Graph

/-- A refusal for what the schema wants of an entity and its links, whatever else there is. -/
def StoreError.OfSchema : StoreError → Prop
  | .unknownKind _ | .unknownConnection _ | .duplicateConnection _ | .kindMismatch _ _ _ | .missingRequiredParent _ _ => True
  | .notFound _ | .keyNotFound _ | .oneToOneOccupied _ _ | .duplicateKey _ _ | .parentCycle _ _ | .indexOverflow _ => False

theorem StoreError.OfSchema.errorClass {cause : StoreError} (h : cause.OfSchema) :
    (ReconcileError.store cause).errorClass = .invariantViolation := by
  cases cause <;> first | rfl | exact h.elim

/-! ## Refusals where there is room -/

namespace Graph

variable {g g₁ g' : Graph} {id x y : EntityId} {kind : Kind} {c : Connection} {links : List Link}
  {moving : Option EntityId} {data : Entity} {cause : StoreError} {u : Unit} {k : NaturalKey}

/-- **There is room for an entity**: nobody else holds its natural key or one of its one-to-one slots. -/
structure HasRoom (g : Graph) (data : Entity) (links : List Link) (moving : Option EntityId) : Prop where
  key : ∀ {k h}, g.schema.naturalKey? data = some k → g.resolve k = some h → some h = moving
  slot : ∀ {c y h}, (c, y) ∈ links → c.cardinality = .one → g.HasLink h c y → some h = moving

theorem mem_childIds_iff_hasLink : x ∈ g.childIds y c ↔ g.HasLink x c y := mem_childIds_iff

theorem checkLink_refused {seen : List Connection} {l : Link}
    (hroom : l.1.cardinality = .one → ∀ {x}, g.HasLink x l.1 l.2 → some x = moving)
    (h : g.checkLink kind moving seen l = .error cause) :
    cause.OfSchema ∨ g.contains l.2 = false ∧ cause = .notFound l.2 := by
  obtain ⟨c, parent⟩ := l
  rw [checkLink] at h
  dsimp only at h
  split at h
  · cases h
    exact .inl trivial
  split at h
  · cases h
    exact .inl trivial
  rcases except_bind_error_iff.1 h with hdata | ⟨e, -, h⟩
  · exact .inr (entity_refused hdata)
  split at h
  · cases h
    exact .inl trivial
  split at h
  · next hoccupied =>
    -- whoever else held the slot has made way
    simp only [Bool.and_eq_true, decide_eq_true_eq, List.any_eq_true] at hoccupied
    obtain ⟨hone, child, hchild, hother⟩ := hoccupied
    exact absurd (hroom hone (mem_childIds_iff_hasLink.1 hchild)) hother
  · cases h

theorem checkEachLink_refused : ∀ {seen : List Connection} {links : List Link},
    (∀ l ∈ links, l.1.cardinality = .one → ∀ {x}, g.HasLink x l.1 l.2 → some x = moving) →
    g.checkEachLink kind moving seen links = .error cause →
    cause.OfSchema ∨ ∃ l ∈ links, g.contains l.2 = false ∧ cause = .notFound l.2
  | _, [], _, h => by cases h
  | _, l :: rest, hroom, h => by
    obtain ⟨hl, hrest⟩ := List.forall_mem_cons.1 hroom
    rcases except_bind_error_iff.1 h with h | ⟨_, -, h⟩
    · exact (checkLink_refused hl h).imp_right fun hgone => ⟨l, List.mem_cons_self, hgone⟩
    · exact (checkEachLink_refused hrest h).imp_right fun ⟨x, hx, hgone⟩ => ⟨x, List.mem_cons_of_mem _ hx, hgone⟩

theorem checkLinks_refused (hroom : ∀ {c y h}, (c, y) ∈ links → c.cardinality = .one → g.HasLink h c y → some h = moving)
    (h : g.checkLinks kind links moving = .error cause) :
    cause.OfSchema ∨ ∃ l ∈ links, g.contains l.2 = false ∧ cause = .notFound l.2 := by
  rw [checkLinks] at h
  split at h
  · cases h
    exact .inl trivial
  rcases except_bind_error_iff.1 h with h | ⟨_, -, h⟩
  · exact checkEachLink_refused (fun _ hl hone _ hlink => hroom hl hone hlink) h
  split at h
  · cases h
    exact .inl trivial
  · cases h

theorem add_refused (hroom : g.HasRoom data links none) (h : add data links g = .error cause g') :
    cause.OfSchema ∨ (∃ l ∈ links, g.contains l.2 = false ∧ cause = .notFound l.2) ∨
      (UInt32.size ≤ (g.nextIndex data.kind).toNat + 1 ∧ cause = .indexOverflow data.kind) := by
  rcases (add_error_cases h).2 with hlinks | hkey | hindex
  · exact (checkLinks_refused hroom.slot hlinks).imp_right .inl
  · have hfree : g.checkKey (g.schema.naturalKey? data) none = .ok () := checkKey_ok_iff.2 fun k hk h hh => hroom.key hk hh
    rw [hkey] at hfree
    cases hfree
  · exact .inr (.inr (checkIndex_error_iff.1 hindex))

theorem setParents_refused (hroom : g.HasRoom data links (some id)) (h : setParents id links g = .error cause g') :
    cause.OfSchema ∨ (g.contains id = false ∧ cause = .notFound id) ∨
      (∃ l ∈ links, g.contains l.2 = false ∧ cause = .notFound l.2) ∨
      ∃ l ∈ links, ReflTransGen g.IsParent id l.2 ∧ cause = .parentCycle l.2 id := by
  rcases (setParents_error_cases h).2 with hnode | hlinks | hacyclic
  · exact .inr (.inl (node_refused hnode))
  · exact (checkLinks_refused hroom.slot hlinks).imp_right fun hgone => .inr (.inl hgone)
  · exact .inr (.inr (.inr (checkAcyclic_refused hacyclic)))

/-! ## Making room -/

/-- A graph holds less than another one: fewer entities, keys and links. -/
structure Within (g' g : Graph) : Prop where
  schema : g'.schema = g.schema
  contains : ∀ {x}, g'.contains x = true → g.contains x = true
  resolve : ∀ {k x}, g'.resolve k = some x → g.resolve k = some x
  hasLink : ∀ {x c y}, g'.HasLink x c y → g.HasLink x c y

theorem Within.refl (g : Graph) : g.Within g := ⟨rfl, id, id, id⟩

theorem Within.trans (h : g₁.Within g) (h' : g'.Within g₁) : g'.Within g :=
  ⟨h'.schema.trans h.schema, fun hx => h.contains (h'.contains hx), fun hx => h.resolve (h'.resolve hx),
    fun hx => h.hasLink (h'.hasLink hx)⟩

theorem Consistent.within_remove (hg : g.Consistent) {gone : List EntityId} (h : Graph.remove id g = .ok gone g') :
    g'.Within g ∧ g'.contains id = false := by
  have hloses := hg.closed.remove h
  have hkeeps := remove_keeps h
  refine ⟨⟨hloses.schema, hkeeps.less, fun {k x} hx => ?_, fun {x c y} hlink => ?_⟩, ?_⟩
  · obtain ⟨e, he, hkey⟩ := (hg.remove h).owner_iff.1 hx
    rw [hkeeps.schema] at hkey
    exact hg.owner_iff.2 ⟨e, hkeeps.data he, hkey⟩
  · obtain ⟨n', hn', hmem⟩ := hlink
    obtain ⟨-, n, hn, hmem'⟩ := hloses.link hn' hmem
    exact ⟨n, hn, hmem'⟩
  · obtain ⟨rfl, -⟩ := remove_eq h
    rw [← Bool.not_eq_true, hloses.contains_iff]
    exact fun hthere => hthere.2 (mem_requiredClosure_iff.2 .refl)

end Graph

/-! ## Setbacks -/

variable {p : Pass} {plan : Plan} {s s' : Applying} {pending rest : List EntityId} {t i r x y : EntityId}
  {q : PlannedParent} {c : Connection} {e : ReconcileError} {data : Entity} {links : PlannedLinks}

/-- **Why a plan stops on the way**, when the relabels of `pending` are still to come. -/
inductive Setback (p : Pass) (plan : Plan) (pending : List EntityId) (s : Applying) : ReconcileError → Prop
  /-- A planned parent is gone. -/
  | parent {x : PlannedParent} {data : Entity} {links : PlannedLinks} {c : Connection} {q : PlannedParent} {y : EntityId}
    (asks : plan.Asks p pending x data links) (link : (c, q) ∈ links) (names : s.Names p.target q y)
    (gone : s.graph.contains y = false) : Setback p plan pending s (.store (.notFound y))
  /-- An entity is gone before its relabel. -/
  | self {data : Entity} {links : PlannedLinks} {t : EntityId} (asks : plan.Asks p pending (.target t) data links)
    (gone : s.graph.contains t = false) : Setback p plan pending s (.store (.notFound t))
  /-- The natural key is held by somebody who stays. -/
  | key {x : PlannedParent} {data : Entity} {links : PlannedLinks} {k : NaturalKey} {h : EntityId} {name : String}
    (asks : plan.Asks p pending x data links) (key : p.target.schema.naturalKey? data = some k)
    (holder : s.graph.resolve k = some h) (other : ¬s.Names p.target x h) (stays : plan.operations.get? h ≠ some .remove) :
    Setback p plan pending s (.slotTaken h name)
  /-- A one-to-one slot is held by somebody who stays. -/
  | slot {x : PlannedParent} {data : Entity} {links : PlannedLinks} {c : Connection} {q : PlannedParent}
    {y h : EntityId} {name : String} (asks : plan.Asks p pending x data links) (link : (c, q) ∈ links)
    (one : c.cardinality = .one) (names : s.Names p.target q y) (holder : s.graph.HasLink h c y)
    (other : ¬s.Names p.target x h) (stays : plan.operations.get? h ≠ some .remove) :
    Setback p plan pending s (.slotTaken h name)
  /-- A planned parent lies below the entity. -/
  | circle {data : Entity} {links : PlannedLinks} {t : EntityId} {c : Connection} {q : PlannedParent} {y : EntityId}
    (asks : plan.Asks p pending (.target t) data links) (link : (c, q) ∈ links) (names : s.Names p.target q y)
    (below : ReflTransGen s.graph.IsParent t y) : Setback p plan pending s (.store (.parentCycle y t))
  /-- All additions that are not made yet wait for parents. -/
  | unadded {l : List Addition} (some_addition : l ≠ []) (additions : ∀ a ∈ l, a ∈ plan.additions)
    (waiting : ∀ a ∈ l, s.linksOf? (a.links.getD []) = none)
    (others : ∀ a ∈ plan.additions, a ∈ l ∨ s.copies.contains a.incoming = true) :
    Setback p plan pending s (.parentsNeverAdded (l.map (·.incoming)))
  | unparented {data : Entity} {links : PlannedLinks} {t : EntityId} (asks : plan.Asks p pending (.target t) data links)
    (copied : ∀ a ∈ plan.additions, s.copies.contains a.incoming = true) (unresolved : s.linksOf? links = none) :
    Setback p plan pending s (.relabelParentNeverAdded t)
  | schema {cause : StoreError} (schema : cause.OfSchema) : Setback p plan pending s (.store cause)
  /-- The counter of a kind is at its end. -/
  | index {kind : Kind} (last : UInt32.size ≤ (s.graph.nextIndex kind).toNat + 1) :
    Setback p plan pending s (.store (.indexOverflow kind))

/-- **A plan stops on the way.** -/
def Halts (p : Pass) (plan : Plan) (e : ReconcileError) : Prop :=
  ∃ pending s, Underway p plan pending s ∧ Setback p plan pending s e

/-- What a plan speaks of, in graphs whose ids are counted. -/
structure Pass.Carries (p : Pass) (plan : Plan) : Prop where
  rests : plan.Rests p
  target : p.target.Consistent
  incoming : p.incoming.Consistent
  counted : p.target.Counted

theorem Underway.stage (hplan : p.Carries plan) (h : Underway p plan pending s) : Staged p plan pending s :=
  h.staged hplan.rests hplan.target hplan.counted

namespace Apply

theorem mem_keyHolder_iff {g : Graph} {moving : Option EntityId} : x ∈ keyHolder g data moving ↔
    ∃ k, g.schema.naturalKey? data = some k ∧ g.resolve k = some x ∧ some x ≠ moving := by
  rw [keyHolder]
  cases g.schema.naturalKey? data with
  | none => simp
  | some k =>
    simp only [Option.some.injEq, exists_eq_left']
    cases g.resolve k with
    | none => simp
    | some holder =>
      simp only [Option.some.injEq]
      by_cases h : some holder = moving
      · rw [if_pos h]
        refine ⟨fun hx => (by cases hx), ?_⟩
        rintro ⟨rfl, hne⟩
        exact absurd h hne
      · rw [if_neg h, List.mem_singleton]
        refine ⟨?_, fun hx => hx.1.symm⟩
        rintro rfl
        exact ⟨rfl, h⟩

theorem mem_slotHolders_iff {g : Graph} {moving : Option EntityId} : ∀ {links : List Link} {holders : List EntityId},
    slotHolders g moving links = .ok holders →
    (x ∈ holders ↔ ∃ c y, (c, y) ∈ links ∧ c.cardinality = .one ∧ g.HasLink x c y ∧ some x ≠ moving)
  | [], _, h => by
    obtain rfl := Except.ok.inj h
    simp
  | (c, parent) :: rest, holders, h => by
    obtain ⟨occupants, hoccupants, h⟩ : ∃ occupants : List EntityId, (x ∈ occupants ↔ c.cardinality = .one ∧ g.HasLink x c parent) ∧
        ∃ later, slotHolders g moving rest = .ok later ∧
          occupants.filter (fun id => some id ≠ moving) ++ later = holders := by
      rw [slotHolders] at h
      split at h
      · next hone =>
        obtain ⟨occupants, hoccupants, h⟩ := except_bind_ok_iff.1 h
        obtain ⟨later, hlater, h⟩ := except_bind_ok_iff.1 h
        refine ⟨occupants, ?_, later, hlater, Except.ok.inj h⟩
        rw [childrenOf] at hoccupants
        cases hn : g.node parent with
        | error cause => rw [hn] at hoccupants; cases hoccupants
        | ok n =>
          rw [hn] at hoccupants
          obtain rfl := Except.ok.inj hoccupants
          rw [mem_childIds_iff_hasLink]
          exact ⟨fun hlink => ⟨hone, hlink⟩, fun hlink => hlink.2⟩
      · next hmany =>
        obtain ⟨occupants, hoccupants, h⟩ := except_bind_ok_iff.1 h
        obtain ⟨later, hlater, h⟩ := except_bind_ok_iff.1 h
        obtain rfl := Except.ok.inj hoccupants
        exact ⟨[], by simp [hmany], later, hlater, Except.ok.inj h⟩
    obtain ⟨later, hlater, rfl⟩ := h
    simp only [List.mem_append, List.mem_filter, decide_eq_true_eq, hoccupants, mem_slotHolders_iff hlater, List.mem_cons,
      Prod.mk.injEq]
    constructor
    · rintro (⟨⟨hone, hlink⟩, hother⟩ | ⟨c', y, hmem, h⟩)
      · exact ⟨c, parent, .inl ⟨rfl, rfl⟩, hone, hlink, hother⟩
      · exact ⟨c', y, .inr hmem, h⟩
    · rintro ⟨c', y, ⟨rfl, rfl⟩ | hmem, hone, hlink, hother⟩
      · exact .inl ⟨⟨hone, hlink⟩, hother⟩
      · exact .inr ⟨c', y, hmem, hone, hlink, hother⟩

/-- **Removing succeeds**: the entity is gone already, or it is cut off. -/
theorem remove_run (r : EntityId) (s : Applying) : ∃ s', remove r s = .ok () s' ∧
    (s' = s ∧ s.graph.contains r = false ∨
      ∃ gone, Graph.remove r s.graph = .ok gone s'.graph ∧ s'.copies = s.copies) := by
  cases hthere : s.graph.contains r with
  | false =>
    refine ⟨s, ?_, .inl ⟨rfl, rfl⟩⟩
    rw [remove, get_bind, if_neg (by simp [hthere])]
    rfl
  | true =>
    obtain ⟨gone, g, hremove⟩ := remove_total hthere
    have hedit : edit (Graph.remove r) s = .ok gone { s with graph := g } := by rw [edit, hremove]
    refine ⟨{ s with graph := g, applied := { s.applied with removed := s.applied.removed + gone.length } }, ?_,
      .inr ⟨gone, hremove, rfl⟩⟩
    rw [remove, get_bind, if_pos hthere, bind_of_ok hedit]
    rfl

/-- What is left of the holders of what is asked for when they have made way. -/
theorem displace_proceeds (hplan : p.Carries plan) {kind : Kind} : ∀ {holders : List EntityId} {s : Applying},
    Underway p plan pending s →
    (∀ h ∈ holders, plan.operations.get? h = some .remove → plan.Displaces p pending h) →
    (∀ h ∈ holders, ∀ name, plan.operations.get? h ≠ some .remove → Halts p plan (.slotTaken h name)) →
    Leads (Acts p plan) (displace plan.operations kind holders) s (fun _ s' => Underway p plan pending s' ∧
      s'.copies = s.copies ∧ s'.graph.Within s.graph ∧ ∀ h ∈ holders, s'.graph.contains h = false) (Halts p plan)
  | [], s, hs, _, _ => .pure ⟨hs, rfl, .refl _, fun _ h => by cases h⟩
  | h :: rest, s, hs, hgoes, hstays => by
    obtain ⟨hgo, hgoes⟩ := List.forall_mem_cons.1 hgoes
    obtain ⟨hstay, hstays⟩ := List.forall_mem_cons.1 hstays
    -- once the first holder is gone, the others follow
    have hrest : ∀ {s₁ : Applying}, Underway p plan pending s₁ → Acts p plan s s₁ → s₁.copies = s.copies →
        s₁.graph.Within s.graph → s₁.graph.contains h = false →
        Leads (Acts p plan) (displace plan.operations kind rest) s₁ (fun _ s' => Underway p plan pending s' ∧
          s'.copies = s.copies ∧ s'.graph.Within s.graph ∧ ∀ x ∈ h :: rest, s'.graph.contains x = false)
          (Halts p plan) := by
      intro s₁ hs₁ hacts hcopies hwithin hgone
      refine (displace_proceeds hplan hs₁ hgoes hstays).mono ?_ fun _ h => h
      rintro _ s' - ⟨hs', hcopies', hwithin', hall⟩
      refine ⟨hs', hcopies'.trans hcopies, hwithin.trans hwithin', List.forall_mem_cons.2 ⟨?_, hall⟩⟩
      rw [← Bool.not_eq_true] at hgone ⊢
      exact fun hthere => hgone (hwithin'.contains hthere)
    rw [displace]
    refine .get_bind ?_
    dsimp only
    split
    · next hgone => exact hrest hs .refl rfl (.refl _) (by simpa using hgone)
    · next hthere =>
      split
      · next hremove =>
        obtain ⟨s₁, hrun, ⟨-, hgone⟩ | ⟨gone, hcut, hcopies⟩⟩ := remove_run h s
        · rw [hgone] at hthere
          cases hthere rfl
        · have hact : Act p plan (.cut h) s s₁ := .cut hremove hcut hcopies
          obtain ⟨hwithin, hgone⟩ := (hs.stage hplan).consistent.within_remove hcut
          refine .bind (P := fun _ s' => s' = s₁) (.of_ok hrun hact.acts rfl) ?_
          rintro _ _ hacts rfl
          exact hrest (hs.deed hact (hgo hremove)) hacts hcopies hwithin hgone
      · next hother => exact .of_error rfl (hstay _ hother)

/-- **Making room** removes who holds what is asked for, as far as the plan removes it anyway, and stops otherwise. -/
theorem makeRoom_proceeds (hplan : p.Carries plan) (hs : Underway p plan pending s) {q : PlannedParent}
    (hself : ∀ {x}, s.Names p.target q x → some x = q.moving) (hasks : plan.Asks p pending q data links)
    {parents : List Link} (hparents : s.Realizes p.target links parents) :
    Leads (Acts p plan) (makeRoom plan.operations data parents q.moving) s (fun _ s' => Underway p plan pending s' ∧
      s'.copies = s.copies ∧ s'.graph.HasRoom data parents q.moving) (Halts p plan) := by
  have hstage := hs.stage hplan
  rw [makeRoom]
  refine .get_bind ?_
  refine .look (P := fun holders => slotHolders s.graph q.moving parents = .ok holders) lookup_ok_iff.1
    (fun {e s'} h => ?_) fun holders hslots => ?_
  · obtain ⟨cause, hslots, rfl⟩ := lookup_error h
    obtain ⟨⟨c, y⟩, hl, hgone, rfl⟩ := slotHolders_error hslots
    obtain ⟨q', hlink, hy⟩ := hparents.1 hl
    exact ⟨pending, s, hs, .parent hasks hlink hy hgone⟩
  have hmem : ∀ {h}, h ∈ keyHolder s.graph data q.moving ++ holders ↔
      (∃ k, s.graph.schema.naturalKey? data = some k ∧ s.graph.resolve k = some h ∧ some h ≠ q.moving) ∨
        ∃ c y, (c, y) ∈ parents ∧ c.cardinality = .one ∧ s.graph.HasLink h c y ∧ some h ≠ q.moving := by
    intro h
    rw [List.mem_append, mem_keyHolder_iff, mem_slotHolders_iff hslots]
  refine (displace_proceeds hplan hs (fun h hh hremove => ?_) fun h hh name hstays => ?_).mono ?_ fun _ h => h
  · -- a holder that the plan removes anyway
    have hthere := hplan.rests.operations hremove
    rcases hmem.1 hh with ⟨k, hkey, hholder, -⟩ | ⟨c, y, hl, hone, hholder, -⟩
    · exact .key hremove hasks (hstage.schema ▸ hkey) (hstage.resolve_target hplan.rests hplan.target hthere hholder)
    · obtain ⟨q', hlink, hy⟩ := hparents.1 hl
      obtain ⟨hy', hholder⟩ := hstage.hasLink_of_removed hthere hremove hholder
      rw [hstage.unique hy hy'] at hlink
      exact .slot hremove hasks hlink hone hholder
  · -- a holder that stays
    rcases hmem.1 hh with ⟨k, hkey, hholder, hother⟩ | ⟨c, y, hl, hone, hholder, hother⟩
    · exact ⟨pending, s, hs, .key hasks (hstage.schema ▸ hkey) hholder (fun hx => hother (hself hx)) hstays⟩
    · obtain ⟨q', hlink, hy⟩ := hparents.1 hl
      exact ⟨pending, s, hs, .slot hasks hlink hone hy hholder (fun hx => hother (hself hx)) hstays⟩
  · -- whoever holds something afterwards held it before, and so it is gone
    rintro _ s' - ⟨hs', hcopies, hwithin, hgone⟩
    have hg' := (hs'.stage hplan).consistent
    refine ⟨hs', hcopies, fun {k h} hkey hholder => ?_, fun {c y h} hl hone hholder => ?_⟩
    · by_contra hother
      have hnone := hgone h (hmem.2 (.inl ⟨k, hwithin.schema ▸ hkey, hwithin.resolve hholder, hother⟩))
      rw [hg'.contains_of_resolve hholder] at hnone
      cases hnone
    · by_contra hother
      have hnone := hgone h (hmem.2 (.inr ⟨c, y, hl, hone, hwithin.hasLink hholder, hother⟩))
      obtain ⟨n, hn, -⟩ := hholder
      rw [contains_iff.2 ⟨n, hn⟩] at hnone
      cases hnone

theorem Attaches.underway {g : Graph} (h : Attaches x s.graph g)
    (htouched : (∃ i links, plan.operations.get? x = some (.relabel i links)) ∨ ∃ i, s.copies.get? i = some x)
    (hs : Underway p plan pending s) (applied : Applied) : Underway p plan pending { s with graph := g, applied := applied } := by
  suffices hattached : Underway p plan pending { s with graph := g } from
    hattached.deed (.count rfl rfl) trivial
  induction h with
  | refl => exact hs
  | tail _ hset ih =>
    obtain ⟨mapping, value, hset⟩ := hset
    exact ih.deed (.attach htouched hset rfl) trivial

theorem add_proceeds (hplan : p.Carries plan) (hs : Underway p plan (plan.relabels.map (·.1)) s) {a : Addition}
    {parents : List Link} (ha : a ∈ plan.additions) (hnew : s.copies.get? a.incoming = none)
    (hparents : s.linksOf? (a.links.getD []) = some parents) :
    Leads (Acts p plan) (add p.incoming plan.operations a.incoming parents) s (fun _ s' =>
      Underway p plan (plan.relabels.map (·.1)) s' ∧ ∃ x, s'.copies = s.copies.insert a.incoming x) (Halts p plan) := by
  obtain ⟨data, hdata⟩ := exists_entity (hplan.rests.sources ha)
  have hasks : plan.Asks p (plan.relabels.map (·.1)) (.added a.incoming) data (a.links.getD []) := .copy ha hdata
  rw [add]
  refine .bind_look (lookup_ok_iff.2 ⟨hdata, rfl⟩) ?_
  have hself : ∀ {x}, s.Names p.target (.added a.incoming) x → some x = PlannedParent.moving (.added a.incoming) :=
    fun hx => by cases hnew.symm.trans hx
  refine .bind (makeRoom_proceeds hplan hs hself hasks (realizes_of_linksOf? (hplan.rests.added ha) hparents)) ?_
  rintro _ s₁ hacts ⟨hs₁, hcopies, hroom⟩
  have hparents₁ : s₁.linksOf? (a.links.getD []) = some parents := by rw [Applying.linksOf?_congr hcopies, hparents]
  refine copy_leads (fun {x g} s₂ hadd hentered hattaches => ?_) fun {cause g} hrefused => ?_
  · have hcopy : Act p plan (.copy a) s₁ s₂ := .copy ha (by rw [hcopies, hnew]) hdata hparents₁ hadd hentered
    have htouched : (∃ i links, plan.operations.get? x = some (.relabel i links)) ∨ ∃ i, s₂.copies.get? i = some x :=
      .inr ⟨a.incoming, by rw [hentered, SortedMap.get?_insert_self]⟩
    exact ⟨hcopy.acts.trans (hattaches.acts htouched), hattaches.underway htouched (hs₁.deed hcopy trivial) s₂.applied, x,
      by rw [hentered, hcopies]⟩
  · rcases add_refused hroom hrefused with hschema | ⟨⟨c, y⟩, hl, hgone, rfl⟩ | ⟨hlast, rfl⟩
    · exact ⟨_, s₁, hs₁, .schema hschema⟩
    · obtain ⟨q, hlink, hy⟩ := (realizes_of_linksOf? (hplan.rests.added ha) hparents₁).1 hl
      exact ⟨_, s₁, hs₁, .parent hasks hlink hy hgone⟩
    · exact ⟨_, s₁, hs₁, .index hlast⟩

theorem addRound_proceeds (hplan : p.Carries plan) : ∀ {l : List Addition} {s : Applying},
    Underway p plan (plan.relabels.map (·.1)) s → (l.map Addition.incoming).Nodup →
    (∀ a ∈ l, a ∈ plan.additions ∧ s.copies.get? a.incoming = none) →
    Leads (Acts p plan) (addRound p.incoming plan.operations l) s
      (fun _ s' => Underway p plan (plan.relabels.map (·.1)) s') (Halts p plan)
  | [], s, hs, _, _ => .pure hs
  | a :: rest, s, hs, hnodup, hnew => by
    obtain ⟨ha, hnew'⟩ := List.forall_mem_cons.1 hnew
    rw [List.map_cons, List.nodup_cons] at hnodup
    rw [addRound]
    refine .get_bind ?_
    cases hparents : s.linksOf? (a.links.getD []) with
    | some parents =>
      refine .bind (add_proceeds hplan hs ha.1 ha.2 hparents) ?_
      rintro _ s₁ - ⟨hs₁, x, hcopies⟩
      refine addRound_proceeds hplan hs₁ hnodup.2 fun b hb => ⟨(hnew' b hb).1, ?_⟩
      have hne : b.incoming ≠ a.incoming := fun heq => hnodup.1 (heq ▸ List.mem_map_of_mem hb)
      rw [hcopies, SortedMap.get?_insert_of_ne _ _ hne]
      exact (hnew' b hb).2
    | none => exact .bind (addRound_proceeds hplan hs hnodup.2 hnew') fun _ s₁ _ hs₁ => .pure hs₁

end Apply

theorem Did.copied {s₀ : Applying} {a : Addition} (h : Did p plan s₀ (.copy a) s) : s.copies.contains a.incoming = true := by
  obtain ⟨s₁, s₂, -, hcopy, hlast⟩ := h
  cases hcopy with
  | @copy _ _ _ x _ _ _ _ _ _ _ copies =>
    have hself : s₂.Names p.target (.added a.incoming) x := by
      rw [Applying.Names, copies, SortedMap.get?_insert_self]
    exact SortedMap.contains_iff.2 ⟨x, hlast.names hself⟩

namespace Apply

theorem addRounds_proceeds (hplan : p.Carries plan) : ∀ {rounds : Nat} {l : List Addition} {s : Applying},
    Underway p plan (plan.relabels.map (·.1)) s → l.length ≤ rounds → (l.map Addition.incoming).Nodup →
    (∀ a ∈ l, a ∈ plan.additions ∧ s.copies.get? a.incoming = none) →
    (∀ a ∈ plan.additions, a ∈ l ∨ s.copies.contains a.incoming = true) →
    Leads (Acts p plan) (addRounds p.incoming plan.operations rounds l) s (fun _ s' =>
      Underway p plan (plan.relabels.map (·.1)) s' ∧ ∀ a ∈ plan.additions, s'.copies.contains a.incoming = true)
      (Halts p plan)
  | _, [], s, hs, _, _, _, hothers => by
    rw [addRounds]
    exact .pure ⟨hs, fun a ha => (hothers a ha).resolve_left List.not_mem_nil⟩
  | 0, _ :: _, _, _, hlen, _, _, _ => by cases hlen
  | rounds + 1, a :: rest, s, hs, hlen, hnodup, hnew, hothers => by
    rw [addRounds]
    refine .bind_run (addRound_proceeds hplan hs hnodup hnew) fun deferred s₁ hrun hacts hs₁ => ?_
    -- what the round did besides
    obtain ⟨hsub, -, hdeferred, hdone, hall⟩ := ((addRound_enacts (.refl : Acts p plan s s) hnodup hnew).ok hrun).2
    have hnew₁ : ∀ b ∈ deferred, b ∈ plan.additions ∧ s₁.copies.get? b.incoming = none := fun b hb =>
      ⟨(hnew b (hsub.subset hb)).1, hdeferred b hb⟩
    have hothers₁ : ∀ b ∈ plan.additions, b ∈ deferred ∨ s₁.copies.contains b.incoming = true := by
      intro b hb
      rcases hothers b hb with hmem | hcopied
      · exact (hdone b hmem).imp_right Did.copied
      · exact .inr (hacts.copied hcopied)
    split
    · next hstuck =>
      obtain ⟨rfl, hnone⟩ := hall hstuck
      refine .of_error rfl ⟨_, _, hs₁, .unadded ?_ (fun b hb => (hnew₁ b hb).1) (fun b hb => hnone b (hsub.subset hb)) hothers₁⟩
      rintro rfl
      cases hstuck
    · next hfewer =>
      have hlen' : deferred.length ≤ rounds := by
        have hle := hsub.length_le
        omega
      exact addRounds_proceeds hplan hs₁ hlen' ((hsub.map _).nodup hnodup) hnew₁ hothers₁

theorem addAll_proceeds (hplan : p.Carries plan) :
    Leads (Acts p plan) (addAll p.incoming plan.operations plan.additions) (.start p.target) (fun _ s' =>
      Underway p plan (plan.relabels.map (·.1)) s' ∧ ∀ a ∈ plan.additions, s'.copies.contains a.incoming = true)
      (Halts p plan) :=
  addRounds_proceeds hplan .start (Nat.le_refl plan.additions.length) hplan.rests.additions (fun _ ha => ⟨ha, rfl⟩)
    fun _ ha => .inl ha

theorem give_proceeds (hplan : p.Carries plan) (hs : Underway p plan pending s) {links : Option PlannedLinks}
    (hop : plan.operations.get? t = some (.relabel i links)) (hdata : p.incoming.entity i = .ok data)
    (hasks : plan.Asks p pending (.target t) data []) :
    Leads (Acts p plan) (edit (Graph.modify t fun e => e.relabel data)) s (fun _ s' =>
      Underway p plan pending s' ∧ s'.copies = s.copies ∧ s'.graph.contains t = true) (Halts p plan) := by
  cases hthere : s.graph.contains t with
  | false =>
    have hrefused : edit (Graph.modify t fun e => e.relabel data) s = .error (.store (.notFound t)) s := by
      have hnone := SortedMap.contains_eq_false_iff.1 hthere
      simp only [edit, Graph.modify, get_bind, Graph.entity, Graph.node, hnone]
      rfl
    exact .of_error hrefused ⟨_, s, hs, .self hasks hthere⟩
  | true =>
    -- the data has the natural key that the entity has, so it is not refused
    obtain ⟨old, hold⟩ := exists_entity hthere
    rw [entity_ok_iff_data] at hold
    obtain ⟨e, d, he, hd, hkind', hkey'⟩ := hplan.rests.keys t i links hop
    obtain rfl := Except.ok.inj (hd.symm.trans hdata)
    have hbears := (hs.stage hplan).data (q := .target t) ⟨hplan.rests.operations hop, rfl⟩ hold
    obtain ⟨hkind, hkey⟩ := hbears.key_eq hplan.rests.keys he
    have hnew : old.relabel d = d := Entity.relabel_eq (hkind.trans hkind')
    have hedit : Graph.modify t (fun e => e.relabel d) s.graph = .ok () (s.graph.replaceData t old (old.relabel d)) :=
      modify_of_key_eq hold (by rw [hnew, hkind, hkind']) (by rw [hnew, (hs.stage hplan).schema, hkey, hkey'])
    generalize s.graph.replaceData t old (old.relabel d) = g at hedit
    have hgive : Act p plan (.give t i) s { s with graph := g } := .give hop hdata hedit rfl
    exact .of_ok (by rw [edit, hedit]) hgive.acts
      ⟨hs.deed hgive trivial, rfl, ((modify_ok hedit).2.contains t).trans hthere⟩

theorem move_proceeds (hplan : p.Carries plan) {rest : List EntityId} (hs : Underway p plan (t :: rest) s)
    {links : PlannedLinks} (hop : plan.operations.get? t = some (.relabel i (some links)))
    (hasks : plan.Asks p (t :: rest) (.target t) data links) {parents : List Link}
    (hparents : s.linksOf? links = some parents) (hroom : s.graph.HasRoom data parents (some t)) :
    Leads (Acts p plan) (edit (Graph.setParents t parents)) s (fun _ s' =>
      Underway p plan rest s' ∧ s'.graph.contains t = true) (Halts p plan) := by
  cases hset : Graph.setParents t parents s.graph with
  | ok u g =>
    have hmove : Act p plan (.move t links) s { s with graph := g } := .move hop hparents hset rfl
    exact .of_ok (by rw [edit, hset]) hmove.acts ⟨hs.move hmove, contains_of_setParents hset⟩
  | error cause g =>
    have hrefused : edit (Graph.setParents t parents) s = .error (.store cause) { s with graph := g } := by
      rw [edit, hset]
    have hrealizes := realizes_of_linksOf? (hplan.rests.there hop) hparents
    refine .of_error hrefused ⟨_, s, hs, ?_⟩
    rcases setParents_refused hroom hset with hschema | ⟨hgone, rfl⟩ | ⟨⟨c, y⟩, hl, hgone, rfl⟩ | ⟨⟨c, y⟩, hl, hbelow, rfl⟩
    · exact .schema hschema
    · exact .self hasks hgone
    · obtain ⟨q, hlink, hy⟩ := hrealizes.1 hl
      exact .parent hasks hlink hy hgone
    · obtain ⟨q, hlink, hy⟩ := hrealizes.1 hl
      exact .circle hasks hlink hy hbelow

theorem relabel_proceeds (hplan : p.Carries plan) {before after : List (EntityId × EntityId × Option PlannedLinks)}
    {links : Option PlannedLinks} (hrelabels : plan.relabels = before ++ (t, i, links) :: after)
    (hs : Underway p plan (t :: after.map (·.1)) s) (hcopied : ∀ a ∈ plan.additions, s.copies.contains a.incoming = true) :
    Leads (Acts p plan) (relabel p.incoming plan.operations t i links) s (fun _ s' =>
      Underway p plan (after.map (·.1)) s') (Halts p plan) := by
  have hop : plan.operations.get? t = some (.relabel i links) := by
    rw [← Plan.mem_relabels_iff, hrelabels]
    exact List.mem_append_right _ List.mem_cons_self
  obtain ⟨_, data, _, hdata, -⟩ := hplan.rests.keys t i links hop
  have hasks : plan.Asks p (t :: after.map (·.1)) (.target t) data [] := .give hrelabels hdata
  have htouched : ∀ s : Applying, (∃ i links, plan.operations.get? t = some (.relabel i links)) ∨
      ∃ i, s.copies.get? i = some t := fun _ => .inl ⟨i, links, hop⟩
  have hnothing : s.Realizes p.target [] [] := ⟨fun h => (by cases h), fun h => (by cases h)⟩
  have hself : ∀ {s : Applying} {x}, s.Names p.target (.target t) x → some x = PlannedParent.moving (.target t) :=
    fun hx => congrArg some hx.2
  rw [relabel]
  refine .bind_look (lookup_ok_iff.2 ⟨hdata, rfl⟩) ?_
  refine .bind (makeRoom_proceeds hplan hs hself hasks hnothing) ?_
  rintro _ s₁ - ⟨hs₁, hcopies₁, -⟩
  refine .bind (give_proceeds hplan hs₁ hop hdata hasks) ?_
  rintro _ s₂ - ⟨hs₂, hcopies₂, hthere₂⟩
  cases links with
  | none =>
    have hskip := hs₂.skip (Plan.linksFor?_of_relabel hop)
    exact attach_leads hthere₂ fun applied hattaches =>
      ⟨(hattaches.acts (htouched s₂)).trans (acts_count _ applied), hattaches.underway (htouched s₂) hskip applied⟩
  | some links =>
    have hmoves : plan.Asks p (t :: after.map (·.1)) (.target t) data links := .move hrelabels hdata
    refine .get_bind ?_
    cases hparents : s₂.linksOf? links with
    | none =>
      have hcopied₂ : ∀ a ∈ plan.additions, s₂.copies.contains a.incoming = true := by rwa [hcopies₂, hcopies₁]
      exact .of_error rfl ⟨_, s₂, hs₂, .unparented hmoves hcopied₂ hparents⟩
    | some parents =>
      refine .bind (makeRoom_proceeds hplan hs₂ hself hmoves (realizes_of_linksOf? (hplan.rests.there hop) hparents)) ?_
      rintro _ s₃ - ⟨hs₃, hcopies₃, hroom⟩
      have hparents₃ : s₃.linksOf? links = some parents := by rw [Applying.linksOf?_congr hcopies₃, hparents]
      refine .bind (move_proceeds hplan hs₃ hop hmoves hparents₃ hroom) ?_
      rintro _ s₄ - ⟨hs₄, hthere₄⟩
      exact attach_leads hthere₄ fun applied hattaches =>
        ⟨(hattaches.acts (htouched s₄)).trans (acts_count _ applied), hattaches.underway (htouched s₄) hs₄ applied⟩

theorem relabels_proceed (hplan : p.Carries plan) {after : List (EntityId × EntityId × Option PlannedLinks)} :
    ∀ (before : List (EntityId × EntityId × Option PlannedLinks)) {l : List (EntityId × EntityId × Option PlannedLinks)}
    {s : Applying}, plan.relabels = before ++ (l ++ after) → Underway p plan ((l ++ after).map (·.1)) s →
    (∀ a ∈ plan.additions, s.copies.contains a.incoming = true) →
    Leads (Acts p plan) (l.forM fun r => relabel p.incoming plan.operations r.1 r.2.1 r.2.2) s (fun _ s' =>
      Underway p plan (after.map (·.1)) s' ∧ ∀ a ∈ plan.additions, s'.copies.contains a.incoming = true) (Halts p plan)
  | _, [], _, _, hs, hcopied => .pure ⟨hs, hcopied⟩
  | before, (t, i, links) :: rest, s, hrelabels, hs, hcopied => by
    refine .bind (relabel_proceeds hplan hrelabels hs hcopied) fun _ s₁ hacts hs₁ => ?_
    have hrelabels' : plan.relabels = (before ++ [(t, i, links)]) ++ (rest ++ after) := by
      rw [hrelabels, List.append_assoc]
      rfl
    exact relabels_proceed hplan _ hrelabels' hs₁ fun a ha => hacts.copied (hcopied a ha)

end Apply

end Reconciliation
