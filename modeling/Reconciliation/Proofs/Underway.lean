import Reconciliation.Proofs.Completed
/-!
# On the way through a plan

Additions come first and relabels after them, one by one in ascending order.  On the way an entity whose relabel is still
to come has its own links, and any other has those that the plan gives it.  A state is underway (`Underway`) while some
relabels are still to come, when it comes about by what a plan does before its removals.  Of what the plan removes, such
a state has lost only what held something that was asked for (`Plan.Displaces`): a natural key or a one-to-one slot.

So whatever is missing there was uprooted: it hung, by the required links that there were at the time, on an entity that
had to make way (`Staged.missing`).  And every link there is one that the plan has by then (`Staged.link`).
-/
namespace Reconciliation

open Relation Progress Pass Reconciliation.Graph

/-- The id that an entity holds already when it asks for data or links. -/
def PlannedParent.moving : PlannedParent → Option EntityId
  | .target t => some t
  | .added _ => none

namespace Plan

/-- One entity is a parent of another one, as long as the relabels of `pending` are still to come. -/
def IsParent (plan : Plan) (target : Graph) (pending : List EntityId) (parent child : PlannedParent) : Prop :=
  ∃ c, plan.Link target pending child c parent

/-- One entity is a parent of another one that cannot be without it. -/
def IsRequiredParent (plan : Plan) (target : Graph) (pending : List EntityId) (parent child : PlannedParent) : Prop :=
  ∃ c, plan.Link target pending child c parent ∧ c.isRequired = true

/-- **What is asked of the target** when the relabels of `pending` are still to come: an entity is to get data, and
links. -/
inductive Asks (p : Pass) (plan : Plan) : List EntityId → PlannedParent → Entity → PlannedLinks → Prop
  | copy {a : Addition} {data : Entity} (addition : a ∈ plan.additions)
    (found : p.incoming.entity a.incoming = .ok data) :
    Asks p plan (plan.relabels.map (·.1)) (.added a.incoming) data (a.links.getD [])
  | give {before after : List (EntityId × EntityId × Option PlannedLinks)} {t i : EntityId}
    {links : Option PlannedLinks} {data : Entity} (relabel : plan.relabels = before ++ (t, i, links) :: after)
    (found : p.incoming.entity i = .ok data) : Asks p plan (t :: after.map (·.1)) (.target t) data []
  | move {before after : List (EntityId × EntityId × Option PlannedLinks)} {t i : EntityId} {links : PlannedLinks}
    {data : Entity} (relabel : plan.relabels = before ++ (t, i, some links) :: after)
    (found : p.incoming.entity i = .ok data) : Asks p plan (t :: after.map (·.1)) (.target t) data links

/-- **A removed entity has to make way**: it holds a natural key or a one-to-one slot that is asked for. -/
inductive Displaces (p : Pass) (plan : Plan) (pending : List EntityId) (r : EntityId) : Prop
  | key {x : PlannedParent} {data : Entity} {links : PlannedLinks} {k : NaturalKey}
    (operation : plan.operations.get? r = some .remove) (asks : plan.Asks p pending x data links)
    (key : p.target.schema.naturalKey? data = some k) (holder : p.target.resolve k = some r)
  | slot {x : PlannedParent} {data : Entity} {links : PlannedLinks} {c : Connection} {y : EntityId}
    (operation : plan.operations.get? r = some .remove) (asks : plan.Asks p pending x data links)
    (link : (c, .target y) ∈ links) (one : c.cardinality = .one) (holder : p.target.HasLink r c y)

/-- **An entity is uprooted** before the relabels of `pending` are made: it hangs by required links on one that has to
make way, as the links are by then. -/
def Uproots (p : Pass) (plan : Plan) (pending : List EntityId) (q : PlannedParent) : Prop :=
  ∃ stage r, pending <:+ stage ∧ plan.Displaces p stage r ∧
    ReflTransGen (plan.IsRequiredParent p.target stage) (.target r) q

/-- The data that an entity has until renames are followed. -/
inductive Bears (p : Pass) (plan : Plan) : PlannedParent → Entity → Prop
  | copied {i : EntityId} {e : Entity} (data : p.incoming.entity i = .ok e) : Bears p plan (.added i) e
  | own {t : EntityId} {e : Entity} (data : p.target.entity t = .ok e) : Bears p plan (.target t) e
  | given {t i : EntityId} {links : Option PlannedLinks} {e : Entity}
    (operation : plan.operations.get? t = some (.relabel i links)) (data : p.incoming.entity i = .ok e) :
    Bears p plan (.target t) e

/-- **A plan rests on the graphs that it was made for**: what it speaks of is there, and it takes from each incoming
entity once and changes no natural key. -/
structure Rests (plan : Plan) (p : Pass) : Prop extends Fits plan p where
  keys : plan.KeepsKeys p
  sources : ∀ {a}, a ∈ plan.additions → p.incoming.contains a.incoming = true
  once : (plan.additions.map Addition.incoming ++ plan.relabels.map (·.2.1)).Nodup

/-- What a plan does before its removals, when only some of its relabels are still to come: it removes nothing but what
has to make way, and follows no rename.  A move is the end of a relabel. -/
def Early (p : Pass) (plan : Plan) (pending : List EntityId) : Deed → Prop
  | .cut r => plan.Displaces p pending r
  | .move _ _ | .follow _ _ => False
  | .copy _ | .give _ _ | .attach _ | .count => True

end Plan

/-- **A state on the way through a plan**, when the relabels of `pending` and all removals are still to come. -/
inductive Underway (p : Pass) (plan : Plan) : List EntityId → Applying → Prop
  | start : Underway p plan (plan.relabels.map (·.1)) (.start p.target)
  | deed {pending : List EntityId} {d : Deed} {s s' : Applying} (before : Underway p plan pending s)
    (act : Act p plan d s s') (early : plan.Early p pending d) : Underway p plan pending s'
  | move {t : EntityId} {rest : List EntityId} {links : PlannedLinks} {s s' : Applying}
    (before : Underway p plan (t :: rest) s) (act : Act p plan (.move t links) s s') : Underway p plan rest s'
  | skip {t : EntityId} {rest : List EntityId} {s : Applying} (before : Underway p plan (t :: rest) s)
    (own : plan.linksFor? t = none) : Underway p plan rest s

variable {p : Pass} {plan : Plan} {d : Deed} {s s' : Applying} {pending rest : List EntityId} {t i r x y : EntityId}
  {q : PlannedParent} {c : Connection} {e : Entity}

theorem Plan.Asks.relabel {links : PlannedLinks} (h : plan.Asks p pending (.target t) e links) :
    ∃ before i given after, plan.relabels = before ++ (t, i, given) :: after ∧ pending = t :: after.map (·.1) ∧
      plan.operations.get? t = some (.relabel i given) ∧ p.incoming.entity i = .ok e ∧ (links = [] ∨ given = some links) := by
  have hoperation : ∀ {before after i} {given : Option PlannedLinks}, plan.relabels = before ++ (t, i, given) :: after →
      plan.operations.get? t = some (.relabel i given) := fun hrelabels => by
    rw [← Plan.mem_relabels_iff, hrelabels]
    exact List.mem_append_right _ List.mem_cons_self
  cases h with
  | give relabel found => exact ⟨_, _, _, _, relabel, rfl, hoperation relabel, found, .inl rfl⟩
  | move relabel found => exact ⟨_, _, _, _, relabel, rfl, hoperation relabel, found, .inr rfl⟩

theorem Underway.suffix (h : Underway p plan pending s) : pending <:+ plan.relabels.map (·.1) := by
  induction h with
  | start => exact List.suffix_rfl
  | deed _ _ _ ih => exact ih
  | move _ _ ih => exact (List.suffix_cons _ _).trans ih
  | skip _ _ ih => exact (List.suffix_cons _ _).trans ih

theorem Underway.notMem (h : Underway p plan (t :: rest) s) : t ∉ rest :=
  (List.nodup_cons.1 (plan.relabels_nodup.sublist h.suffix.sublist)).1

/-! ## Data on the way -/

theorem Plan.Bears.key_eq (h : plan.Bears p (.target t) e) (hkeys : plan.KeepsKeys p) {e₀ : Entity}
    (he₀ : p.target.entity t = .ok e₀) : e.kind = e₀.kind ∧ p.target.schema.naturalKey? e = p.target.schema.naturalKey? e₀ := by
  cases h with
  | own data =>
    obtain rfl := Except.ok.inj (data.symm.trans he₀)
    exact ⟨rfl, rfl⟩
  | given operation data =>
    obtain ⟨e', d, he', hd, hkind, hkey⟩ := hkeys t _ _ operation
    obtain rfl := Except.ok.inj (he'.symm.trans he₀)
    obtain rfl := Except.ok.inj (hd.symm.trans data)
    exact ⟨hkind.symm, hkey.symm⟩

/-- **A state before renames are followed**: every entity has a name and the data that goes with it, and the target is
consistent. -/
structure Regular (p : Pass) (plan : Plan) (s : Applying) : Prop extends Naming plan p.target s where
  schema : s.graph.schema = p.target.schema
  consistent : s.graph.Consistent
  data : ∀ {q x e}, s.Names p.target q x → s.graph.data? x = some e → plan.Bears p q e

theorem regular_start (hp : p.target.Consistent) (hcounted : p.target.Counted) :
    Regular p plan (.start p.target) where
  toNaming := naming_start hcounted
  schema := rfl
  consistent := hp
  data hq he := by
    obtain ⟨rfl, -⟩ := Applying.names_start_iff.1 hq
    exact .own (entity_ok_iff_data.2 he)

theorem Act.give_regular (hplan : plan.Rests p) (h : Act p plan (.give t i) s s') (hs : Regular p plan s) :
    ∃ links old data, plan.operations.get? t = some (.relabel i links) ∧ p.incoming.entity i = .ok data ∧
      s.graph.data? t = some old ∧ data.kind = old.kind ∧
        s.graph.schema.naturalKey? data = s.graph.schema.naturalKey? old ∧ s'.graph = s.graph.replaceData t old data := by
  cases h with
  | @give _ _ links data _ _ operation found edit =>
    obtain ⟨old, hold, hcases⟩ := modify_cases edit
    obtain ⟨e₀, d, he₀, hd, hkind, hkey⟩ := hplan.keys t i links operation
    obtain rfl := Except.ok.inj (hd.symm.trans found)
    have hbears := hs.data (q := .target t) ⟨hplan.operations operation, rfl⟩ hold
    obtain ⟨hkind', hkey'⟩ := hbears.key_eq hplan.keys he₀
    have hsame : d.kind = old.kind := hkind.symm.trans hkind'.symm
    have hnew : old.relabel d = d := Entity.relabel_eq hsame.symm
    have hkeys : s.graph.schema.naturalKey? d = s.graph.schema.naturalKey? old := by
      rw [hs.schema]
      exact hkey.symm.trans hkey'.symm
    rw [hnew] at hcases
    rcases hcases with ⟨-, heq⟩ | ⟨hne, -⟩
    · exact ⟨links, old, d, operation, found, hold, hsame, hkeys, heq⟩
    · exact absurd hkeys hne

theorem Act.regular (hplan : plan.Rests p)
    (hnot : ∀ id rename, d ≠ .follow id rename) (h : Act p plan d s s') (hs : Regular p plan s) : Regular p plan s' := by
  have hnaming := h.naming hs.toNaming
  have hschema := h.schema.trans hs.schema
  -- what keeps data keeps it under its names
  have hkept : ∀ {q x e}, s'.Names p.target q x → s.graph.data? x = some e → plan.Bears p q e := by
    intro q x e hq he
    obtain ⟨q', hq'⟩ := hs.named (contains_of_data he)
    rw [hnaming.unique hq (h.names hq')]
    exact hs.data hq' he
  cases h with
  | cut _ edit =>
    exact ⟨hnaming, hschema, hs.consistent.remove edit, fun hq he => hkept hq ((remove_keeps edit).data he)⟩
  | @copy a data parents x _ _ addition new found resolved edit copies =>
    refine ⟨hnaming, hschema, hs.consistent.add ?_ edit, fun {q y e} hq he => ?_⟩
    · -- the next id is nobody's
      rw [← Bool.not_eq_true]
      intro hthere
      obtain ⟨q, hq⟩ := hs.named hthere
      exact hs.unnamed data.kind hq
    · rw [(add_data edit).2] at he
      split at he
      · next heq =>
        subst heq
        have hself : s'.Names p.target (.added a.incoming) y :=
          (Applying.names_insert_iff copies new).2 (.inr ⟨rfl, rfl⟩)
        rw [hnaming.unique hq hself]
        exact .copied (Option.some.inj he ▸ found)
      · exact hkept hq he
  | @give t i links data _ _ operation found edit copies =>
    obtain ⟨links', old, data', hop, hdata, hold, hkind, hkey, hafter⟩ :=
      Act.give_regular hplan (.give operation found edit copies) hs
    rw [hafter] at hschema
    refine ⟨hnaming, hafter ▸ hschema, hafter ▸ hs.consistent.replaceData hold hkind hkey, fun {q y e} hq he => ?_⟩
    rw [hafter, data?_replaceData (contains_of_data hold)] at he
    split at he
    · next heq =>
      subst heq
      have hself : s'.Names p.target (.target y) y := ⟨hplan.operations hop, rfl⟩
      rw [hnaming.unique hq hself]
      exact .given hop (Option.some.inj he ▸ hdata)
    · exact hkept hq he
  | move _ _ edit =>
    exact ⟨hnaming, hschema, hs.consistent.setParents edit, fun hq he => hkept hq ((setParents_keeps edit).data he)⟩
  | attach _ edit =>
    exact ⟨hnaming, hschema, hs.consistent.setExternal edit, fun hq he => hkept hq ((setExternal_keeps edit).data he)⟩
  | follow => exact absurd rfl (hnot _ _)
  | count graph =>
    exact ⟨hnaming, hschema, graph ▸ hs.consistent, fun hq he => hkept hq (graph ▸ he)⟩

/-! ## Links on the way -/

/-- **A state underway, seen from the plan**: every link is one that the plan has by then, and whatever is missing is
uprooted. -/
structure Staged (p : Pass) (plan : Plan) (pending : List EntityId) (s : Applying) : Prop extends Regular p plan s where
  link : ∀ {q x c y}, s.Names p.target q x → s.graph.HasLink x c y →
    ∃ q', s.Names p.target q' y ∧ plan.Link p.target pending q c q'
  missing : ∀ {q x}, s.Names p.target q x → s.graph.contains x = false → plan.Uproots p pending q

theorem Graph.SameLinks.hasLink {g g' : Graph} (h : g.SameLinks g') (hlink : g'.HasLink x c y) : g.HasLink x c y := by
  rwa [hasLink_iff_mem, ← h.links, ← hasLink_iff_mem]

theorem Staged.linkTo (hs : Staged p plan pending s) (hx : s.Names p.target q x) (h : s.graph.HasLink y c x) :
    ∃ q', s.Names p.target q' y ∧ plan.Link p.target pending q' c q := by
  obtain ⟨n, hn, hmem⟩ := h
  obtain ⟨q', hy⟩ := hs.named (contains_iff.2 ⟨n, hn⟩)
  obtain ⟨q'', hx', hlink⟩ := hs.link hy ⟨n, hn, hmem⟩
  rw [hs.unique hx hx']
  exact ⟨q', hy, hlink⟩

/-- A chain in the graph is a chain of names, if each link in it is one between names. -/
theorem Naming.chain {R : EntityId → EntityId → Prop} {R' : PlannedParent → PlannedParent → Prop} {q : PlannedParent}
    (hstep : ∀ {x y q}, R x y → s.Names p.target q x → ∃ q', s.Names p.target q' y ∧ R' q q')
    (hx : s.Names p.target q x) (hreach : ReflTransGen R x y) : ∃ q', s.Names p.target q' y ∧ ReflTransGen R' q q' := by
  induction hreach with
  | refl => exact ⟨q, hx, .refl⟩
  | tail _ h ih =>
    obtain ⟨q₁, hz, hchain⟩ := ih
    obtain ⟨q', hy, hlink⟩ := hstep h hz
    exact ⟨q', hy, hchain.tail hlink⟩

/-- What goes with a removed entity hangs on it by the links that the plan has by then. -/
theorem Staged.closure (hs : Staged p plan pending s) (hr : s.Names p.target (.target r) r)
    (hreach : ReflTransGen s.graph.IsRequiredParent r x) :
    ∃ q, s.Names p.target q x ∧ ReflTransGen (plan.IsRequiredParent p.target pending) (.target r) q := by
  refine Naming.chain (fun ⟨n, c, hn, hmem, hreq⟩ hx => ?_) hr hreach
  obtain ⟨q', hy, hlink⟩ := hs.linkTo hx ⟨n, hn, hmem⟩
  exact ⟨q', hy, c, hlink, hreq⟩

theorem Staged.descent (hs : Staged p plan pending s) (hx : s.Names p.target q x)
    (hreach : ReflTransGen s.graph.IsParent x y) :
    ∃ q', s.Names p.target q' y ∧ ReflTransGen (plan.IsParent p.target pending) q q' := by
  refine Naming.chain (fun ⟨n, c, hn, hmem⟩ hx => ?_) hx hreach
  obtain ⟨q', hy, hlink⟩ := hs.linkTo hx ⟨n, hn, hmem⟩
  exact ⟨q', hy, c, hlink⟩

/-- An edit that takes away neither entities nor adds links keeps a staged state. -/
theorem Staged.of_less (hs : Staged p plan pending s) (hregular : Regular p plan s') (hcopies : s'.copies = s.copies)
    (hlink : ∀ {x c y}, s'.graph.HasLink x c y → s.graph.HasLink x c y)
    (hcontains : ∀ {x}, s.graph.contains x = true → s'.graph.contains x = true) : Staged p plan pending s' := by
  have hnames := Applying.names_congr p.target hcopies
  refine ⟨hregular, fun {q x c y} hq hxy => ?_, fun {q x} hq hgone => ?_⟩
  · rw [hnames] at hq ⊢
    exact hs.link hq (hlink hxy)
  · rw [hnames] at hq
    refine hs.missing hq (Bool.eq_false_iff.2 fun hx => ?_)
    rw [hcontains hx] at hgone
    cases hgone

theorem Staged.of_sameLinks (hs : Staged p plan pending s) (hregular : Regular p plan s') (hcopies : s'.copies = s.copies)
    (hsame : s.graph.SameLinks s'.graph) : Staged p plan pending s' :=
  hs.of_less hregular hcopies hsame.hasLink fun {x} hx => (hsame.contains x).trans hx

theorem Staged.cut (hplan : plan.Rests p) (hs : Staged p plan pending s) (hregular : Regular p plan s')
    (hdisplaces : plan.Displaces p pending r) (h : Act p plan (.cut r) s s') : Staged p plan pending s' := by
  cases h with
  | @cut _ gone _ _ operation edit copies =>
    have hloses := hs.consistent.closed.remove edit
    have hnames := Applying.names_congr p.target copies
    refine ⟨hregular, fun {q x c y} hq hlink => ?_, fun {q x} hq hgone => ?_⟩
    · obtain ⟨n', hn', hmem⟩ := hlink
      obtain ⟨-, n, hn, hmem'⟩ := hloses.link hn' hmem
      rw [hnames] at hq ⊢
      exact hs.link hq ⟨n, hn, hmem'⟩
    · rw [hnames] at hq
      cases hbefore : s.graph.contains x with
      | false => exact hs.missing hq hbefore
      | true =>
        have hmem : x ∈ gone := by
          by_contra hnot
          rw [hloses.contains_iff.2 ⟨hbefore, hnot⟩] at hgone
          cases hgone
        rw [(remove_eq edit).1, mem_requiredClosure_iff] at hmem
        obtain ⟨q', hq', hchain⟩ := hs.closure (r := r) ⟨hplan.operations operation, rfl⟩ hmem
        rw [hs.unique hq hq']
        exact ⟨pending, r, List.suffix_rfl, hdisplaces, hchain⟩

theorem Staged.copy (hplan : plan.Rests p) (hs : Staged p plan pending s) (hregular : Regular p plan s') {a : Addition}
    (h : Act p plan (.copy a) s s') : Staged p plan pending s' := by
  cases h with
  | @copy _ data parents z _ _ addition new found resolved edit copies =>
    obtain ⟨rfl, -, hlinks, -⟩ := add_ok edit
    have hnames {q y} : s'.Names p.target q y ↔ _ := Applying.names_insert_iff copies new
    have hrealizes := realizes_of_linksOf? (hplan.added addition) resolved
    have hself : s'.Names p.target (.added a.incoming) ⟨data.kind, s.graph.nextIndex data.kind⟩ := hnames.2 (.inr ⟨rfl, rfl⟩)
    refine ⟨hregular, fun {q x c y} hq hlink => ?_, fun {q x} hq hgone => ?_⟩
    · rw [hasLink_iff_mem, hlinks] at hlink
      split at hlink
      · next heq =>
        subst heq
        obtain ⟨q', hq', hy⟩ := hrealizes.1 (mem_inDeclarationOrder.1 hlink)
        rw [hregular.unique hq hself]
        exact ⟨q', hnames.2 (.inl hy), .added addition hq'⟩
      · next hne =>
        obtain ⟨q', hy, hplanned⟩ := hs.link ((hnames.1 hq).resolve_right fun h => hne h.2) (hasLink_iff_mem.2 hlink)
        exact ⟨q', hnames.2 (.inl hy), hplanned⟩
    · rcases hnames.1 hq with hq | ⟨-, rfl⟩
      · refine hs.missing hq (Bool.eq_false_iff.2 fun hx => ?_)
        rw [contains_after_add edit hx] at hgone
        cases hgone
      · rw [contains_of_add edit] at hgone
        cases hgone

theorem Staged.move (hplan : plan.Rests p) (hs : Staged p plan (t :: rest) s) (ht : t ∉ rest) (hregular : Regular p plan s')
    {links : PlannedLinks} (h : Act p plan (.move t links) s s') : Staged p plan rest s' := by
  cases h with
  | @move _ i _ parents _ _ operation resolved edit copies =>
    have hnames := Applying.names_congr p.target copies
    have hlinksFor : plan.linksFor? t = some links := Plan.linksFor?_of_relabel operation
    have hrealizes := realizes_of_linksOf? (hplan.there operation) resolved
    have hself : s.Names p.target (.target t) t := ⟨hplan.operations operation, rfl⟩
    refine ⟨hregular, fun {q x c y} hq hlink => ?_, fun {q x} hq hgone => ?_⟩
    · rw [hnames] at hq ⊢
      rw [hasLink_iff_mem, (setParents_ok edit).2.2.1] at hlink
      split at hlink
      · next heq =>
        subst heq
        obtain ⟨q', hq', hy⟩ := hrealizes.1 (mem_inDeclarationOrder.1 hlink)
        rw [hs.unique hq hself]
        exact ⟨q', hy, .given ht hlinksFor hq'⟩
      · next hne =>
        obtain ⟨q', hy, hplanned⟩ := hs.link hq (hasLink_iff_mem.2 hlink)
        refine ⟨q', hy, (Plan.link_tail_iff (.inl ?_)).2 hplanned⟩
        rintro rfl
        exact hne hq.2
    · rw [hnames] at hq
      obtain ⟨stage, r, hsuffix, hdisplaces, hchain⟩ := hs.missing hq (Bool.eq_false_iff.2 fun hx => by
        rw [contains_after_setParents edit hx] at hgone
        cases hgone)
      exact ⟨stage, r, (List.suffix_cons _ _).trans hsuffix, hdisplaces, hchain⟩

theorem Staged.skip (hs : Staged p plan (t :: rest) s) (hown : plan.linksFor? t = none) : Staged p plan rest s where
  toRegular := hs.toRegular
  link hq hlink := by
    obtain ⟨q', hy, hplanned⟩ := hs.link hq hlink
    exact ⟨q', hy, (Plan.link_tail_iff (.inr hown)).2 hplanned⟩
  missing hq hgone := by
    obtain ⟨stage, r, hsuffix, hdisplaces, hchain⟩ := hs.missing hq hgone
    exact ⟨stage, r, (List.suffix_cons _ _).trans hsuffix, hdisplaces, hchain⟩

theorem staged_start (hp : p.target.Consistent) (hcounted : p.target.Counted) :
    Staged p plan (plan.relabels.map (·.1)) (.start p.target) where
  toRegular := regular_start hp hcounted
  link {q x c y} hq hlink := by
    obtain ⟨rfl, hx⟩ := Applying.names_start_iff.1 hq
    obtain ⟨n, hn, hmem⟩ := hlink
    refine ⟨.target y, ⟨(hp.parent hn hmem).1, rfl⟩, .own (links?_eq_some_iff.2 ⟨n, hn, rfl⟩) hmem ?_⟩
    cases hlinks : plan.linksFor? x with
    | none => exact .inr rfl
    | some links => exact .inl (Plan.mem_relabels_of_linksFor? hlinks)
  missing hq hgone := by
    have hgone' : p.target.contains _ = false := hgone
    rw [(Applying.names_start_iff.1 hq).2] at hgone'
    cases hgone'

theorem Plan.Early.not_follow (h : plan.Early p pending d) (id : EntityId) (rename : Rename) : d ≠ .follow id rename := by
  rintro rfl
  exact h

/-- **Every state underway is staged.** -/
theorem Underway.staged (hplan : plan.Rests p) (hp : p.target.Consistent) (hcounted : p.target.Counted)
    (h : Underway p plan pending s) : Staged p plan pending s := by
  induction h with
  | start => exact staged_start hp hcounted
  | deed _ act early ih =>
    have hregular := act.regular hplan early.not_follow ih.toRegular
    cases act with
    | cut operation edit copies => exact ih.cut hplan hregular early (.cut operation edit copies)
    | copy addition new found resolved edit copies =>
      exact ih.copy hplan hregular (.copy addition new found resolved edit copies)
    | give _ _ edit copies => exact ih.of_sameLinks hregular copies (modify_ok edit).2
    | move => exact early.elim
    | attach _ edit copies => exact ih.of_sameLinks hregular copies (setExternal_ok edit)
    | follow => exact early.elim
    | count graph copies => exact ih.of_sameLinks hregular copies (graph ▸ .refl _)
  | move before act ih =>
    exact ih.move hplan before.notMem (act.regular hplan (fun _ _ h => by cases h) ih.toRegular) act
  | skip _ own ih => exact ih.skip own

/-! ## What a state underway holds -/

theorem Regular.bears_of_resolve (hs : Regular p plan s) {k : NaturalKey} (hq : s.Names p.target q x)
    (h : s.graph.resolve k = some x) : ∃ e, plan.Bears p q e ∧ p.target.schema.naturalKey? e = some k := by
  obtain ⟨e, he, hkey⟩ := hs.consistent.owner_iff.1 h
  exact ⟨e, hs.data hq he, hs.schema ▸ hkey⟩

theorem Regular.resolve_target (hplan : plan.Rests p) (hp : p.target.Consistent) (hs : Regular p plan s) {k : NaturalKey}
    (ht : p.target.contains t = true) (h : s.graph.resolve k = some t) : p.target.resolve k = some t := by
  obtain ⟨e, hbears, hkey⟩ := hs.bears_of_resolve (q := .target t) ⟨ht, rfl⟩ h
  obtain ⟨e₀, he₀⟩ := exists_entity ht
  rw [hp.owner_iff]
  exact ⟨e₀, entity_ok_iff_data.1 he₀, (hbears.key_eq hplan.keys he₀).2.symm.trans hkey⟩

theorem Staged.hasLink_of_removed (hs : Staged p plan pending s) (ht : p.target.contains r = true)
    (hop : plan.operations.get? r = some .remove) (h : s.graph.HasLink r c y) :
    s.Names p.target (.target y) y ∧ p.target.HasLink r c y := by
  obtain ⟨q', hy, hlink⟩ := hs.link (q := .target r) ⟨ht, rfl⟩ h
  cases hlink with
  | own there link _ =>
    obtain ⟨hthere, rfl⟩ := hy
    obtain ⟨n, hn, rfl⟩ := links?_eq_some_iff.1 there
    exact ⟨⟨hthere, rfl⟩, n, hn, link⟩
  | given _ planned _ =>
    rw [Plan.linksFor?, hop] at planned
    cases planned

end Reconciliation
