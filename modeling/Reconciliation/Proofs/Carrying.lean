import Reconciliation.Proofs.Edits
import Reconciliation.Proofs.Sound
import Reconciliation.Apply
/-!
# Carrying out a plan, link by link

While a plan is carried out, the graph consists of what the target held before and of copies.  Every entity in it has
the required links that the plan gives it, or its own for as long as its relabel is still to come (`Plan.Link`), and
what is missing is missing because it hangs, link by link, on something that the plan removes (`Plan.Doomed`).  The
invariant `Carrying` says this of every state on the way.  Four moves change a state: something is removed with what
requires it, an addition is copied, a relabel gives links, a relabel gives none.
-/
namespace Reconciliation

open Relation

namespace Plan

/-- The links that a plan gives a target entity, if it gives it any. -/
def linksFor? (plan : Plan) (t : EntityId) : Option PlannedLinks :=
  match plan.operations.get? t with
  | some (.relabel _ links) => links
  | _ => none

/-- **The links of an entity when a plan is carried out**, except for the relabels of `pending`: its own in the target
as it was, unless the plan gives it others. -/
inductive Link (plan : Plan) (target : Graph) (pending : List EntityId) :
    PlannedParent → Connection → PlannedParent → Prop
  | own {t : EntityId} {links : List Reconciliation.Link} {c : Connection} {parent : EntityId}
    (there : target.links? t = some links) (link : (c, parent) ∈ links)
    (stays : t ∈ pending ∨ plan.linksFor? t = none) : Link plan target pending (.target t) c (.target parent)
  | given {t : EntityId} {links : PlannedLinks} {c : Connection} {parent : PlannedParent} (settled : t ∉ pending)
    (planned : plan.linksFor? t = some links) (link : (c, parent) ∈ links) : Link plan target pending (.target t) c parent
  | added {a : Addition} {c : Connection} {parent : PlannedParent} (addition : a ∈ plan.additions)
    (link : (c, parent) ∈ a.links.getD []) : Link plan target pending (.added a.incoming) c parent

/-- **What a plan makes go**: what it removes, and what then lacks a parent that it requires. -/
inductive Doomed (plan : Plan) (target : Graph) : PlannedParent → Prop
  | removed {t : EntityId} (operation : plan.operations.get? t = some .remove) : Doomed plan target (.target t)
  | requires {x : PlannedParent} {c : Connection} {parent : PlannedParent} (link : plan.Link target [] x c parent)
    (required : c.isRequired = true) (doomed : Doomed plan target parent) : Doomed plan target x

/-- A plan speaks of entities that are there, and adds each at most once. -/
structure Fits (plan : Plan) (p : Pass) : Prop where
  operations : ∀ {t o}, plan.operations.get? t = some o → p.target.contains t = true
  given : ∀ {t}, ThereAll p (plan.linksFor? t)
  added : ∀ {a}, a ∈ plan.additions → ThereAll p a.links
  additions : (plan.additions.map Addition.incoming).Nodup

variable {plan : Plan} {target : Graph} {t i : EntityId} {pending rest : List EntityId} {x parent : PlannedParent}
  {c : Connection}

theorem linksFor?_of_relabel {links : Option PlannedLinks} (h : plan.operations.get? t = some (.relabel i links)) :
    plan.linksFor? t = links := by rw [linksFor?, h]

theorem linksFor?_eq_some_iff {links : PlannedLinks} :
    plan.linksFor? t = some links ↔ ∃ i, plan.operations.get? t = some (.relabel i (some links)) := by
  refine ⟨fun h => ?_, fun ⟨i, h⟩ => linksFor?_of_relabel h⟩
  rw [linksFor?] at h
  split at h
  · next i links' hop => exact ⟨i, h ▸ hop⟩
  · cases h

theorem Fits.there {p : Pass} {links : PlannedLinks} (hplan : plan.Fits p)
    (h : plan.operations.get? t = some (.relabel i (some links))) : ∀ l ∈ links, l.2.There p := by
  have hall := hplan.given (t := t)
  rwa [linksFor?_of_relabel h] at hall

/-- Once the relabels are made the links are final, except for those still to be relabelled. -/
theorem Link.settled (h : plan.Link target pending x c parent) :
    plan.Link target [] x c parent ∨ ∃ u ∈ pending, x = .target u := by
  cases h with
  | @own t _ _ _ there link stays =>
    rcases stays with hp | hnone
    · exact .inr ⟨t, hp, rfl⟩
    · exact .inl (.own there link (.inr hnone))
  | given _ planned link => exact .inl (.given List.not_mem_nil planned link)
  | added addition link => exact .inl (.added addition link)

theorem link_tail_iff (hx : x ≠ .target t ∨ plan.linksFor? t = none) :
    plan.Link target rest x c parent ↔ plan.Link target (t :: rest) x c parent := by
  constructor
  · rintro (⟨there, link, stays⟩ | ⟨settled, planned, link⟩ | ⟨addition, link⟩)
    · exact .own there link (stays.imp (List.mem_cons_of_mem _) id)
    · refine .given (fun hmem => ?_) planned link
      rcases List.mem_cons.1 hmem with rfl | hmem
      · rcases hx with hx | hx
        · exact hx rfl
        · rw [planned] at hx
          cases hx
      · exact settled hmem
    · exact .added addition link
  · rintro (⟨there, link, stays⟩ | ⟨settled, planned, link⟩ | ⟨addition, link⟩)
    · refine .own there link ?_
      rcases stays with hmem | hnone
      · rcases List.mem_cons.1 hmem with rfl | hmem
        · exact .inr (hx.resolve_left fun hne => hne rfl)
        · exact .inl hmem
      · exact .inr hnone
    · exact .given (fun hmem => settled (List.mem_cons_of_mem _ hmem)) planned link
    · exact .added addition link

theorem link_target_iff {links : PlannedLinks} (ht : t ∉ pending) (hlinks : plan.linksFor? t = some links) :
    plan.Link target pending (.target t) c parent ↔ (c, parent) ∈ links := by
  constructor
  · rintro (⟨-, -, stays⟩ | ⟨-, planned, link⟩)
    · rcases stays with hmem | hnone
      · exact absurd hmem ht
      · rw [hlinks] at hnone
        cases hnone
    · rwa [Option.some.inj (hlinks.symm.trans planned)]
  · exact .given ht hlinks

theorem link_added_iff (hnodup : (plan.additions.map Addition.incoming).Nodup) {a : Addition}
    (ha : a ∈ plan.additions) :
    plan.Link target pending (.added a.incoming) c parent ↔ (c, parent) ∈ a.links.getD [] := by
  constructor
  · intro hlink
    generalize hi : PlannedParent.added a.incoming = x at hlink
    cases hlink with
    | own | given => cases hi
    | added ha' link => rwa [List.inj_on_of_nodup_map hnodup ha ha' (PlannedParent.added.inj hi)]
  · exact .added ha

/-- **A doomed target entity hangs on a removed one by required links of the target as it was**, or it hangs by such
links on one to which the plan gives a required parent that goes. -/
theorem Doomed.chain (h : plan.Doomed target (.target t)) :
    (∃ r, plan.operations.get? r = some .remove ∧ ReflTransGen target.IsRequiredParent r t) ∨
      ∃ u links c parent, plan.linksFor? u = some links ∧ (c, parent) ∈ links ∧ c.isRequired = true ∧
        plan.Doomed target parent ∧ ReflTransGen target.IsRequiredParent u t := by
  generalize hx : PlannedParent.target t = x at h
  induction h generalizing t with
  | removed operation =>
    obtain rfl := PlannedParent.target.inj hx
    exact .inl ⟨t, operation, .refl⟩
  | requires link required doomed ih =>
    subst hx
    cases link with
    | own there link stays =>
      have hstep := Graph.isRequiredParent_iff.2 ⟨_, _, there, link, required⟩
      rcases ih rfl with ⟨r, hr, hreach⟩ | ⟨u, links, c, parent, hu, hlink, hreq, hdoomed, hreach⟩
      · exact .inl ⟨r, hr, hreach.tail hstep⟩
      · exact .inr ⟨u, links, c, parent, hu, hlink, hreq, hdoomed, hreach.tail hstep⟩
    | given _ planned link => exact .inr ⟨t, _, _, _, planned, link, required, doomed, .refl⟩

end Plan

/-! ## What is known on the way -/

/-- The entity that a planned parent stands for, so far. -/
def Applying.Names (s : Applying) (target : Graph) : PlannedParent → EntityId → Prop
  | .target t, x => target.contains t = true ∧ x = t
  | .added i, x => s.copies.get? i = some x

theorem Applying.names_congr (target : Graph) {s s' : Applying} (h : s'.copies = s.copies) :
    s'.Names target = s.Names target := by
  funext q x
  cases q with
  | target t => rfl
  | added i => rw [Applying.Names, Applying.Names, h]

theorem Applying.names_insert_iff {s s' : Applying} {target : Graph} {i x y : EntityId} {q : PlannedParent}
    (hcopies : s'.copies = s.copies.insert i x) (hnew : s.copies.get? i = none) :
    s'.Names target q y ↔ s.Names target q y ∨ q = .added i ∧ y = x := by
  cases q with
  | target t => simp [Applying.Names]
  | added j =>
    rw [Applying.Names, Applying.Names, hcopies, SortedMap.get?_insert, PlannedParent.added.injEq]
    split
    · next h => simp [h, hnew, eq_comm]
    · next h => simp [h]

/-- Two states have the same links and the same copies. -/
def Applying.SameLinks (s s' : Applying) : Prop := s.graph.SameLinks s'.graph ∧ s'.copies = s.copies

theorem Applying.SameLinks.refl (s : Applying) : s.SameLinks s := ⟨.refl _, rfl⟩

theorem Applying.SameLinks.trans {s s₁ s₂ : Applying} (h : s.SameLinks s₁) (h' : s₁.SameLinks s₂) : s.SameLinks s₂ :=
  ⟨h.1.trans h'.1, h'.2.trans h.2⟩

/-- Links to entities are planned links: the same connections, to what the planned parents stand for. -/
def Applying.Realizes (s : Applying) (target : Graph) (links : PlannedLinks) (parents : List Link) : Prop :=
  (∀ {c x}, (c, x) ∈ parents → ∃ q, (c, q) ∈ links ∧ s.Names target q x) ∧
    ∀ {c q}, (c, q) ∈ links → ∃ x, (c, x) ∈ parents ∧ s.Names target q x

/-- **What the entities of a state are called.**  Each stands for one planned parent, and ids are not given twice. -/
structure Naming (plan : Plan) (target : Graph) (s : Applying) : Prop where
  named : ∀ {x}, s.graph.contains x = true → ∃ q, s.Names target q x
  unique : ∀ {q q' x}, s.Names target q x → s.Names target q' x → q = q'
  below : ∀ {q x}, s.Names target q x → x.index.toNat < (s.graph.nextIndex x.kind).toNat
  copied : ∀ {i}, s.copies.contains i = true → i ∈ plan.additions.map Addition.incoming

/-- **Every state on the way**, when the relabels of `pending` are still to come.  Each entity has the required links
that the plan gives it, to parents that are there.  What is missing is doomed, unless a relabel still to come is missing
its entity. -/
structure Carrying (plan : Plan) (target : Graph) (pending : List EntityId) (s : Applying) : Prop
    extends Naming plan target s where
  linked : ∀ {q x links c q'}, s.Names target q x → s.graph.links? x = some links → c.isRequired = true →
    (plan.Link target pending q c q' ↔ ∃ y, (c, y) ∈ links ∧ s.Names target q' y)
  there : ∀ {x links c y}, s.graph.links? x = some links → (c, y) ∈ links → c.isRequired = true →
    s.graph.contains y = true
  missing : ∀ {q x}, s.Names target q x → s.graph.contains x = false →
    plan.Doomed target q ∨ ∃ u ∈ pending, s.graph.contains u = false

variable {plan : Plan} {target : Graph} {pending rest : List EntityId} {s s' : Applying}

theorem realizes_of_linksOf? {p : Pass} : ∀ {links : PlannedLinks} {parents : List Link},
    (∀ l ∈ links, l.2.There p) → s.linksOf? links = some parents → s.Realizes p.target links parents
  | [], _, _, h => by
    obtain rfl := Option.some.inj h
    exact ⟨fun h => (by cases h), fun h => (by cases h)⟩
  | (c, q) :: rest, parents, hthere, h => by
    obtain ⟨hq, hrest⟩ := List.forall_mem_cons.1 hthere
    obtain ⟨x, tail, hx, htail, rfl⟩ : ∃ x tail, s.Names p.target q x ∧ s.linksOf? rest = some tail ∧
        (c, x) :: tail = parents := by
      cases q with
      | target t =>
        obtain ⟨tail, htail, rfl⟩ := Option.map_eq_some_iff.1 h
        exact ⟨t, tail, ⟨hq, rfl⟩, htail, rfl⟩
      | added i =>
        rw [Applying.linksOf?] at h
        cases hi : s.copies.get? i with
        | none => rw [hi] at h; cases h
        | some x =>
          rw [hi] at h
          obtain ⟨tail, htail, rfl⟩ := Option.map_eq_some_iff.1 h
          exact ⟨x, tail, hi, htail, rfl⟩
    obtain ⟨hto, hfrom⟩ := realizes_of_linksOf? hrest htail
    constructor
    · intro c' x' hmem
      rcases List.mem_cons.1 hmem with heq | hmem
      · obtain ⟨rfl, rfl⟩ := Prod.mk.inj heq
        exact ⟨q, List.mem_cons_self, hx⟩
      · obtain ⟨q', hq', hx'⟩ := hto hmem
        exact ⟨q', List.mem_cons_of_mem _ hq', hx'⟩
    · intro c' q' hmem
      rcases List.mem_cons.1 hmem with heq | hmem
      · obtain ⟨rfl, rfl⟩ := Prod.mk.inj heq
        exact ⟨x, List.mem_cons_self, hx⟩
      · obtain ⟨x', hx', hn⟩ := hfrom hmem
        exact ⟨x', List.mem_cons_of_mem _ hx', hn⟩

namespace Naming

theorem less (hs : Naming plan target s) (hcopies : s'.copies = s.copies)
    (hless : ∀ {x}, s'.graph.contains x = true → s.graph.contains x = true)
    (hcounters : ∀ kind, s'.graph.nextIndex kind = s.graph.nextIndex kind) : Naming plan target s' := by
  have hnames := Applying.names_congr target hcopies
  refine ⟨fun {x} hx => ?_, ?_, fun {q x} hx => ?_, ?_⟩
  · rw [hnames]
    exact hs.named (hless hx)
  · rw [hnames]
    exact hs.unique
  · rw [hcounters]
    exact hs.below (hnames ▸ hx)
  · rw [hcopies]
    exact hs.copied

theorem realized_iff (hs : Naming plan target s) {links : PlannedLinks} {parents : List Link}
    (hparents : s.Realizes target links parents) {c : Connection} {q : PlannedParent} :
    (∃ y, (c, y) ∈ parents ∧ s.Names target q y) ↔ (c, q) ∈ links := by
  constructor
  · rintro ⟨y, hmem, hy⟩
    obtain ⟨q', hlink, hy'⟩ := hparents.1 hmem
    rwa [hs.unique hy hy']
  · exact hparents.2

theorem unnamed (hs : Naming plan target s) (kind : Kind) {q : PlannedParent} :
    ¬s.Names target q ⟨kind, s.graph.nextIndex kind⟩ := fun hq => Nat.lt_irrefl _ (hs.below hq)

theorem copy (hs : Naming plan target s) {i : EntityId} {kind : Kind} (hi : i ∈ plan.additions.map Addition.incoming)
    (hnew : s.copies.get? i = none) (hindex : (s.graph.nextIndex kind).toNat + 1 < UInt32.size)
    (hcopies : s'.copies = s.copies.insert i ⟨kind, s.graph.nextIndex kind⟩)
    (hcontains : ∀ y, y ≠ ⟨kind, s.graph.nextIndex kind⟩ → s'.graph.contains y = s.graph.contains y)
    (hcounters : ∀ k, s'.graph.nextIndex k = if k = kind then s.graph.nextIndex k + 1 else s.graph.nextIndex k) :
    Naming plan target s' := by
  have hcopied : ∀ j, s'.copies.contains j = true → j ∈ plan.additions.map Addition.incoming := by
    intro j hj
    obtain ⟨y, hy⟩ := SortedMap.contains_iff.1 hj
    rw [hcopies, SortedMap.get?_insert] at hy
    split at hy
    · next h => rwa [h]
    · exact hs.copied (SortedMap.contains_iff.2 ⟨y, hy⟩)
  have hnext : ∀ k, (s'.graph.nextIndex k).toNat =
      if k = kind then (s.graph.nextIndex k).toNat + 1 else (s.graph.nextIndex k).toNat := fun k => by
    rw [hcounters]
    split
    · next h => rw [h]; exact Graph.toNat_nextIndex hindex
    · rfl
  have hnames : ∀ q y, s'.Names target q y ↔ s.Names target q y ∨ q = .added i ∧ y = ⟨kind, s.graph.nextIndex kind⟩ :=
    fun q y => Applying.names_insert_iff hcopies hnew
  refine ⟨fun {y} hy => ?_, fun {q q' y} hq hq' => ?_, fun {q y} hq => ?_, hcopied _⟩
  · by_cases hyx : y = ⟨kind, s.graph.nextIndex kind⟩
    · exact ⟨.added i, (hnames _ _).2 (.inr ⟨rfl, hyx⟩)⟩
    · obtain ⟨q, hq⟩ := hs.named ((hcontains y hyx).symm.trans hy)
      exact ⟨q, (hnames _ _).2 (.inl hq)⟩
  · rcases (hnames _ _).1 hq with hq | ⟨rfl, rfl⟩
    · rcases (hnames _ _).1 hq' with hq' | ⟨rfl, rfl⟩
      · exact hs.unique hq hq'
      · exact absurd hq (hs.unnamed kind)
    · exact ((hnames _ _).1 hq').elim (fun hq' => absurd hq' (hs.unnamed kind)) fun h => h.1.symm
  · rw [hnext]
    rcases (hnames _ _).1 hq with hq | ⟨-, rfl⟩
    · have hlt := hs.below hq
      split <;> omega
    · simp

end Naming

namespace Carrying

theorem same (hs : Carrying plan target pending s) (h : s.SameLinks s') : Carrying plan target pending s' := by
  obtain ⟨hlinks, hcopies⟩ := h
  have hnames := Applying.names_congr target hcopies
  refine ⟨hs.less hcopies (fun {x} hx => (hlinks.contains x).symm.trans hx) hlinks.counters, ?_, ?_, ?_⟩
  · intro q x links c q' hx hx' hc
    rw [hlinks.links] at hx'
    rw [hnames] at hx ⊢
    exact hs.linked hx hx' hc
  · intro x links c y hx hy hc
    rw [hlinks.links] at hx
    rw [hlinks.contains]
    exact hs.there hx hy hc
  · intro q x hx hgone
    rw [hlinks.contains] at hgone
    rcases hs.missing (hnames ▸ hx) hgone with hd | ⟨u, hu, hu'⟩
    · exact .inl hd
    · exact .inr ⟨u, hu, (hlinks.contains u).trans hu'⟩

/-- Whoever goes with a removed entity is doomed, unless the relabel of one that goes is still to come. -/
theorem doomed_of_closure (hs : Carrying plan target pending s) {r x : EntityId}
    (hr : plan.operations.get? r = some .remove) (hname : s.Names target (.target r) r)
    (hreach : ReflTransGen s.graph.IsRequiredParent r x) :
    ∃ q, s.Names target q x ∧ (plan.Doomed target q ∨ ∃ u ∈ pending, u ∈ s.graph.requiredClosure r) := by
  induction hreach with
  | refl => exact ⟨.target r, hname, .inl (.removed hr)⟩
  | @tail z w hreach hstep ih =>
    obtain ⟨qz, hz, hdoomed⟩ := ih
    obtain ⟨links, c, hlinks, hmem, hreq⟩ := Graph.isRequiredParent_iff.1 hstep
    obtain ⟨qw, hw⟩ := hs.named (Graph.contains_iff_links.2 ⟨links, hlinks⟩)
    refine ⟨qw, hw, ?_⟩
    rcases hdoomed with hdoomed | hpending
    · rcases ((hs.linked hw hlinks hreq).2 ⟨z, hmem, hz⟩).settled with hlink | ⟨u, hu, rfl⟩
      · exact .inl (.requires hlink hreq hdoomed)
      · obtain ⟨-, rfl⟩ := hw
        exact .inr ⟨w, hu, Graph.mem_requiredClosure_iff.2 (hreach.tail hstep)⟩
    · exact .inr hpending

theorem cut (hs : Carrying plan target pending s) {r : EntityId} {gone : List EntityId}
    (hr : plan.operations.get? r = some .remove) (hthere : target.contains r = true)
    (hremove : Graph.remove r s.graph = .ok gone s'.graph) (hcopies : s'.copies = s.copies) :
    Carrying plan target pending s' := by
  obtain ⟨rfl, hcut⟩ := Graph.remove_ok hremove
  have hnames := Applying.names_congr target hcopies
  -- what is left had the same required links before, to what is left
  have hback : ∀ {x links'}, s'.graph.links? x = some links' → ∃ links, s.graph.links? x = some links ∧
      ∀ {c y}, c.isRequired = true → ((c, y) ∈ links' ↔ (c, y) ∈ links) ∧
        ((c, y) ∈ links → y ∉ s.graph.requiredClosure r) := by
    intro x links' hx
    cases hlinks : s.graph.links? x with
    | none =>
      rw [hcut.absent hlinks] at hx
      cases hx
    | some links =>
      have hstays : x ∉ s.graph.requiredClosure r := fun hmem => by
        rw [hcut.taken hmem] at hx
        cases hx
      obtain ⟨links'', hx', hsub, hkeep⟩ := hcut.kept hstays hlinks
      obtain rfl := Option.some.inj (hx.symm.trans hx')
      refine ⟨links, rfl, fun {c y} hreq => ?_⟩
      have hparent : (c, y) ∈ links → y ∉ s.graph.requiredClosure r := fun hmem hy => by
        have hstep := Graph.isRequiredParent_iff.2 ⟨links, c, hlinks, hmem, hreq⟩
        exact hstays (Graph.mem_requiredClosure_iff.2 ((Graph.mem_requiredClosure_iff.1 hy).tail hstep))
      exact ⟨⟨hsub _, fun hmem => hkeep _ hmem (hparent hmem)⟩, hparent⟩
  have hleft : ∀ {x}, s.graph.contains x = false → s'.graph.contains x = false := fun {x} hx =>
    Graph.contains_eq_false_iff_links.2 (hcut.absent (Graph.contains_eq_false_iff_links.1 hx))
  refine ⟨hs.less hcopies (fun hx => (hcut.contains_iff.1 hx).1) hcut.counters, ?_, ?_, ?_⟩
  · intro q x links' c q' hx hlinks' hreq
    obtain ⟨links, hlinks, hsame⟩ := hback hlinks'
    rw [hnames] at hx ⊢
    rw [hs.linked hx hlinks hreq]
    exact exists_congr fun y => and_congr_left' (hsame hreq).1.symm
  · intro x links' c y hlinks' hmem hreq
    obtain ⟨links, hlinks, hsame⟩ := hback hlinks'
    have hmem' := (hsame hreq).1.1 hmem
    exact hcut.contains_iff.2 ⟨hs.there hlinks hmem' hreq, (hsame hreq).2 hmem'⟩
  · intro q x hx hmissing
    rw [hnames] at hx
    by_cases hbefore : s.graph.contains x = true
    · -- what goes now hangs on the removed entity
      have hmem : x ∈ s.graph.requiredClosure r := by
        by_contra hnot
        rw [hcut.contains_iff.2 ⟨hbefore, hnot⟩] at hmissing
        cases hmissing
      obtain ⟨q', hq', hdoomed⟩ := hs.doomed_of_closure hr ⟨hthere, rfl⟩ (Graph.mem_requiredClosure_iff.1 hmem)
      obtain rfl := hs.unique hx hq'
      rcases hdoomed with hd | ⟨u, hu, hu'⟩
      · exact .inl hd
      · exact .inr ⟨u, hu, Graph.contains_eq_false_iff_links.2 (hcut.taken hu')⟩
    · rcases hs.missing hx (by simpa using hbefore) with hd | ⟨u, hu, hu'⟩
      · exact .inl hd
      · exact .inr ⟨u, hu, hleft hu'⟩

theorem skip {t : EntityId} (hs : Carrying plan target (t :: rest) s) (ht : plan.linksFor? t = none)
    (hthere : s.graph.contains t = true) : Carrying plan target rest s where
  toNaming := hs.toNaming
  linked hx hlinks hreq := (Plan.link_tail_iff (.inr ht)).trans (hs.linked hx hlinks hreq)
  there := hs.there
  missing hx hgone := by
    rcases hs.missing hx hgone with hd | ⟨u, hu, hu'⟩
    · exact .inl hd
    · rcases List.mem_cons.1 hu with rfl | hu
      · rw [hthere] at hu'
        cases hu'
      · exact .inr ⟨u, hu, hu'⟩

theorem move {t : EntityId} {links : PlannedLinks} {parents : List Link} (hs : Carrying plan target (t :: rest) s)
    (ht : t ∉ rest) (hthere : target.contains t = true) (hlinks : plan.linksFor? t = some links)
    (hparents : s.Realizes target links parents) (hset : Graph.setParents t parents s.graph = .ok () s'.graph)
    (hcopies : s'.copies = s.copies) : Carrying plan target rest s' := by
  obtain ⟨hpresent, hknown, hafter, hcounters⟩ := Graph.setParents_ok hset
  have hnames := Applying.names_congr target hcopies
  have hcontains : ∀ x, s'.graph.contains x = s.graph.contains x := fun x => by
    rw [← Graph.links?_isSome, ← Graph.links?_isSome, hafter]
    split
    · next h =>
      subst h
      obtain ⟨before, hbefore⟩ := Graph.contains_iff_links.1 hpresent
      rw [hbefore]
      rfl
    · rfl
  refine ⟨hs.less hcopies (fun {x} hx => (hcontains x).symm.trans hx) hcounters, ?_, ?_, ?_⟩
  · intro q x links' c q' hx hx' hreq
    rw [hnames] at hx ⊢
    -- the entity itself has the planned links from now on, and any other the links that it had
    rw [hafter] at hx'
    split at hx'
    · next h =>
      subst h
      have hself : s.Names target (.target x) x := ⟨hthere, rfl⟩
      obtain rfl := hs.unique hx hself
      obtain rfl := Option.some.inj hx'
      simp only [Graph.mem_inDeclarationOrder]
      exact (Plan.link_target_iff ht hlinks).trans (hs.realized_iff hparents).symm
    · next h =>
      have hne : q ≠ .target t := by
        rintro rfl
        exact h hx.2
      exact (Plan.link_tail_iff (.inl hne)).trans (hs.linked hx hx' hreq)
  · intro x links' c y hx hmem hreq
    rw [hcontains]
    rw [hafter] at hx
    split at hx
    · obtain rfl := Option.some.inj hx
      exact hknown _ (Graph.mem_inDeclarationOrder.1 hmem)
    · exact hs.there hx hmem hreq
  · intro q x hx hgone
    rw [hcontains] at hgone
    rcases hs.missing (hnames ▸ hx) hgone with hd | ⟨u, hu, hu'⟩
    · exact .inl hd
    · rcases List.mem_cons.1 hu with rfl | hu
      · rw [hpresent] at hu'
        cases hu'
      · exact .inr ⟨u, hu, (hcontains u).trans hu'⟩

theorem copy {a : Addition} {data : Entity} {parents : List Link} {x : EntityId} (hs : Carrying plan target pending s)
    (hnodup : (plan.additions.map Addition.incoming).Nodup)
    (hpending : ∀ u ∈ pending, target.contains u = true) (ha : a ∈ plan.additions)
    (hnew : s.copies.get? a.incoming = none) (hparents : s.Realizes target (a.links.getD []) parents)
    (hadd : Graph.add data parents s.graph = .ok x s'.graph)
    (hcopies : s'.copies = s.copies.insert a.incoming x) : Carrying plan target pending s' := by
  have hindex := (Graph.insertEntity_of_add hadd).2.1
  obtain ⟨rfl, hknown, hafter, hcounters⟩ := Graph.add_ok hadd
  have hfresh : ∀ {q}, ¬s.Names target q ⟨data.kind, s.graph.nextIndex data.kind⟩ := hs.unnamed data.kind
  generalize hx : (⟨data.kind, s.graph.nextIndex data.kind⟩ : EntityId) = x at hcopies hafter hfresh
  have habsent : s.graph.contains x = false := by
    by_contra h
    obtain ⟨q, hq⟩ := hs.named (by simpa using h)
    exact hfresh hq
  have hcontains : ∀ y, y ≠ x → s'.graph.contains y = s.graph.contains y := fun y hy => by
    rw [← Graph.links?_isSome, ← Graph.links?_isSome, hafter, if_neg hy]
  have hstill : ∀ {y}, s.graph.contains y = true → s'.graph.contains y = true := fun {y} hy => by
    rw [hcontains y fun heq => by rw [heq, habsent] at hy; cases hy]
    exact hy
  have hnames : ∀ {q y}, s'.Names target q y ↔ s.Names target q y ∨ q = .added a.incoming ∧ y = x :=
    Applying.names_insert_iff hcopies hnew
  -- a parent that was there is called what it was called before
  have hparent : ∀ {q y}, s.graph.contains y = true → (s'.Names target q y ↔ s.Names target q y) := fun {q y} hy => by
    rw [hnames, or_iff_left]
    rintro ⟨-, rfl⟩
    rw [hy] at habsent
    cases habsent
  have hnaming : Naming plan target s' := by
    subst hx
    exact hs.toNaming.copy (List.mem_map_of_mem ha) hnew hindex hcopies hcontains hcounters
  refine ⟨hnaming, ?_, ?_, ?_⟩
  · intro q y links c q' hq hlinks hreq
    rw [hafter] at hlinks
    split at hlinks
    · next h =>
      subst h
      obtain ⟨rfl, -⟩ := (hnames.1 hq).resolve_left hfresh
      obtain rfl := Option.some.inj hlinks
      simp only [Graph.mem_inDeclarationOrder]
      rw [Plan.link_added_iff hnodup ha, ← hs.realized_iff hparents]
      exact exists_congr fun z => and_congr_right fun hmem => (hparent (hknown _ hmem)).symm
    · next h =>
      rw [hs.linked ((hnames.1 hq).resolve_right fun heq => h heq.2) hlinks hreq]
      exact exists_congr fun z => and_congr_right fun hmem => (hparent (hs.there hlinks hmem hreq)).symm
  · intro y links c z hlinks hmem hreq
    rw [hafter] at hlinks
    split at hlinks
    · obtain rfl := Option.some.inj hlinks
      exact hstill (hknown _ (Graph.mem_inDeclarationOrder.1 hmem))
    · exact hstill (hs.there hlinks hmem hreq)
  · intro q y hq hgone
    have hne : y ≠ x := by
      rintro rfl
      rw [← Graph.links?_isSome, hafter, if_pos rfl] at hgone
      cases hgone
    rw [hcontains y hne] at hgone
    rcases hs.missing ((hnames.1 hq).resolve_right fun heq => hne heq.2) hgone with hd | ⟨u, hu, hu'⟩
    · exact .inl hd
    · have hux : u ≠ x := by
        rintro rfl
        exact hfresh (q := .target u) ⟨hpending u hu, rfl⟩
      exact .inr ⟨u, hu, (hcontains u hux).trans hu'⟩

/-- **What is missing in the end is what is doomed.** -/
theorem missing_iff (hs : Carrying plan target [] s)
    (hremoved : ∀ r, plan.operations.get? r = some .remove → s.graph.contains r = false) {q : PlannedParent}
    {x : EntityId} (hx : s.Names target q x) : s.graph.contains x = false ↔ plan.Doomed target q := by
  constructor
  · intro hgone
    exact (hs.missing hx hgone).resolve_right fun ⟨u, hu, _⟩ => by cases hu
  · intro hdoomed
    induction hdoomed generalizing x with
    | removed operation =>
      obtain ⟨-, rfl⟩ := hx
      exact hremoved x operation
    | requires link required _ ih =>
      by_contra hpresent
      obtain ⟨links, hlinks⟩ := Graph.contains_iff_links.1 (Bool.not_eq_false _ ▸ hpresent)
      obtain ⟨y, hmem, hy⟩ := (hs.linked hx hlinks required).1 link
      have hthere := hs.there hlinks hmem required
      rw [ih hy] at hthere
      cases hthere

end Carrying

theorem Plan.mem_relabels_of_linksFor? {t : EntityId} {links : PlannedLinks} (h : plan.linksFor? t = some links) :
    t ∈ plan.relabels.map (·.1) := by
  obtain ⟨i, hop⟩ := linksFor?_eq_some_iff.1 h
  exact List.mem_map.2 ⟨(t, i, some links), mem_relabels_iff.2 hop, rfl⟩

theorem Applying.names_start_iff {q : PlannedParent} {x : EntityId} :
    (Applying.start target).Names target q x ↔ q = .target x ∧ target.contains x = true := by
  cases q with
  | added i => exact ⟨fun h => (by cases h), fun h => (by cases h.1)⟩
  | target t =>
    constructor
    · rintro ⟨ht, rfl⟩
      exact ⟨rfl, ht⟩
    · rintro ⟨heq, hx⟩
      obtain rfl := PlannedParent.target.inj heq
      exact ⟨hx, rfl⟩

theorem naming_start (hcounted : target.Counted) : Naming plan target (.start target) where
  named hx := ⟨_, Applying.names_start_iff.2 ⟨rfl, hx⟩⟩
  unique hq hq' := (Applying.names_start_iff.1 hq).1.trans (Applying.names_start_iff.1 hq').1.symm
  below hq := UInt32.lt_iff_toNat_lt.1 (hcounted _ (Applying.names_start_iff.1 hq).2)
  copied hi := by cases hi

/-- **At the start** every relabel is still to come, and every entity has its own links. -/
theorem carrying_start (plan : Plan) (hg : target.Consistent) (hcounted : target.Counted) :
    Carrying plan target (plan.relabels.map (·.1)) (.start target) where
  toNaming := naming_start hcounted
  linked {q x links c q'} hq hlinks hreq := by
    obtain ⟨rfl, -⟩ := Applying.names_start_iff.1 hq
    constructor
    · intro hlink
      cases hlink with
      | own there link stays =>
        obtain rfl := Option.some.inj (there.symm.trans hlinks)
        obtain ⟨n, hn, rfl⟩ := Graph.links?_eq_some_iff.1 hlinks
        exact ⟨_, link, Applying.names_start_iff.2 ⟨rfl, (hg.parent hn link).1⟩⟩
      | given settled planned link => exact absurd (Plan.mem_relabels_of_linksFor? planned) settled
    · rintro ⟨y, hmem, hy⟩
      obtain ⟨rfl, -⟩ := Applying.names_start_iff.1 hy
      refine .own hlinks hmem ?_
      cases hp : plan.linksFor? x with
      | none => exact .inr rfl
      | some planned => exact .inl (Plan.mem_relabels_of_linksFor? hp)
  there hlinks hmem _ := by
    obtain ⟨n, hn, rfl⟩ := Graph.links?_eq_some_iff.1 hlinks
    exact (hg.parent hn hmem).1
  missing {q x} hq hgone := by
    have hgone' : target.contains x = false := hgone
    rw [(Applying.names_start_iff.1 hq).2] at hgone'
    cases hgone'

end Reconciliation
