import Reconciliation.Proofs.Acts
import Reconciliation.Proofs.Admission
import Reconciliation.Proofs.Placing
import Reconciliation.Proofs.Survival
/-!
# Required parents

The links that a plan gives an entity name each connection at most once, but they may leave out one that the entity
requires (`LeavesOut`).  The links of an accepted target entity leave out none.  Those of another one, and those of an
addition, leave out what leads to a parent that has lost its place, and an addition that goes along with a parent may
also lack the others (`Plan.LinksFit`).

An edit looks at the parents that it is given, so a plan that leaves something out cannot be carried out, and a required
parent is missing only where the plan leaves it out (`planInOrder_leavesOut`).
-/
namespace Reconciliation

open Progress Pass

/-! ## What edits say about required parents -/

/-- A refusal that a single link meets with. -/
def StoreError.OfLink : StoreError → Prop
  | .notFound _ | .unknownConnection _ | .duplicateConnection _ | .kindMismatch _ _ _ | .oneToOneOccupied _ _ => True
  | .keyNotFound _ | .unknownKind _ | .missingRequiredParent _ _ | .duplicateKey _ _ | .parentCycle _ _
  | .indexOverflow _ => False

namespace Graph

variable {g g' : Graph} {id : EntityId} {kind k : Kind} {c : Connection} {links : List Link} {moving : Option EntityId}
  {data : Entity} {cause : StoreError} {u : Unit}

theorem checkLink_error {seen : List Connection} {l : Link} (h : g.checkLink kind moving seen l = .error cause) :
    cause.OfLink := by
  rw [checkLink] at h
  dsimp only at h
  split at h
  · cases h; trivial
  split at h
  · cases h; trivial
  rcases except_bind_error_iff.1 h with hdata | ⟨_, -, h⟩
  · rw [(entity_refused hdata).2]; trivial
  split at h
  · cases h; trivial
  split at h
  · cases h; trivial
  · cases h

theorem checkEachLink_error : ∀ {seen : List Connection} {links : List Link},
    g.checkEachLink kind moving seen links = .error cause → cause.OfLink
  | _, [], h => by cases h
  | _, _ :: _, h => by
    rcases except_bind_error_iff.1 h with hlink | ⟨_, -, hrest⟩
    · exact checkLink_error hlink
    · exact checkEachLink_error hrest

theorem checkLinks_covers (h : g.checkLinks kind links moving = .ok u) (hc : c ∈ g.schema.requiredConnections kind) :
    c ∈ links.map Prod.fst := by
  rw [checkLinks] at h
  split at h
  · cases h
  obtain ⟨_, -, h⟩ := except_bind_ok_iff.1 h
  split at h
  · cases h
  · next hnone => simpa using List.find?_eq_none.1 hnone c hc

theorem checkLinks_error (h : g.checkLinks kind links moving = .error cause) : cause = .unknownKind kind ∨ cause.OfLink ∨
    ∃ c ∈ g.schema.requiredConnections kind, c ∉ links.map Prod.fst ∧ cause = .missingRequiredParent kind c := by
  rw [checkLinks] at h
  split at h
  · exact .inl (Except.error.inj h).symm
  rcases except_bind_error_iff.1 h with heach | ⟨_, -, h⟩
  · exact .inr (.inl (checkEachLink_error heach))
  split at h
  · next c hfind =>
    exact .inr (.inr ⟨c, List.mem_of_find?_eq_some hfind, by simpa using List.find?_some hfind, (Except.error.inj h).symm⟩)
  · cases h

theorem checkLinks_missing (h : g.checkLinks kind links moving = .error (.missingRequiredParent k c)) :
    k = kind ∧ c ∈ g.schema.requiredConnections kind ∧ c ∉ links.map Prod.fst := by
  rcases checkLinks_error h with hcause | hlink | ⟨c', hc, hnot, hcause⟩
  · cases hcause
  · exact hlink.elim
  · obtain ⟨rfl, rfl⟩ := StoreError.missingRequiredParent.inj hcause
    exact ⟨rfl, hc, hnot⟩

theorem add_covers (h : add data links g = .ok id g') (hc : c ∈ g.schema.requiredConnections data.kind) :
    c ∈ links.map Prod.fst := checkLinks_covers (add_ok_iff_checks.1 h).1 hc

theorem setParents_covers (h : setParents id links g = .ok u g') (hc : c ∈ g.schema.requiredConnections id.kind) :
    c ∈ links.map Prod.fst := checkLinks_covers (setParents_ok_iff_checks.1 h).2.1 hc

theorem add_missing (h : add data links g = .error (.missingRequiredParent k c) g') :
    k = data.kind ∧ c ∈ g.schema.requiredConnections data.kind ∧ c ∉ links.map Prod.fst := by
  rcases (add_error_cases h).2 with hlinks | hkey | hindex
  · exact checkLinks_missing hlinks
  · obtain ⟨_, _, -, -, -, hcause⟩ := checkKey_refused hkey
    cases hcause
  · cases (checkIndex_error_iff.1 hindex).2

theorem setParents_missing (h : setParents id links g = .error (.missingRequiredParent k c) g') :
    k = id.kind ∧ c ∈ g.schema.requiredConnections id.kind ∧ c ∉ links.map Prod.fst := by
  rcases (setParents_error_cases h).2 with hnode | hlinks | hacyclic
  · cases (node_refused hnode).2
  · exact checkLinks_missing hlinks
  · obtain ⟨_, -, -, hcause⟩ := checkAcyclic_refused hacyclic
    cases hcause

theorem followRename_error {old new : NaturalKey} : ∀ {ids : List EntityId} {g : Graph},
    followRename old new ids g = .error cause g' → ∃ x, cause = .notFound x
  | [], _, h => by cases h
  | x :: rest, g, h => by
    rw [followRename, get_bind] at h
    rcases ofExcept_bind_error_iff.1 h with ⟨hnode, -⟩ | ⟨n, -, h⟩
    · exact ⟨x, (node_refused hnode).2⟩
    · exact followRename_error (g := g.renameAt old new x) h

theorem modify_fails {change : Entity → Entity} (h : modify id change g = .error cause g') :
    (∃ x, cause = .notFound x) ∨ (∃ old new, cause = .kindMismatch id old new) ∨
      ∃ old k owner, g.entity id = .ok old ∧ g.schema.naturalKey? (change old) = some k ∧ g.resolve k = some owner ∧
        cause = .duplicateKey k owner := by
  rw [modify, get_bind] at h
  rcases ofExcept_bind_error_iff.1 h with ⟨hold, -⟩ | ⟨old, hold, h⟩
  · exact .inl ⟨id, (entity_refused hold).2⟩
  split at h
  · obtain ⟨rfl, -⟩ := EStateM.Result.error.inj h
    exact .inr (.inl ⟨_, _, rfl⟩)
  dsimp only at h
  split at h
  · cases h
  rcases ofExcept_bind_error_iff.1 h with ⟨hkey, -⟩ | ⟨_, -, h⟩
  · obtain ⟨k, owner, hk, howner, -, hcause⟩ := checkKey_refused hkey
    exact .inr (.inr ⟨old, k, owner, hold, hk, howner, hcause⟩)
  rcases bind_error_iff.1 h with hset | ⟨_, g₁, -, h⟩
  · cases hset
  generalize g.schema.naturalKey? old = a at h
  generalize g.schema.naturalKey? (change old) = b at h
  cases a with
  | none => cases h
  | some a =>
    cases b with
    | none => cases h
    | some b => exact .inl (followRename_error h)

theorem modify_error {change : Entity → Entity} (h : modify id change g = .error cause g') :
    cause ≠ .missingRequiredParent k c := by
  rcases modify_fails h with ⟨x, rfl⟩ | ⟨old, new, rfl⟩ | ⟨old, k, owner, -, -, -, rfl⟩
  all_goals simp

end Graph

/-! ## What links leave out -/

/-- A connection that is required of a kind is none of some links. -/
def Pass.LeavesOut (p : Pass) (kind : Kind) (links : PlannedLinks) (c : Connection) : Prop :=
  c ∈ p.target.schema.requiredConnections kind ∧ c ∉ links.map Prod.fst

/-- A plan gives some entity of a kind links that leave out a required connection. -/
def Plan.LeavesOut (p : Pass) (plan : Plan) (kind : Kind) (c : Connection) : Prop :=
  (∃ a ∈ plan.additions, a.incoming.kind = kind ∧ p.LeavesOut kind (a.links.getD []) c) ∨
    ∃ t i links, plan.operations.get? t = some (.relabel i (some links)) ∧ t.kind = kind ∧ p.LeavesOut kind links c

/-- **The links of a plan**: each connection is named once, and what is required and left out leads to a parent that is
lost, unless an addition goes along with another parent. -/
structure Plan.LinksFit (p : Pass) (s : Progress) (plan : Plan) : Prop where
  addedOnce : ∀ {a}, a ∈ plan.additions → (a.links.getD []).Single
  relabelledOnce : ∀ {t i links}, plan.operations.get? t = some (.relabel i (some links)) → links.Single
  added : ∀ {a c}, a ∈ plan.additions → p.LeavesOut a.incoming.kind (a.links.getD []) c →
    ∃ q, p.incoming.HasLink a.incoming c q ∧ (s.incomingFates.get? q = some .lost ∨
      ∃ c' j, c' ≠ c ∧ p.incoming.HasLink a.incoming c' j ∧ (c', .added j) ∈ a.links.getD [])
  relabelled : ∀ {t i links c}, plan.operations.get? t = some (.relabel i (some links)) → p.LeavesOut t.kind links c →
    p.TargetIs false t ∧ ∃ q, p.incoming.HasLink i c q ∧ s.incomingFates.get? q = some .lost

variable {p : Pass} {s : Progress} {plan : Plan} {t i : EntityId} {c : Connection} {links : PlannedLinks}

theorem Pass.not_leavesOut_of_covered {kind : Kind} (h : p.uncovered kind links = false) : ¬p.LeavesOut kind links c := by
  rintro ⟨hc, hnot⟩
  rw [uncovered, List.any_eq_false] at h
  exact hnot (by simpa using h c hc)

theorem Pass.Alike.kind_eq (h : p.Alike t i) (hp : p.Consistent) : t.kind = i.kind := by
  obtain ⟨e, d, he, hd, hkind, -⟩ := h
  rw [← hp.target.kind_eq he, ← hp.incoming.kind_eq hd, hkind]

theorem Pass.Consistent.hasLink (hp : p.Consistent) (hi : p.incoming.contains i = true)
    (hc : c ∈ p.target.schema.requiredConnections i.kind) : ∃ q, p.incoming.HasLink i c q := by
  obtain ⟨n, hn⟩ := Graph.contains_iff.1 hi
  rw [hp.schema] at hc
  obtain ⟨⟨c', q⟩, hmem, rfl⟩ := List.mem_map.1 (hp.incoming.required hn hc)
  exact ⟨q, n, hn, hmem⟩

/-- **What the links of a plan are, and what they leave out**, by the reasons that were written down. -/
theorem Progress.Explained.plan_links (he : s.Explained p) (hs : s.Sound p) (hp : p.Consistent)
    (hadd : plan.additions = s.plan.additions) (hop : plan.operations = s.plan.operations) : plan.LinksFit p s := by
  have hadded : ∀ {a}, a ∈ plan.additions → AdditionReason p s a.incoming a.links := fun ha => he.added (hadd ▸ ha)
  have hthere : ∀ {a}, a ∈ plan.additions → p.incoming.contains a.incoming = true := fun {a} ha =>
    (hs.added ((hs.addition _).1 (List.mem_map_of_mem (hadd ▸ ha)))).contains
  have htarget : ∀ {t i links}, plan.operations.get? t = some (.relabel i (some links)) →
      s.targetFates.get? t = some (.relabelled i (some links)) := fun h => hs.relabelled_of_operation (hop ▸ h)
  constructor
  case addedOnce =>
    intro a ha
    have hreason := hadded ha
    generalize a.links = links at hreason
    cases hreason with
    | root => exact .nil
    | placed single => exact single
    | along single => exact single
  case relabelledOnce =>
    intro t i links h
    cases he.target (htarget h) with
    | covered _ single _ => exact single
    | placed _ single _ _ => exact single
  case added =>
    rintro a c ha ⟨hc, hnot⟩
    obtain ⟨q, hlink⟩ := hp.hasLink (hthere ha) hc
    refine ⟨q, hlink, ?_⟩
    have hreason := hadded ha
    generalize a.links = links at hreason hnot
    cases hreason with
    | root root => exact absurd hlink root.not_hasLink
    | placed _ _ places => exact .inl (places.lost_of_notMem hlink hnot)
    | @along links c' j _ link _ linked =>
      refine .inr ⟨c', j, ?_, link, linked⟩
      rintro rfl
      exact hnot (List.mem_map.2 ⟨_, linked, rfl⟩)
  case relabelled =>
    rintro t i links c h hout
    cases he.target (htarget h) with
    | covered _ _ covered => exact absurd hout (Pass.not_leavesOut_of_covered covered)
    | placed alike _ rejected places =>
      obtain ⟨hc, hnot⟩ := hout
      rw [alike.kind_eq hp] at hc
      obtain ⟨q, hlink⟩ := hp.hasLink (hs.relabels (hs.relabelled (htarget h)).2.1).1.contains hc
      exact ⟨rejected, q, hlink, places.lost_of_notMem hlink hnot⟩

/-! ## What becomes of a plan that leaves something out -/

theorem Applying.linksOf?_connections {s : Applying} : ∀ {links : PlannedLinks} {parents : List Link},
    s.linksOf? links = some parents → parents.map Prod.fst = links.map Prod.fst
  | [], _, h => by
    obtain rfl := Option.some.inj h
    rfl
  | (c, .target id) :: rest, _, h => by
    obtain ⟨tail, htail, rfl⟩ := Option.map_eq_some_iff.1 h
    rw [List.map_cons, List.map_cons, linksOf?_connections htail]
  | (c, .added i) :: rest, _, h => by
    rw [linksOf?] at h
    split at h
    · cases h
    · obtain ⟨tail, htail, rfl⟩ := Option.map_eq_some_iff.1 h
      rw [List.map_cons, List.map_cons, linksOf?_connections htail]

variable {s₀ s₁ : Applying}

theorem not_leavesOut_of_copy (hp : p.Consistent) (hschema : s₀.graph.schema = p.target.schema) {a : Addition}
    (h : Did p plan s₀ (.copy a) s₁) : ¬p.LeavesOut a.incoming.kind (a.links.getD []) c := by
  obtain ⟨s₂, s₃, hfirst, hact, -⟩ := h
  rintro ⟨hc, hnot⟩
  cases hact with
  | copy _ _ found resolved edit =>
    rw [← hschema, ← hfirst.schema, ← hp.incoming.kind_eq found] at hc
    exact hnot (Applying.linksOf?_connections resolved ▸ Graph.add_covers edit hc)

theorem not_leavesOut_of_move (hschema : s₀.graph.schema = p.target.schema) (h : Did p plan s₀ (.move t links) s₁) :
    ¬p.LeavesOut t.kind links c := by
  obtain ⟨s₂, s₃, hfirst, hact, -⟩ := h
  rintro ⟨hc, hnot⟩
  cases hact with
  | move _ resolved edit =>
    rw [← hschema, ← hfirst.schema] at hc
    exact hnot (Applying.linksOf?_connections resolved ▸ Graph.setParents_covers edit hc)

theorem leavesOut_of_stops (hp : p.Consistent) (hschema : s₀.graph.schema = p.target.schema) {kind : Kind}
    (h : Stops p plan s₀ (.store (.missingRequiredParent kind c))) : plan.LeavesOut p kind c := by
  obtain ⟨s, hacts, hrefusal⟩ := h
  have hs : s.graph.schema = p.target.schema := hacts.schema.trans hschema
  cases hrefusal with
  | absent missing => cases (Graph.entity_refused missing).2
  | @copy a data parents _ _ addition _ found resolved edit =>
    obtain ⟨rfl, hc, hnot⟩ := Graph.add_missing edit
    have hkind := hp.incoming.kind_eq found
    rw [Applying.linksOf?_connections resolved] at hnot
    exact .inl ⟨a, addition, hkind.symm, hs ▸ hc, hnot⟩
  | give _ _ edit => exact absurd rfl (Graph.modify_error edit)
  | @move t i links parents _ _ operation resolved edit =>
    obtain ⟨rfl, hc, hnot⟩ := Graph.setParents_missing edit
    rw [Applying.linksOf?_connections resolved] at hnot
    exact .inr ⟨t, i, links, operation, rfl, hs ▸ hc, hnot⟩
  | follow edit => exact absurd rfl (Graph.modify_error edit)

variable {fuel : Nat} {targetOrder incomingOrder : List EntityId}

/-- **What a plan leaves out is where it fails.**  Its links name each connection once and leave out only what leads to a
lost parent, apart from additions that go along with a parent.  If they leave out what a kind requires, the plan cannot
be carried out, and carrying it out fails for want of a required parent only if they do. -/
theorem planInOrder_leavesOut {o : Outcome} (hp : p.Consistent) (ho : p.Orders targetOrder incomingOrder)
    (h : p.planInOrder fuel targetOrder incomingOrder = .ok (s, o)) :
    o.plan.LinksFit p s ∧
      (∀ {applied g}, Graph.applyPlan p.incoming o.plan p.target = .ok applied g →
        ∀ kind c, ¬o.plan.LeavesOut p kind c) ∧
      ∀ {kind c g}, Graph.applyPlan p.incoming o.plan p.target = .error (.store (.missingRequiredParent kind c)) g →
        o.plan.LeavesOut p kind c := by
  obtain ⟨hsteps, -, -, hadd, hop⟩ := planInOrder_ok hp ho h
  have hs := hsteps.sound (sound_start p)
  have hlinks := (planInOrder_explained hp ho h).plan_links hs hp hadd hop
  have hrun := Apply.plan_enacts (p := p) (planInOrder_fits hp ho h).additions
  refine ⟨hlinks, fun {applied g} happly kind c => ?_, fun {kind c g} happly => ?_⟩
  · rw [Graph.applyPlan] at happly
    split at happly
    · next applied' s' heq =>
      obtain ⟨-, hadded, hrelabelled⟩ := hrun.ok heq
      rintro (⟨a, ha, rfl, hout⟩ | ⟨t, i, links, hrelabel, rfl, hout⟩)
      · exact not_leavesOut_of_copy hp rfl (hadded a ha) hout
      · exact not_leavesOut_of_move rfl ((hrelabelled hrelabel).2 links rfl) hout
    · cases happly
  · rw [Graph.applyPlan] at happly
    split at happly
    · cases happly
    · next cause s' heq =>
      obtain ⟨rfl, -⟩ := EStateM.Result.error.inj happly
      exact leavesOut_of_stops hp rfl (hrun.error heq)

/-- **Whether a pass fails**, visiting everything by default, with a plan and an error that pass the given tests. -/
def Pass.stopsWith (p : Pass) (check : Plan → Bool) (test : ReconcileError → Bool) : Bool :=
  (p.planInOrder p.fuel (p.target.visitOrder p.accepts .default)
      (p.incoming.visitOrder p.accepts .default)).toOption.any fun r =>
    check r.2.plan && failsWith (Graph.applyPlan p.incoming r.2.plan p.target) test

theorem Pass.exists_of_stopsWith (check : Plan → Bool) (test : ReconcileError → Bool)
    (h : p.stopsWith check test = true) : ∃ r e g, p.planInOrder p.fuel (p.target.visitOrder p.accepts .default)
        (p.incoming.visitOrder p.accepts .default) = .ok r ∧
      Graph.applyPlan p.incoming r.2.plan p.target = .error e g ∧ check r.2.plan = true ∧ test e = true := by
  obtain ⟨r, hplan, hr⟩ := exists_of_any h
  rw [Bool.and_eq_true] at hr
  obtain ⟨e, g, happly, he⟩ := exists_of_failsWith hr.2
  exact ⟨r, e, g, hplan, happly, hr.1, he⟩

/-- An entity that requires two parents, of which one is not accepted. -/
def halfParented : Pass where
  target := .empty ⟨#[⟨"A", [], []⟩, ⟨"B", [], []⟩,
    ⟨"K", [], [⟨0, 2, .many, .required⟩, ⟨1, 2, .many, .required⟩]⟩]⟩
  incoming := .ofNodes ⟨#[⟨"A", [], []⟩, ⟨"B", [], []⟩,
      ⟨"K", [], [⟨0, 2, .many, .required⟩, ⟨1, 2, .many, .required⟩]⟩]⟩
    [(⟨0, 0⟩, .new 0 "s", []), (⟨1, 0⟩, .new 1 "o", []),
      (⟨2, 0⟩, .new 2 "s", [(⟨0, 2, .many, .required⟩, ⟨0, 0⟩), (⟨1, 2, .many, .required⟩, ⟨1, 0⟩)])]
    [(0, 1), (1, 1), (2, 1)]
  accepts source := source = "s"

theorem halfParented_consistent : halfParented.Consistent := ⟨by decide +kernel, by decide +kernel, rfl⟩

/-- The entity is to be added under one parent alone, and is refused. -/
theorem halfParented_runs : ∃ r g, halfParented.planInOrder halfParented.fuel
      (halfParented.target.visitOrder halfParented.accepts .default)
      (halfParented.incoming.visitOrder halfParented.accepts .default) = .ok r ∧
    r.2.plan.additions = [⟨none, ⟨0, 0⟩⟩, ⟨some [(⟨0, 2, .many, .required⟩, .added ⟨0, 0⟩)], ⟨2, 0⟩⟩] ∧
    Graph.applyPlan halfParented.incoming r.2.plan halfParented.target =
      .error (.store (.missingRequiredParent 2 ⟨1, 2, .many, .required⟩)) g := by
  obtain ⟨r, e, g, hplan, happly, hadditions, he⟩ := Pass.exists_of_stopsWith (p := halfParented)
    (fun plan => plan.additions = [⟨none, ⟨0, 0⟩⟩, ⟨some [(⟨0, 2, .many, .required⟩, .added ⟨0, 0⟩)], ⟨2, 0⟩⟩])
    (fun e => e = .store (.missingRequiredParent 2 ⟨1, 2, .many, .required⟩)) (by decide +kernel)
  rw [decide_eq_true_eq] at hadditions he
  exact ⟨r, g, hplan, hadditions, he ▸ happly⟩

/-- **A plan can leave out a required parent**, and then it cannot be carried out. -/
theorem halfParented_leavesOut : halfParented.Consistent ∧ ∃ r g, halfParented.planInOrder halfParented.fuel
      (halfParented.target.visitOrder halfParented.accepts .default)
      (halfParented.incoming.visitOrder halfParented.accepts .default) = .ok r ∧
    (∃ a ∈ r.2.plan.additions, halfParented.LeavesOut a.incoming.kind (a.links.getD []) ⟨1, 2, .many, .required⟩) ∧
    Graph.applyPlan halfParented.incoming r.2.plan halfParented.target =
      .error (.store (.missingRequiredParent 2 ⟨1, 2, .many, .required⟩)) g := by
  obtain ⟨r, g, hplan, hadditions, hfails⟩ := halfParented_runs
  have hmem : ⟨some [(⟨0, 2, .many, .required⟩, .added ⟨0, 0⟩)], ⟨2, 0⟩⟩ ∈ r.2.plan.additions := by
    rw [hadditions]
    exact List.mem_cons_of_mem _ List.mem_cons_self
  exact ⟨halfParented_consistent, r, g, hplan, ⟨_, hmem, by decide, by decide⟩, hfails⟩

theorem planInOrder_leavesOut_halfParented : ∃ r, halfParented.planInOrder halfParented.fuel
      (halfParented.target.visitOrder halfParented.accepts .default)
      (halfParented.incoming.visitOrder halfParented.accepts .default) = .ok r ∧
    r.2.plan.LinksFit halfParented r.1 ∧ r.2.plan.LeavesOut halfParented 2 ⟨1, 2, .many, .required⟩ := by
  obtain ⟨r, g, hplan, -, hfails⟩ := halfParented_runs
  have hmain := planInOrder_leavesOut halfParented_consistent (visitOrder_orders halfParented .default) hplan
  exact ⟨r, hplan, hmain.1, hmain.2.2 hfails⟩

end Reconciliation
