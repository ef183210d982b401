import Reconciliation.ChangeSet
import Reconciliation.Proofs.Coverage
import Reconciliation.Proofs.Links
/-!
# Plans that change nothing

A plan that adds and removes nothing, and gives to what it relabels the data and the parents that it has already
(`Plan.Idle`), is always carried out: nobody else holds the natural key or the slots that an entity has itself, and what
is admitted once is admitted again.  It leaves the target as it is, but for what is attached from outside
(`Plan.Idle.apply`), and then there are no changes to report (`Unchanged.between`).
-/
namespace Reconciliation
namespace Graph

open Relation

/-! ## Graphs without changes between them -/

/-- **The same entities, data and parents**; only what is attached from outside may be other. -/
structure Unchanged (g g' : Graph) : Prop where
  schema : g'.schema = g.schema
  data : ∀ x, g'.data? x = g.data? x
  links : ∀ x, g'.links? x = g.links? x

variable {g g₁ g' : Graph} {id x : EntityId} {links : List Link} {c : Connection} {y : EntityId}

theorem Unchanged.refl (g : Graph) : g.Unchanged g := ⟨rfl, fun _ => rfl, fun _ => rfl⟩

theorem Unchanged.trans (h : g.Unchanged g₁) (h' : g₁.Unchanged g') : g.Unchanged g' :=
  ⟨h'.schema.trans h.schema, fun x => (h'.data x).trans (h.data x), fun x => (h'.links x).trans (h.links x)⟩

theorem Unchanged.contains (h : g.Unchanged g') (x : EntityId) : g'.contains x = g.contains x := by
  rw [← links?_isSome, ← links?_isSome, h.links]

theorem Unchanged.node (h : g.Unchanged g') {n' : Node} (hn' : g'.nodes.get? x = some n') :
    ∃ n, g.nodes.get? x = some n ∧ n.data = n'.data ∧ n.parents = n'.parents := by
  have hlinks : g.links? x = some n'.parents := (h.links x).symm.trans (links?_eq_some_iff.2 ⟨n', hn', rfl⟩)
  have hdata : g.data? x = some n'.data := (h.data x).symm.trans (Option.map_eq_some_iff.2 ⟨n', hn', rfl⟩)
  obtain ⟨n, hn, hparents⟩ := links?_eq_some_iff.1 hlinks
  rw [data?, hn, Option.map_some, Option.some.injEq] at hdata
  exact ⟨n, hn, hdata, hparents⟩

theorem Unchanged.between (h : g.Unchanged g') : (ChangeSet.between g g').isEmpty = true := by
  have hremoved : (g.nodes.toList.filter fun n => !g'.contains n.1) = [] :=
    List.filter_eq_nil_iff.2 fun n hn => by
      have hthere : g.contains n.1 = true := contains_iff.2 ⟨n.2, SortedMap.get?_eq_some_iff.2 hn⟩
      simp [h.contains, hthere]
  have hmade : (g'.nodes.toList.filterMap fun n => ChangeSet.change? n.1 (g.nodes.get? n.1) n.2) = [] :=
    List.filterMap_eq_nil_iff.2 fun n hn => by
      obtain ⟨old, hold, hdata, hparents⟩ := h.node (SortedMap.get?_eq_some_iff.2 hn)
      simp [ChangeSet.change?, hold, hdata, hparents]
  have hlist : ChangeSet.listBetween g g' = [] := by
    rw [ChangeSet.listBetween, hremoved, hmade]
    rfl
  rw [ChangeSet.between, hlist]
  rfl

/-! ## Edits that change nothing -/

theorem replaceData_unchanged {e : Entity} (he : g.data? id = some e) : g.Unchanged (g.replaceData id e e) where
  schema := rfl
  data x := by
    rw [data?_replaceData (contains_of_data he)]
    split
    · next heq => rw [heq, he]
    · rfl
  links := (sameLinks_of_modify (f := fun n => { n with data := e }) fun _ => rfl).links

theorem setExternal_unchanged {mapping : String} {value : Json} {u : Unit} (h : setExternal mapping id value g = .ok u g') :
    g.Unchanged g' where
  schema := (setExternal_keeps h).schema
  data x := by
    have hsame := (setExternal_ok h).contains x
    cases hd : g'.data? x with
    | some e => exact ((setExternal_keeps h).data hd).symm
    | none =>
      cases hd' : g.data? x with
      | none => rfl
      | some e =>
        obtain ⟨e', he'⟩ := exists_entity (hsame.trans (contains_of_data hd'))
        rw [entity_ok_iff_data, hd] at he'
        cases he'
  links := (setExternal_ok h).links

theorem attaches_unchanged (h : Apply.Attaches id g g') : g.Unchanged g' := by
  induction h with
  | refl => exact .refl g
  | tail _ hset ih =>
    obtain ⟨mapping, value, hset⟩ := hset
    exact ih.trans (setExternal_unchanged hset)

theorem Consistent.attaches (hg : g.Consistent) (h : Apply.Attaches id g g') : g'.Consistent := by
  induction h with
  | refl => exact hg
  | tail _ hset ih =>
    obtain ⟨mapping, value, hset⟩ := hset
    exact ih.setExternal hset

theorem Consistent.modify_same (hg : g.Consistent) {e : Entity} (he : g.data? id = some e) {change : Entity → Entity}
    (hchange : change e = e) : ∃ g', modify id change g = .ok () g' ∧ g'.Consistent ∧ g.Unchanged g' := by
  refine ⟨g.replaceData id e e, ?_, hg.replaceData he rfl rfl, replaceData_unchanged he⟩
  rw [modify_of_key_eq he (by rw [hchange]) (by rw [hchange]), hchange]

/-- Links that an entity has already, each connection once. -/
structure OwnLinks (g : Graph) (id : EntityId) (links : List Link) : Prop where
  single : (links.map Prod.fst).Nodup
  own : ∀ {l}, l ∈ links ↔ g.HasLink id l.1 l.2

theorem OwnLinks.perm (h : g.OwnLinks id links) {n : Node} (hg : g.Consistent) (hn : g.nodes.get? id = some n) :
    links.Perm n.parents := by
  refine (List.perm_ext_iff_of_nodup h.single.of_map (hg.connections hn).of_map).2 fun l => ?_
  rw [h.own]
  exact ⟨fun ⟨n', hn', hmem⟩ => Option.some.inj (hn.symm.trans hn') ▸ hmem, fun hmem => ⟨n, hn, hmem⟩⟩

theorem Consistent.setParents_own (hg : g.Consistent) (hid : g.contains id = true) (h : g.OwnLinks id links) :
    ∃ g', Graph.setParents id links g = .ok () g' ∧ g'.Consistent ∧ g.Unchanged g' := by
  obtain ⟨n, hn⟩ := contains_iff.1 hid
  have hperm := h.perm hg hn
  have hdeclared : ∀ l ∈ links, l.1.child = id.kind ∧ g.schema.declares l.1 = true := fun l hl =>
    hg.declared hn (hperm.mem_iff.1 hl)
  have hparent : ∀ l ∈ links, g.contains l.2 = true ∧ l.2.kind = l.1.parent := fun l hl =>
    hg.parent hn (hperm.mem_iff.1 hl)
  have hadmits : g.Admits id.kind (some id) links :=
    { kind_declared := hg.kind_declared hn
      declared := hdeclared
      connections := h.single
      parent := fun l hl => by
        obtain ⟨e, he⟩ := exists_entity (hparent l hl).1
        exact ⟨e, he, (hg.kind_eq he).trans (hparent l hl).2⟩
      slot := fun l hl hone child hchild => by
        obtain ⟨n', hn', hmem⟩ := mem_childIds_iff.1 hchild
        rw [hg.slot hn' hn hone hmem (hperm.mem_iff.1 hl)]
      required := fun c hc => (hperm.map Prod.fst).mem_iff.2 (hg.required hn hc) }
  have hacyclic : ∀ l ∈ links, ¬ReflTransGen g.IsParent id l.2 := fun l hl hbelow =>
    hg.acyclic id (.tail' hbelow ((h.own.1 hl).isParent))
  have hset := (setParents_ok_iff (u := ())).2 ⟨hid, hadmits, hacyclic, rfl⟩
  refine ⟨_, hset, hg.setParents hset, rfl, fun x => ?_, fun x => ?_⟩
  · simp only [data?, SortedMap.get?_modify]
    split
    · next heq => rw [heq, hn]; rfl
    · rfl
  · rw [(setParents_ok hset).2.2.1]
    split
    · next heq =>
      rw [heq, links?, hn, Option.map_some, inDeclarationOrder_congr hdeclared hperm, hg.ordered hn]
    · rfl

end Graph

/-! ## Room for what is there already -/

namespace Apply

open Reconciliation.Graph

variable {g : Graph} {t : EntityId} {e : Entity}

theorem keyHolder_own (hg : g.Consistent) (he : g.data? t = some e) : keyHolder g e (some t) = [] := by
  rw [keyHolder]
  cases hk : g.schema.naturalKey? e with
  | none => rfl
  | some key =>
    have hown : g.resolve key = some t := hg.owner_iff.2 ⟨e, he, hk⟩
    simp [hown]

theorem slotHolders_own (hg : g.Consistent) : ∀ {links : List Link}, (∀ l ∈ links, g.HasLink t l.1 l.2) →
    slotHolders g (some t) links = .ok []
  | [], _ => rfl
  | (c, parent) :: rest, h => by
    obtain ⟨n, hn, hmem⟩ := h _ List.mem_cons_self
    obtain ⟨np, hnp⟩ := contains_iff.1 (hg.parent hn hmem).1
    have hrest := slotHolders_own hg fun l hl => h l (List.mem_cons_of_mem _ hl)
    rw [slotHolders, hrest]
    split
    · next hone =>
      have hchildren : g.childrenOf parent c = .ok (g.childIds parent c) := by
        rw [childrenOf, node_ok_iff.2 hnp]
        rfl
      have hnobody : (g.childIds parent c).filter (fun id => some id ≠ some t) = [] :=
        List.filter_eq_nil_iff.2 fun x hx => by
          obtain ⟨n', hn', hmem'⟩ := mem_childIds_iff.1 hx
          simp [hg.slot hn' hn hone hmem' hmem]
      rw [hchildren]
      show Except.ok ((g.childIds parent c).filter (fun id => some id ≠ some t) ++ []) = _
      rw [hnobody, List.append_nil]
    · rfl

theorem makeRoom_own {s : Applying} {operations : SortedMap EntityId Operation} {links : List Link}
    (hg : s.graph.Consistent) (he : s.graph.data? t = some e) (hown : ∀ l ∈ links, s.graph.HasLink t l.1 l.2) :
    makeRoom operations e links (some t) s = .ok () s := by
  simp only [makeRoom, get_bind, slotHolders_own hg hown, keyHolder_own hg he]
  rfl

end Apply

/-! ## Idle plans -/

/-- **A plan that asks for nothing new**: it adds and removes nothing, and what it relabels has the data of its
counterpart and the links already. -/
structure Plan.Idle (p : Pass) (plan : Plan) : Prop where
  additions : plan.additions = []
  renames : plan.renames = []
  stays : ∀ {t}, plan.operations.get? t ≠ some .remove
  data : ∀ {t i links}, plan.operations.get? t = some (.relabel i links) →
    ∃ e, p.target.data? t = some e ∧ p.incoming.data? i = some e
  single : ∀ {t i links}, plan.operations.get? t = some (.relabel i (some links)) → links.Single
  own : ∀ {t i links c q}, plan.operations.get? t = some (.relabel i (some links)) →
    ((c, q) ∈ links ↔ ∃ y, q = .target y ∧ p.target.HasLink t c y)

theorem Applying.linksOf?_target {s : Applying} : ∀ {links : PlannedLinks}, (∀ l ∈ links, ∃ y, l.2 = .target y) →
    ∃ parents, s.linksOf? links = some parents ∧ ∀ {c y}, (c, y) ∈ parents ↔ (c, .target y) ∈ links
  | [], _ => ⟨[], rfl, fun {_ _} => by simp⟩
  | (c, q) :: rest, h => by
    obtain ⟨y, rfl⟩ := h _ List.mem_cons_self
    obtain ⟨parents, hparents, hmem⟩ := linksOf?_target (s := s) fun l hl => h l (List.mem_cons_of_mem _ hl)
    refine ⟨(c, y) :: parents, by rw [linksOf?, hparents]; rfl, fun {c' y'} => ?_⟩
    simp only [List.mem_cons, hmem, Prod.mk.injEq, PlannedParent.target.injEq]

/-- **Where an idle plan has got to**: nothing has changed, and nothing was added or removed. -/
structure Applying.Idle (p : Pass) (s : Applying) : Prop where
  consistent : s.graph.Consistent
  unchanged : p.target.Unchanged s.graph
  added : s.applied.added = 0
  removed : s.applied.removed = 0

namespace Plan.Idle

variable {p : Pass} {plan : Plan} {s : Applying} {t i : EntityId} {links : Option PlannedLinks} {e : Entity}

theorem edit_ok (hs : s.Idle p) {x : Edit Unit}
    (hx : ∃ g', x s.graph = .ok () g' ∧ g'.Consistent ∧ s.graph.Unchanged g') :
    ∃ s', Apply.edit x s = .ok () s' ∧ s'.Idle p := by
  obtain ⟨g', hrun, hg', hsame⟩ := hx
  exact ⟨{ s with graph := g' }, by rw [Apply.edit, hrun], ⟨hg', hs.unchanged.trans hsame, hs.added, hs.removed⟩⟩

theorem move (h : plan.Idle p) (hs : s.Idle p) {links : PlannedLinks}
    (hop : plan.operations.get? t = some (.relabel i (some links))) (he : s.graph.data? t = some e) :
    ∃ parents s', s.linksOf? links = some parents ∧ Apply.makeRoom plan.operations e parents (some t) s = .ok () s ∧
      Apply.edit (Graph.setParents t parents) s = .ok () s' ∧ s'.Idle p := by
  obtain ⟨parents, hparents, hmem⟩ := Applying.linksOf?_target (s := s) fun l hl =>
    let ⟨y, hy, _⟩ := (h.own hop).1 hl
    ⟨y, hy⟩
  have hown : s.graph.OwnLinks t parents := by
    refine ⟨Applying.linksOf?_connections hparents ▸ h.single hop, fun {l} => ?_⟩
    rw [hmem, h.own hop, Graph.hasLink_iff_mem, hs.unchanged.links, ← Graph.hasLink_iff_mem]
    simp
  obtain ⟨s', hset, hs'⟩ := edit_ok hs (hs.consistent.setParents_own (Graph.contains_of_data he) hown)
  exact ⟨parents, s', hparents, Apply.makeRoom_own hs.consistent he fun l hl => hown.own.1 hl, hset, hs'⟩

theorem relabel (h : plan.Idle p) (hs : s.Idle p)
    (hop : plan.operations.get? t = some (.relabel i links)) :
    ∃ s', Apply.relabel p.incoming plan.operations t i links s = .ok () s' ∧ s'.Idle p := by
  obtain ⟨e, he, hi⟩ := h.data hop
  have hes : s.graph.data? t = some e := (hs.unchanged.data t).trans he
  have hlookup : Apply.lookup (p.incoming.entity i) s = .ok e s :=
    Apply.lookup_ok_iff.2 ⟨Graph.entity_ok_iff_data.2 hi, rfl⟩
  have hroom : Apply.makeRoom plan.operations e [] (some t) s = .ok () s :=
    Apply.makeRoom_own hs.consistent hes fun _ hl => by cases hl
  obtain ⟨s₁, hmodify, hs₁⟩ : ∃ s', Apply.edit (Graph.modify t fun d => d.relabel e) s = .ok () s' ∧ s'.Idle p :=
    edit_ok hs (hs.consistent.modify_same hes (Entity.relabel_eq rfl))
  have he₁ : s₁.graph.data? t = some e := (hs₁.unchanged.data t).trans he
  -- what comes after the links are given, if there are any
  have hfinish : ∀ {s₂ : Applying}, s₂.Idle p → ∃ s', (do
      Apply.copyExternals t (p.incoming.externalsOf i)
      modify fun s => { s with applied := { s.applied with relabeled := s.applied.relabeled + 1 } } : Apply Unit) s₂
        = .ok () s' ∧ s'.Idle p := fun {s₂} hs₂ => by
    have hthere : s₂.graph.contains t = true :=
      (hs₂.unchanged.contains t).trans (Graph.contains_of_data he)
    obtain ⟨g, hcopy, hattaches⟩ := Apply.copyExternals_total (p.incoming.externalsOf i) hthere
    have hidle : ({ s₂ with
        graph := g
        applied := { s₂.applied with relabeled := s₂.applied.relabeled + 1 } } : Applying).Idle p :=
      ⟨hs₂.consistent.attaches hattaches, hs₂.unchanged.trans (Graph.attaches_unchanged hattaches), hs₂.added, hs₂.removed⟩
    exact ⟨_, by rw [bind_of_ok hcopy]; exact modify_run _ _, hidle⟩
  rw [Apply.relabel, bind_of_ok hlookup, bind_of_ok hroom, bind_of_ok hmodify]
  cases links with
  | none => exact hfinish hs₁
  | some links =>
    obtain ⟨parents, s₂, hparents, hroom₂, hset, hs₂⟩ := h.move hs₁ hop he₁
    obtain ⟨s', hrest, hs'⟩ := hfinish hs₂
    refine ⟨s', ?_, hs'⟩
    dsimp only
    rw [get_bind, hparents]
    dsimp only
    rw [bind_of_ok hroom₂, bind_of_ok hset]
    exact hrest

theorem relabels (h : plan.Idle p) : ∀ {l : List (EntityId × EntityId × Option PlannedLinks)}
    {s : Applying}, (∀ r ∈ l, plan.operations.get? r.1 = some (.relabel r.2.1 r.2.2)) → s.Idle p →
    ∃ s', l.forM (fun r => Apply.relabel p.incoming plan.operations r.1 r.2.1 r.2.2) s = .ok () s' ∧ s'.Idle p
  | [], s, _, hs => ⟨s, rfl, hs⟩
  | r :: rest, s, hops, hs => by
    obtain ⟨s₁, hrun, hs₁⟩ := h.relabel hs (hops r List.mem_cons_self)
    obtain ⟨s', hrest, hs'⟩ := relabels h (fun r hr => hops r (List.mem_cons_of_mem _ hr)) hs₁
    exact ⟨s', forM_cons_ok.2 ⟨s₁, hrun, hrest⟩, hs'⟩

/-- **An idle plan is always carried out, and changes nothing.** -/
theorem apply (hp : p.target.Consistent) (h : plan.Idle p) :
    ∃ applied g', Graph.applyPlan p.incoming plan p.target = .ok applied g' ∧ applied.added = 0 ∧ applied.removed = 0 ∧
      p.target.Unchanged g' := by
  have hremovals : plan.removals = [] := List.filterMap_eq_nil_iff.2 fun o ho => by
    have hop : plan.operations.get? o.1 = some o.2 := SortedMap.get?_eq_some_iff.2 ho
    have hne : o.2 ≠ .remove := fun heq => h.stays (heq ▸ hop)
    simp [hne]
  obtain ⟨s', hrun, hs'⟩ := h.relabels (l := plan.relabels) (s := .start p.target)
    (fun r hr => Plan.mem_relabels_iff.1 hr) ⟨hp, .refl _, rfl, rfl⟩
  have hplan : Apply.plan p.incoming plan (.start p.target) = .ok s'.applied s' := by
    have hnone : Apply.addAll p.incoming plan.operations plan.additions (.start p.target) = .ok () (.start p.target) := by
      rw [h.additions]
      rfl
    rw [Apply.plan, bind_of_ok hnone, bind_of_ok hrun, hremovals, h.renames]
    rfl
  exact ⟨s'.applied, s'.graph, by rw [Graph.applyPlan, hplan], hs'.added, hs'.removed, hs'.unchanged⟩

end Plan.Idle
end Reconciliation
