import Reconciliation.Proofs.Faithful
import Reconciliation.Proofs.Upkeep
/-!
# Links as planned

From when an entity has the links that the plan gives it, its parents are what these lead to, as far as that is there,
whatever is done later (`Act.linked`): what is taken away goes with the links to it, and a copy gets an id that no link
leads to.  So at the end of a run an entity has another one as its parent exactly when the plan links the two and both
are there (`hasLink_iff_of_run`).
-/
namespace Reconciliation

open Progress Pass Reconciliation.Graph

variable {p : Pass} {plan : Plan} {d : Deed} {s s₀ s₁ s' : Applying} {t i x y : EntityId} {e : Entity} {c : Connection}
  {q : PlannedParent}

/-! ## Links lead to what is there -/

namespace Graph

variable {g g' : Graph} {links : List Link} {u : Unit}

theorem hasLink_iff_mem : g.HasLink x c y ↔ (c, y) ∈ (g.links? x).getD [] := by
  simp only [HasLink, links?]
  cases g.nodes.get? x <;> simp

theorem closed_iff : g.Closed ↔ ∀ x links l, g.links? x = some links → l ∈ links → g.contains l.2 = true := by
  constructor
  · intro h x links l hx hl
    obtain ⟨n, hn, rfl⟩ := links?_eq_some_iff.1 hx
    exact h x n l hn hl
  · exact fun h x n l hn hl => h x n.parents l (links?_eq_some_iff.2 ⟨n, hn, rfl⟩) hl

theorem SameLinks.closed (h : g.SameLinks g') (hg : g.Closed) : g'.Closed := by
  rw [closed_iff] at hg ⊢
  intro x links l hx hl
  rw [h.links] at hx
  rw [h.contains]
  exact hg x links l hx hl

theorem contains_after_setParents (h : setParents t links g = .ok u g') (hy : g.contains y = true) : g'.contains y = true :=
  (contains_setParents h y).trans hy

theorem Closed.setParents (hg : g.Closed) (h : setParents t links g = .ok u g') : g'.Closed := by
  obtain ⟨-, hends, hlinks, -⟩ := setParents_ok h
  rw [closed_iff] at hg ⊢
  intro x own l hx hl
  rw [hlinks] at hx
  refine contains_after_setParents h ?_
  split at hx
  · obtain rfl := Option.some.inj hx
    exact hends l (mem_inDeclarationOrder.1 hl)
  · exact hg x own l hx hl

theorem contains_after_add {data : Entity} (h : add data links g = .ok x g') (hy : g.contains y = true) :
    g'.contains y = true :=
  (contains_add h).2 (.inr hy)

theorem Closed.add (hg : g.Closed) {data : Entity} (h : add data links g = .ok x g') : g'.Closed := by
  obtain ⟨-, hends, hlinks, -⟩ := add_ok h
  rw [closed_iff] at hg ⊢
  intro z own l hz hl
  rw [hlinks] at hz
  refine contains_after_add h ?_
  split at hz
  · obtain rfl := Option.some.inj hz
    exact hends l (mem_inDeclarationOrder.1 hl)
  · exact hg z own l hz hl

end Graph

/-- **A state on the way**: every entity has a name, and links lead to what is there. -/
structure Standing (plan : Plan) (target : Graph) (s : Applying) : Prop extends Naming plan target s where
  closed : s.graph.Closed

theorem Act.standing (h : Act p plan d s s')
    (hs : Standing plan p.target s) : Standing plan p.target s' := by
  refine ⟨h.naming hs.toNaming, ?_⟩
  cases h with
  | cut _ edit => exact (hs.closed.remove edit).closed hs.closed
  | copy _ _ _ _ edit => exact hs.closed.add edit
  | give _ _ edit => exact (modify_ok edit).2.closed hs.closed
  | move _ _ edit => exact hs.closed.setParents edit
  | attach _ edit => exact (setExternal_ok edit).closed hs.closed
  | follow _ _ _ edit => exact (modify_ok edit).2.closed hs.closed
  | count graph => rw [graph]; exact hs.closed

theorem Acts.standing (h : Acts p plan s s')
    (hs : Standing plan p.target s) : Standing plan p.target s' :=
  h.invariant (I := Standing plan p.target) (fun hact hs => hact.standing hs) hs

/-! ## Links stay as planned -/

/-- **An entity has its planned links**, as far as what they lead to is there. -/
structure Linked (target : Graph) (planned : Connection → PlannedParent → Prop) (x : EntityId) (s : Applying) : Prop where
  named : ∃ q, s.Names target q x
  resolved : ∀ {c q}, planned c q → ∃ y, s.Names target q y
  mem_iff : ∀ {links c y}, s.graph.links? x = some links →
    ((c, y) ∈ links ↔ ∃ q, planned c q ∧ s.Names target q y ∧ s.graph.contains y = true)

variable {planned : Connection → PlannedParent → Prop}

theorem Linked.of_names {target : Graph} (h : Linked target planned x s) (hcopies : s'.copies = s.copies)
    (hlinks : ∀ {links c y}, s'.graph.links? x = some links → ∃ old, s.graph.links? x = some old ∧
      ((c, y) ∈ links ↔ (c, y) ∈ old ∧ s'.graph.contains y = true))
    (hless : ∀ {y}, s'.graph.contains y = true → s.graph.contains y = true) : Linked target planned x s' := by
  have hnames := Applying.names_congr target hcopies
  refine ⟨by rw [hnames]; exact h.named, fun hq => by rw [hnames]; exact h.resolved hq, fun {links c y} hx => ?_⟩
  obtain ⟨old, hold, hiff⟩ := hlinks (c := c) (y := y) hx
  rw [hiff, h.mem_iff hold, hnames]
  exact ⟨fun ⟨⟨q, hq, hy, _⟩, hthere⟩ => ⟨q, hq, hy, hthere⟩, fun ⟨q, hq, hy, hthere⟩ => ⟨⟨q, hq, hy, hless hthere⟩, hthere⟩⟩

theorem Linked.of_sameLinks {target : Graph} (h : Linked target planned x s) (hcopies : s'.copies = s.copies)
    (hsame : s.graph.SameLinks s'.graph) (hg : s.graph.Closed) : Linked target planned x s' := by
  refine h.of_names hcopies (fun {links c y} hx => ?_) fun hy => (hsame.contains _).symm.trans hy
  rw [hsame.links] at hx
  refine ⟨links, hx, (and_iff_left_of_imp fun hmem => ?_).symm⟩
  rw [hsame.contains]
  exact closed_iff.1 hg x links (c, y) hx hmem

theorem Applying.Names.eq {target : Graph} (h : s.Names target q x) (h' : s.Names target q y) : x = y := by
  cases q with
  | target t => exact h.2.trans h'.2.symm
  | added i => exact Option.some.inj (h.symm.trans h')

theorem Linked.given {schema : Schema} {kind : Kind} {links : PlannedLinks} {parents : List Link}
    (hthere : ∀ l ∈ links, l.2.There p) (hresolved : s.linksOf? links = some parents)
    (hplanned : ∀ c q, planned c q ↔ (c, q) ∈ links) (hnames : ∀ {q x}, s.Names p.target q x → s'.Names p.target q x)
    (hx : ∃ q, s'.Names p.target q x) (hlinks : s'.graph.links? x = some (inDeclarationOrder schema kind parents))
    (hends : ∀ l ∈ parents, s'.graph.contains l.2 = true) : Linked p.target planned x s' := by
  have hrealizes := realizes_of_linksOf? hthere hresolved
  refine ⟨hx, fun hq => ?_, fun {links' c y} hx' => ?_⟩
  · obtain ⟨y, -, hy⟩ := hrealizes.2 ((hplanned _ _).1 hq)
    exact ⟨y, hnames hy⟩
  · obtain rfl := Option.some.inj (hlinks.symm.trans hx')
    rw [mem_inDeclarationOrder]
    constructor
    · intro hmem
      obtain ⟨q, hq, hy⟩ := hrealizes.1 hmem
      exact ⟨q, (hplanned _ _).2 hq, hnames hy, hends _ hmem⟩
    · rintro ⟨q, hq, hy, -⟩
      obtain ⟨z, hmem, hz⟩ := hrealizes.2 ((hplanned _ _).1 hq)
      rwa [hy.eq (hnames hz)]

/-- The links that the plan gives an entity when it moves it are those that it has. -/
def Plan.Moves (plan : Plan) (x : EntityId) (planned : Connection → PlannedParent → Prop) : Prop :=
  ∀ i links, plan.operations.get? x = some (.relabel i (some links)) → ∀ c q, planned c q ↔ (c, q) ∈ links

theorem Act.linked_of_move (hf : plan.Fits p) (hmoves : plan.Moves t planned) {links : PlannedLinks}
    (h : Act p plan (.move t links) s s') : Linked p.target planned t s' := by
  cases h with
  | @move _ i _ parents _ _ operation resolved edit copies =>
    obtain ⟨-, hends, hlinks, -⟩ := setParents_ok edit
    have hself : s'.graph.links? t = some (inDeclarationOrder s.graph.schema t.kind parents) := by rw [hlinks, if_pos rfl]
    have hnames := Applying.names_congr p.target copies
    exact .given (hf.there operation) resolved (hmoves i links operation) (fun h => hnames ▸ h)
      ⟨.target t, hf.operations operation, rfl⟩ hself fun l hl => contains_after_setParents edit (hends l hl)

theorem Act.linked_of_copy (hf : plan.Fits p) {a : Addition} (h : Act p plan (.copy a) s s')
    (hplanned : ∀ c q, planned c q ↔ (c, q) ∈ a.links.getD []) :
    ∃ x, s'.Names p.target (.added a.incoming) x ∧ Linked p.target planned x s' := by
  cases h with
  | @copy _ data parents x _ _ addition new found resolved edit copies =>
    obtain ⟨-, hends, hlinks, -⟩ := add_ok edit
    have hnames {q y} : s'.Names p.target q y ↔ _ := Applying.names_insert_iff copies new
    have hself : s'.graph.links? x = some (inDeclarationOrder s.graph.schema data.kind parents) := by rw [hlinks, if_pos rfl]
    have hname : s'.Names p.target (.added a.incoming) x := hnames.2 (.inr ⟨rfl, rfl⟩)
    refine ⟨x, hname, .given (hf.added addition) resolved hplanned (fun h => hnames.2 (.inl h)) ⟨_, hname⟩ hself fun l hl =>
      contains_after_add edit (hends l hl)⟩

theorem Act.linked (hf : plan.Fits p) (hmoves : plan.Moves x planned) (h : Act p plan d s s') (hs : Standing plan p.target s)
    (hx : Linked p.target planned x s) : Linked p.target planned x s' := by
  cases h with
  | cut _ edit copies =>
    have hloses := hs.closed.remove edit
    refine hx.of_names copies (fun {links c y} hlinks => ?_) fun hy => (hloses.contains_iff.1 hy).1
    obtain ⟨n', hn', rfl⟩ := links?_eq_some_iff.1 hlinks
    obtain ⟨-, n, hn, -, heq⟩ := hloses.before hn'
    refine ⟨n.parents, links?_eq_some_iff.2 ⟨n, hn, rfl⟩, ?_⟩
    rw [heq, hloses.contains_iff, List.mem_filter, decide_eq_true_eq]
    exact ⟨fun ⟨hmem, hstays⟩ => ⟨hmem, hs.closed _ _ _ hn hmem, hstays⟩, fun ⟨hmem, _, hstays⟩ => ⟨hmem, hstays⟩⟩
  | @copy a data parents z _ _ addition new found resolved edit copies =>
    obtain ⟨rfl, -, hlinks, -⟩ := add_ok edit
    have hnames {q y} : s'.Names p.target q y ↔ _ := Applying.names_insert_iff copies new
    have hfresh : ∀ {q y}, s.Names p.target q y → y ≠ ⟨data.kind, s.graph.nextIndex data.kind⟩ := by
      rintro q y hy rfl
      exact hs.unnamed data.kind hy
    have hcontains : ∀ {q y}, s.Names p.target q y → s'.graph.contains y = s.graph.contains y := fun hy => by
      rw [← links?_isSome, ← links?_isSome, hlinks, if_neg (hfresh hy)]
    obtain ⟨q₀, hq₀⟩ := hx.named
    refine ⟨⟨q₀, hnames.2 (.inl hq₀)⟩, fun hq => ?_, fun {links c y} hnew => ?_⟩
    · obtain ⟨y, hy⟩ := hx.resolved hq
      exact ⟨y, hnames.2 (.inl hy)⟩
    · rw [hlinks, if_neg (hfresh hq₀)] at hnew
      rw [hx.mem_iff hnew]
      refine exists_congr fun q => and_congr_right fun hq => ?_
      obtain ⟨z, hz⟩ := hx.resolved hq
      constructor
      · exact fun ⟨hy, hthere⟩ => ⟨hnames.2 (.inl hy), (hcontains hy).trans hthere⟩
      · rintro ⟨hy, hthere⟩
        obtain rfl := hy.eq (hnames.2 (.inl hz))
        exact ⟨hz, (hcontains hz).symm.trans hthere⟩
  | give _ _ edit copies => exact hx.of_sameLinks copies (modify_ok edit).2 hs.closed
  | @move t i links parents _ _ operation resolved edit copies =>
    have hlinks := (setParents_ok edit).2.2.1
    by_cases heq : x = t
    · subst heq
      exact Act.linked_of_move hf hmoves (.move operation resolved edit copies)
    · refine hx.of_names copies (fun {links c y} hnew => ?_) (setParents_keeps edit).less
      rw [hlinks, if_neg heq] at hnew
      refine ⟨links, hnew, (and_iff_left_of_imp fun hmem => ?_).symm⟩
      exact contains_after_setParents edit (closed_iff.1 hs.closed x links (c, y) hnew hmem)
  | attach _ edit copies => exact hx.of_sameLinks copies (setExternal_ok edit) hs.closed
  | follow _ _ _ edit copies => exact hx.of_sameLinks copies (modify_ok edit).2 hs.closed
  | count graph copies => exact hx.of_sameLinks copies (graph ▸ .refl _) hs.closed

/-! ## What a run leaves behind -/

theorem Linked.hasLink_iff {target : Graph} (h : Linked target planned x s) (hx : s.graph.contains x = true) :
    s.graph.HasLink x c y ↔ ∃ q, planned c q ∧ s.Names target q y ∧ s.graph.contains y = true := by
  obtain ⟨n, hn⟩ := contains_iff.1 hx
  rw [← h.mem_iff (links?_eq_some_iff.2 ⟨n, hn, rfl⟩)]
  exact ⟨fun ⟨n', hn', hmem⟩ => by rwa [Option.some.inj (hn.symm.trans hn')], fun hmem => ⟨n, hn, hmem⟩⟩

theorem Acts.linked (hf : plan.Fits p)
    (hmoves : plan.Moves x planned) (h : Acts p plan s s') (hs : Standing plan p.target s) (hx : Linked p.target planned x s) :
    Linked p.target planned x s' :=
  (h.invariant (I := fun s => Standing plan p.target s ∧ Linked p.target planned x s)
    (fun hact hs => ⟨hact.standing hs.1, hact.linked hf hmoves hs.1 hs.2⟩) ⟨hs, hx⟩).2

/-- **At the end of a run the links are as planned**: those of the target as it was, where nothing else is planned. -/
theorem hasLink_iff_of_run (hf : plan.Fits p) (hp : p.target.Consistent)
    (hcounted : p.target.Counted) (hacts : Acts p plan (.start p.target) s)
    (hcopied : ∀ a ∈ plan.additions, Did p plan (.start p.target) (.copy a) s)
    (hrelabelled : ∀ {t i links}, plan.operations.get? t = some (.relabel i links) →
      Relabelled p plan (.start p.target) t i links s)
    (hq : s.Names p.target q x) (hx : s.graph.contains x = true) :
    s.graph.HasLink x c y ↔ ∃ q', plan.Link p.target [] q c q' ∧ s.Names p.target q' y ∧ s.graph.contains y = true := by
  have hstart : Standing plan p.target (.start p.target) := ⟨naming_start hcounted, hp.closed⟩
  have hstanding : ∀ {s}, Acts p plan (.start p.target) s → Standing plan p.target s := fun h => h.standing hstart
  suffices hlinked : Linked p.target (fun c q' => plan.Link p.target [] q c q') x s from hlinked.hasLink_iff hx
  cases q with
  | added i =>
    obtain ⟨a, ha, rfl⟩ := List.mem_map.1 ((hstanding hacts).copied (SortedMap.contains_iff.2 ⟨x, hq⟩))
    obtain ⟨s₁, s₂, hfirst, hcopy, hlast⟩ := hcopied a ha
    obtain ⟨z, hz, hlinked⟩ := hcopy.linked_of_copy hf fun c q => Plan.link_added_iff hf.additions ha
    obtain rfl := Applying.Names.eq (hlast.names hz) hq
    refine hlast.linked hf (fun i links hop => ?_) (hstanding (hfirst.trans hcopy.acts)) hlinked
    -- a copy is not a target entity
    cases (hstanding hacts).unique (q := .target z) ⟨hf.operations hop, rfl⟩ hq
  | target t =>
    obtain ⟨ht, rfl⟩ := hq
    have hmoves : plan.Moves x fun c q' => plan.Link p.target [] (.target x) c q' := fun i links hop c q =>
      Plan.link_target_iff List.not_mem_nil (Plan.linksFor?_of_relabel hop)
    cases hlinks : plan.linksFor? x with
    | some links =>
      -- what it got when it was moved it keeps to the end
      obtain ⟨i, hop⟩ := Plan.linksFor?_eq_some_iff.1 hlinks
      obtain ⟨s₁, s₂, hfirst, hmove, hlast⟩ := (hrelabelled hop).2 links rfl
      exact hlast.linked hf hmoves (hstanding (hfirst.trans hmove.acts)) (hmove.linked_of_move hf hmoves)
    | none =>
      -- no deed gives it links, so it keeps those that it had at the start
      refine hacts.linked hf hmoves hstart ⟨⟨.target x, ht, rfl⟩, fun hlink => ?_, fun {links c y} hown => ?_⟩
      · cases hlink with
        | own there link _ =>
          obtain ⟨n, hn, rfl⟩ := links?_eq_some_iff.1 there
          exact ⟨_, (hp.parent hn link).1, rfl⟩
        | given _ planned _ => cases planned.symm.trans hlinks
      · constructor
        · intro hmem
          obtain ⟨n, hn, rfl⟩ := links?_eq_some_iff.1 hown
          have hthere := (hp.parent hn hmem).1
          exact ⟨.target y, .own hown hmem (.inr hlinks), ⟨hthere, rfl⟩, hthere⟩
        · rintro ⟨q', hlink, hy, -⟩
          cases hlink with
          | own there link _ =>
            obtain rfl := Option.some.inj (there.symm.trans hown)
            rwa [hy.2]
          | given _ planned _ => cases planned.symm.trans hlinks

end Reconciliation
