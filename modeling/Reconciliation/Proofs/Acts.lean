import Reconciliation.Proofs.Carried
import Reconciliation.Proofs.Leads
import Reconciliation.Proofs.Records
/-!
# Carrying out a plan, deed by deed

Whatever carrying out a plan does to the target is one of seven deeds (`Act`): something that the plan removes is cut
off, an addition is copied, a target entity is given the data of its counterpart or moved under planned parents, a value
is attached to one of those, a reference that the pass leaves alone follows a rename, or something is counted.  It can
be stopped for nine reasons (`Refusal`).  The rules below go through the code once: each part of it enacts the plan
(`Enacts`), and when all of it succeeds every addition is copied and every relabel is made (`plan_enacts`).

So what every deed keeps holds wherever a plan gets to, and what a run was stopped for is known together with the state
that it was stopped in.
-/
namespace Reconciliation

/-- **What is done to the target.** -/
inductive Deed
  | cut (id : EntityId)
  | copy (addition : Addition)
  | give (id counterpart : EntityId)
  | move (id : EntityId) (links : PlannedLinks)
  | attach (id : EntityId)
  | follow (id : EntityId) (rename : Rename)
  | count

/-- **A deed of carrying out a plan**, with the grounds that the plan gives for it. -/
inductive Act (p : Pass) (plan : Plan) : Deed → Applying → Applying → Prop
  | cut {r : EntityId} {gone : List EntityId} {s s' : Applying} (operation : plan.operations.get? r = some .remove)
    (edit : Graph.remove r s.graph = .ok gone s'.graph) (copies : s'.copies = s.copies) : Act p plan (.cut r) s s'
  | copy {a : Addition} {data : Entity} {parents : List Link} {x : EntityId} {s s' : Applying}
    (addition : a ∈ plan.additions) (new : s.copies.get? a.incoming = none)
    (found : p.incoming.entity a.incoming = .ok data) (resolved : s.linksOf? (a.links.getD []) = some parents)
    (edit : Graph.add data parents s.graph = .ok x s'.graph) (copies : s'.copies = s.copies.insert a.incoming x) :
    Act p plan (.copy a) s s'
  | give {t i : EntityId} {links : Option PlannedLinks} {data : Entity} {s s' : Applying}
    (operation : plan.operations.get? t = some (.relabel i links)) (found : p.incoming.entity i = .ok data)
    (edit : Graph.modify t (fun e => e.relabel data) s.graph = .ok () s'.graph) (copies : s'.copies = s.copies) :
    Act p plan (.give t i) s s'
  | move {t i : EntityId} {links : PlannedLinks} {parents : List Link} {s s' : Applying}
    (operation : plan.operations.get? t = some (.relabel i (some links))) (resolved : s.linksOf? links = some parents)
    (edit : Graph.setParents t parents s.graph = .ok () s'.graph) (copies : s'.copies = s.copies) :
    Act p plan (.move t links) s s'
  | attach {id : EntityId} {mapping : String} {value : Json} {s s' : Applying}
    (touched : (∃ i links, plan.operations.get? id = some (.relabel i links)) ∨ ∃ i, s.copies.get? i = some id)
    (edit : Graph.setExternal mapping id value s.graph = .ok () s'.graph) (copies : s'.copies = s.copies) :
    Act p plan (.attach id) s s'
  | follow {id : EntityId} {rename : Rename} {s s' : Applying} (rename_mem : rename ∈ plan.renames)
    (untouched : plan.operations.contains id = false) (original : s.copies.values.contains id = false)
    (edit : Graph.modify id (fun e => e.rename rename.old rename.new) s.graph = .ok () s'.graph)
    (copies : s'.copies = s.copies) : Act p plan (.follow id rename) s s'
  | count {s s' : Applying} (graph : s'.graph = s.graph) (copies : s'.copies = s.copies) : Act p plan .count s s'

/-- **Why a plan cannot be carried further.** -/
inductive Refusal (p : Pass) (plan : Plan) (s : Applying) : ReconcileError → Prop
  | absent {i : EntityId} {cause : StoreError} (missing : p.incoming.entity i = .error cause) :
    Refusal p plan s (.store cause)
  | copy {a : Addition} {data : Entity} {parents : List Link} {cause : StoreError} {g : Graph}
    (addition : a ∈ plan.additions) (new : s.copies.get? a.incoming = none)
    (found : p.incoming.entity a.incoming = .ok data) (resolved : s.linksOf? (a.links.getD []) = some parents)
    (edit : Graph.add data parents s.graph = .error cause g) : Refusal p plan s (.store cause)
  | give {t i : EntityId} {links : Option PlannedLinks} {data : Entity} {cause : StoreError} {g : Graph}
    (operation : plan.operations.get? t = some (.relabel i links)) (found : p.incoming.entity i = .ok data)
    (edit : Graph.modify t (fun e => e.relabel data) s.graph = .error cause g) : Refusal p plan s (.store cause)
  | move {t i : EntityId} {links : PlannedLinks} {parents : List Link} {cause : StoreError} {g : Graph}
    (operation : plan.operations.get? t = some (.relabel i (some links))) (resolved : s.linksOf? links = some parents)
    (edit : Graph.setParents t parents s.graph = .error cause g) : Refusal p plan s (.store cause)
  | follow {id : EntityId} {rename : Rename} {cause : StoreError} {g : Graph}
    (edit : Graph.modify id (fun e => e.rename rename.old rename.new) s.graph = .error cause g) :
    Refusal p plan s (.store cause)
  /-- A parent whose one-to-one slot is looked at is gone. -/
  | parent {id : EntityId} (gone : s.graph.contains id = false) : Refusal p plan s (.store (.notFound id))
  | taken {holder : EntityId} {kind : Kind} (there : s.graph.contains holder = true)
    (stays : plan.operations.get? holder ≠ some .remove) :
    Refusal p plan s (.slotTaken holder (s.graph.schema.nameOf kind))
  | unadded {l : List Addition} (additions : ∀ a ∈ l, a ∈ plan.additions)
    (unresolved : ∀ a ∈ l, s.linksOf? (a.links.getD []) = none) : Refusal p plan s (.parentsNeverAdded (l.map (·.incoming)))
  | unparented {t i : EntityId} {links : PlannedLinks} (operation : plan.operations.get? t = some (.relabel i (some links)))
    (unresolved : s.linksOf? links = none) : Refusal p plan s (.relabelParentNeverAdded t)

/-- Some deeds lead from one state to another. -/
def Acts (p : Pass) (plan : Plan) : Applying → Applying → Prop :=
  Relation.ReflTransGen fun s s' => ∃ d, Act p plan d s s'

/-- On the way to a state a deed was done. -/
def Did (p : Pass) (plan : Plan) (s₀ : Applying) (d : Deed) (s' : Applying) : Prop :=
  ∃ s₁ s₂, Acts p plan s₀ s₁ ∧ Act p plan d s₁ s₂ ∧ Acts p plan s₂ s'

/-- On the way to a state a relabel was made: its data was given, and its links if there are any. -/
def Relabelled (p : Pass) (plan : Plan) (s₀ : Applying) (t i : EntityId) (links : Option PlannedLinks) (s' : Applying) :
    Prop :=
  Did p plan s₀ (.give t i) s' ∧ ∀ links', links = some links' → Did p plan s₀ (.move t links') s'

/-- Somewhere on the way the plan cannot be carried further. -/
def Stops (p : Pass) (plan : Plan) (s₀ : Applying) (e : ReconcileError) : Prop :=
  ∃ s, Acts p plan s₀ s ∧ Refusal p plan s e

/-- **A computation enacts a plan**: what it does are deeds of the plan, and it stops only where it cannot go on. -/
abbrev Enacts {α : Type} (p : Pass) (plan : Plan) (s₀ : Applying) (x : Apply α) (s : Applying)
    (post : α → Applying → Prop) : Prop := Leads (Acts p plan) x s post (Stops p plan s₀)

variable {p : Pass} {plan : Plan} {d : Deed} {s₀ s s₁ s' : Applying}

instance : Std.Refl (Acts p plan) where
  refl _ := .refl

instance : IsTrans Applying (Acts p plan) where
  trans _ _ _ := .trans

theorem Act.acts (h : Act p plan d s s') : Acts p plan s s' := .single ⟨d, h⟩

theorem acts_count (s : Applying) (n : Applied) : Acts p plan s { s with applied := n } :=
  have hact : Act p plan .count s { s with applied := n } := .count rfl rfl
  hact.acts

theorem Did.after (h : Did p plan s₀ d s) (h' : Acts p plan s s') : Did p plan s₀ d s' :=
  let ⟨s₁, s₂, hfirst, hact, hlast⟩ := h
  ⟨s₁, s₂, hfirst, hact, hlast.trans h'⟩

theorem Relabelled.after {t i : EntityId} {links : Option PlannedLinks} (h : Relabelled p plan s₀ t i links s)
    (h' : Acts p plan s s') : Relabelled p plan s₀ t i links s' :=
  ⟨h.1.after h', fun links' heq => (h.2 links' heq).after h'⟩

/-- **What every deed keeps holds wherever a plan gets to.** -/
theorem Acts.invariant {I : Applying → Prop} (hI : ∀ {d s s'}, Act p plan d s s' → I s → I s') (h : Acts p plan s s')
    (hs : I s) : I s' := by
  induction h with
  | refl => exact hs
  | tail _ hact ih =>
    obtain ⟨d, hact⟩ := hact
    exact hI hact ih

theorem Applying.linksOf?_congr (h : s'.copies = s.copies) : ∀ links : PlannedLinks, s'.linksOf? links = s.linksOf? links
  | [] => rfl
  | (c, .target id) :: rest => by rw [linksOf?, linksOf?, linksOf?_congr h rest]
  | (c, .added i) :: rest => by rw [linksOf?, linksOf?, linksOf?_congr h rest, h]

theorem Act.schema (h : Act p plan d s s') : s'.graph.schema = s.graph.schema := by
  cases h with
  | cut _ edit => exact (Graph.remove_keeps edit).schema
  | copy _ _ _ _ edit => exact (Graph.add_data edit).1
  | give _ _ edit => exact Graph.modify_schema edit
  | move _ _ edit => exact (Graph.setParents_keeps edit).schema
  | attach _ edit => exact (Graph.setExternal_keeps edit).schema
  | follow _ _ _ edit => exact Graph.modify_schema edit
  | count graph => rw [graph]

theorem Acts.schema (h : Acts p plan s s') : s'.graph.schema = s.graph.schema :=
  h.invariant (I := fun x => x.graph.schema = s.graph.schema) (fun hact hx => hact.schema.trans hx) rfl

namespace Apply

/-! ## Edits and look-ups -/

theorem lookup_error {α : Type} {x : Except StoreError α} {e : ReconcileError} (h : lookup x s = .error e s') :
    ∃ cause, x = .error cause ∧ e = .store cause := by
  cases x with
  | ok b => cases h
  | error cause => exact ⟨cause, rfl, (EStateM.Result.error.inj h).1.symm⟩

theorem edit_error {α : Type} {x : Edit α} {e : ReconcileError} (h : edit x s = .error e s') :
    ∃ cause g, x s.graph = .error cause g ∧ e = .store cause := by
  rw [edit] at h
  split at h
  · cases h
  · next cause g heq => exact ⟨cause, g, heq, (EStateM.Result.error.inj h).1.symm⟩

theorem edit_enacts {α : Type} {x : Edit α} (hs : Acts p plan s₀ s)
    (hact : ∀ {a s'}, x s.graph = .ok a s'.graph → s'.copies = s.copies → Act p plan d s s')
    (hrefusal : ∀ {cause g}, x s.graph = .error cause g → Refusal p plan s (.store cause)) :
    Enacts p plan s₀ (edit x) s fun a s' => x s.graph = .ok a s'.graph ∧ s'.copies = s.copies ∧ Act p plan d s s' where
  ok h :=
    let ⟨hedit, hcopies⟩ := edit_ok h
    ⟨(hact hedit hcopies).acts, hedit, hcopies, hact hedit hcopies⟩
  error h := by
    obtain ⟨cause, g, hedit, rfl⟩ := edit_error h
    exact ⟨s, hs, hrefusal hedit⟩

theorem forM_enacts {γ : Type} {f : γ → Apply PUnit} {D : γ → Applying → Prop} {l : List γ}
    (hD : ∀ {c s s'}, Acts p plan s s' → D c s → D c s') (hs : Acts p plan s₀ s)
    (hf : ∀ c ∈ l, ∀ s, Acts p plan s₀ s → Enacts p plan s₀ (f c) s fun _ s' => D c s') :
    Enacts p plan s₀ (l.forM f) s fun _ s' => ∀ c ∈ l, D c s' :=
  Leads.forM (I := Acts p plan s₀) (D := D) (fun h hs => hs.trans h) hD hs hf

theorem data_enacts {α : Type} {i : EntityId} {f : Entity → Apply α} {post : α → Applying → Prop}
    (hs : Acts p plan s₀ s) (hf : ∀ data, p.incoming.entity i = .ok data → Enacts p plan s₀ (f data) s post) :
    Enacts p plan s₀ (lookup (p.incoming.entity i) >>= f) s post := by
  refine .look lookup_ok_iff.1 (fun {e s'} h => ?_) hf
  obtain ⟨cause, hdata, rfl⟩ := lookup_error h
  exact ⟨s, hs, .absent hdata⟩

/-! ## Attaching -/

/-- Values are attached to one entity. -/
def Attaches (id : EntityId) : Graph → Graph → Prop :=
  Relation.ReflTransGen fun g g' => ∃ mapping value, Graph.setExternal mapping id value g = .ok () g'

theorem copyExternals_total {id : EntityId} : ∀ (l : List (String × Json)) {s : Applying},
    s.graph.contains id = true → ∃ g, copyExternals id l s = .ok () { s with graph := g } ∧ Attaches id s.graph g
  | [], s, _ => ⟨s.graph, rfl, .refl⟩
  | (mapping, value) :: rest, s, h => by
    obtain ⟨g, hset⟩ := Graph.setExternal_total mapping value h
    have hedit : edit (Graph.setExternal mapping id value) s = .ok () { s with graph := g } := by rw [edit, hset]
    have hthere : g.contains id = true := ((Graph.setExternal_ok hset).contains id).trans h
    obtain ⟨g', hrest, hattaches⟩ := copyExternals_total rest (s := { s with graph := g }) hthere
    refine ⟨g', ?_, .head ⟨mapping, value, hset⟩ hattaches⟩
    rw [copyExternals, bind_of_ok hedit]
    exact hrest

theorem Attaches.acts {id : EntityId} {g : Graph} (h : Attaches id s.graph g)
    (htouched : (∃ i links, plan.operations.get? id = some (.relabel i links)) ∨ ∃ i, s.copies.get? i = some id) :
    Acts p plan s { s with graph := g } := by
  induction h with
  | refl => exact .refl
  | @tail g g' _ hset ih =>
    obtain ⟨mapping, value, hset⟩ := hset
    have hact : Act p plan (.attach id) { s with graph := g } { s with graph := g' } := .attach htouched hset rfl
    exact ih.trans hact.acts

/-! ## Removing and making room -/

theorem remove_enacts (hs : Acts p plan s₀ s) {r : EntityId} (hr : plan.operations.get? r = some .remove) :
    Enacts p plan s₀ (remove r) s fun _ s' => s'.copies = s.copies := by
  rw [remove]
  refine .get_bind ?_
  split
  · next hthere =>
    refine .bind (edit_enacts hs (fun hedit hcopies => .cut hr hedit hcopies) fun herr => ?_) ?_
    · obtain ⟨gone, g, hok⟩ := Graph.remove_total hthere
      rw [hok] at herr
      cases herr
    · rintro gone s₁ - ⟨-, hcopies, -⟩
      exact .of_ok (modify_run _ s₁) (acts_count s₁ _) hcopies
  · exact .pure rfl

theorem displace_enacts {kind : Kind} : ∀ {holders : List EntityId} {s : Applying}, Acts p plan s₀ s →
    Enacts p plan s₀ (displace plan.operations kind holders) s fun _ s' => s'.copies = s.copies
  | [], s, _ => .pure rfl
  | holder :: rest, s, hs => by
    rw [displace]
    refine .get_bind ?_
    dsimp only
    split
    · exact displace_enacts hs
    · next hthere =>
      split
      · next hremove =>
        refine .bind (remove_enacts hs hremove) fun _ s₁ h₁ hcopies => ?_
        exact (displace_enacts (hs.trans h₁)).mono (fun _ _ _ h => h.trans hcopies) fun _ h => h
      · next hstays => exact .of_error rfl ⟨s, hs, .taken (by simpa using hthere) hstays⟩

theorem slotHolders_error {g : Graph} {moving : Option EntityId} {cause : StoreError} : ∀ {links : List Link},
    slotHolders g moving links = .error cause → ∃ l ∈ links, g.contains l.2 = false ∧ cause = .notFound l.2
  | [], h => by cases h
  | (c, parent) :: rest, h => by
    have hlater : slotHolders g moving rest = .error cause →
        ∃ l ∈ (c, parent) :: rest, g.contains l.2 = false ∧ cause = .notFound l.2 := fun h =>
      let ⟨l, hl, hgone⟩ := slotHolders_error h
      ⟨l, List.mem_cons_of_mem _ hl, hgone⟩
    rw [slotHolders] at h
    split at h
    · rcases except_bind_error_iff.1 h with hoccupants | ⟨occupants, -, h⟩
      · rw [Graph.childrenOf, Graph.node] at hoccupants
        split at hoccupants
        · cases hoccupants
        · next hnone =>
          exact ⟨(c, parent), List.mem_cons_self, SortedMap.contains_eq_false_iff.2 hnone,
            (Except.error.inj hoccupants).symm⟩
      · rcases except_bind_error_iff.1 h with h | ⟨later, -, hpure⟩
        · exact hlater h
        · cases hpure
    · rcases except_bind_error_iff.1 h with hpure | ⟨occupants, -, h⟩
      · cases hpure
      · rcases except_bind_error_iff.1 h with h | ⟨later, -, hpure⟩
        · exact hlater h
        · cases hpure

theorem makeRoom_enacts (hs : Acts p plan s₀ s) {data : Entity} {links : List Link} {moving : Option EntityId} :
    Enacts p plan s₀ (makeRoom plan.operations data links moving) s fun _ s' => s'.copies = s.copies := by
  rw [makeRoom]
  refine .get_bind ?_
  refine .look (P := fun _ => True) (fun h => ⟨trivial, (lookup_ok_iff.1 h).2⟩) (fun {e s'} h => ?_) fun _ _ =>
    displace_enacts hs
  obtain ⟨cause, hslots, rfl⟩ := lookup_error h
  obtain ⟨l, -, hgone, rfl⟩ := slotHolders_error hslots
  exact ⟨s, hs, .parent hgone⟩

/-! ## Additions -/

/-- **What making an addition comes to** once there is room for it: the copy is entered, and then values are attached
to it.  Its id is entered among the copies last, but nothing before that looks at them. -/
theorem copy_leads {r : Applying → Applying → Prop} {post : Unit → Applying → Prop} {blame : ReconcileError → Prop}
    {i : EntityId} {data : Entity} {parents : List Link} {l : List (String × Json)}
    (hok : ∀ {x g} (s₁ : Applying), Graph.add data parents s.graph = .ok x s₁.graph → s₁.copies = s.copies.insert i x →
      Attaches x s₁.graph g → r s { s₁ with graph := g } ∧ post () { s₁ with graph := g })
    (herror : ∀ {cause g}, Graph.add data parents s.graph = .error cause g → blame (.store cause)) :
    Leads r (do
      let copy ← edit (Graph.add data parents)
      copyExternals copy l
      modify fun s => { s with
        copies := s.copies.insert i copy
        applied := { s.applied with added := s.applied.added + 1 } }) s post blame where
  ok {u s'} h := by
    obtain ⟨x, s₁, hadd, h⟩ := bind_ok_iff.1 h
    obtain ⟨hadd, hcopies⟩ := edit_ok hadd
    obtain ⟨g, hext, hattaches⟩ := copyExternals_total l (Graph.contains_of_add hadd)
    rw [bind_of_ok hext, modify_run] at h
    obtain ⟨rfl, rfl⟩ := EStateM.Result.ok.inj h
    exact hok ⟨s₁.graph, s₁.copies.insert i x, { s₁.applied with added := s₁.applied.added + 1 }⟩ hadd
      (congrArg (·.insert i x) hcopies) hattaches
  error {e s'} h := by
    rcases bind_error_iff.1 h with hadd | ⟨x, s₁, hadd, h⟩
    · obtain ⟨cause, g, hrefused, rfl⟩ := edit_error hadd
      exact herror hrefused
    · obtain ⟨hadd, -⟩ := edit_ok hadd
      obtain ⟨g, hext, -⟩ := copyExternals_total l (Graph.contains_of_add hadd)
      rw [bind_of_ok hext] at h
      cases h

theorem add_enacts (hs : Acts p plan s₀ s) {a : Addition} {parents : List Link} (ha : a ∈ plan.additions)
    (hnew : s.copies.get? a.incoming = none) (hparents : s.linksOf? (a.links.getD []) = some parents) :
    Enacts p plan s₀ (add p.incoming plan.operations a.incoming parents) s fun _ s' =>
      Did p plan s₀ (.copy a) s' ∧ ∃ x, s'.copies = s.copies.insert a.incoming x := by
  rw [add]
  refine data_enacts hs fun data hdata => .bind (makeRoom_enacts hs) fun _ s₁ h₁ hcopies => ?_
  have hnew₁ : s₁.copies.get? a.incoming = none := by rw [hcopies, hnew]
  have hparents₁ : s₁.linksOf? (a.links.getD []) = some parents := by rw [Applying.linksOf?_congr hcopies, hparents]
  refine copy_leads (fun {x g} s₂ hadd hentered hattaches => ?_) fun hrefused =>
    ⟨s₁, hs.trans h₁, .copy ha hnew₁ hdata hparents₁ hrefused⟩
  have hcopy : Act p plan (.copy a) s₁ s₂ := .copy ha hnew₁ hdata hparents₁ hadd hentered
  have hself : s₂.copies.get? a.incoming = some x := by rw [hentered, SortedMap.get?_insert_self]
  have hattached : Acts p plan s₂ { s₂ with graph := g } := hattaches.acts (.inr ⟨_, hself⟩)
  exact ⟨hcopy.acts.trans hattached, ⟨s₁, s₂, hs.trans h₁, hcopy, hattached⟩, x, by rw [hentered, hcopies]⟩

/-- A round copies what is not deferred.  One that defers everything has found no parents and done nothing. -/
theorem addRound_enacts : ∀ {l : List Addition} {s : Applying}, Acts p plan s₀ s → (l.map Addition.incoming).Nodup →
    (∀ a ∈ l, a ∈ plan.additions ∧ s.copies.get? a.incoming = none) →
    Enacts p plan s₀ (addRound p.incoming plan.operations l) s fun deferred s' =>
      deferred.Sublist l ∧ (∀ i, i ∉ l.map Addition.incoming → s'.copies.get? i = s.copies.get? i) ∧
        (∀ a ∈ deferred, s'.copies.get? a.incoming = none) ∧ (∀ a ∈ l, a ∈ deferred ∨ Did p plan s₀ (.copy a) s') ∧
        (deferred.length = l.length → s' = s ∧ ∀ a ∈ l, s.linksOf? (a.links.getD []) = none)
  | [], s, _, _, _ => .pure ⟨.slnil, fun _ _ => rfl, fun _ h => (by cases h), fun _ h => (by cases h), fun _ =>
      ⟨rfl, fun _ h => by cases h⟩⟩
  | a :: rest, s, hs, hnodup, hnew => by
    obtain ⟨ha, hnew'⟩ := List.forall_mem_cons.1 hnew
    rw [List.map_cons, List.nodup_cons] at hnodup
    rw [addRound]
    refine .get_bind ?_
    cases hparents : s.linksOf? (a.links.getD []) with
    | some parents =>
      refine .bind (add_enacts hs ha.1 ha.2 hparents) ?_
      rintro _ s₁ h₁ ⟨hdid, x, hcopies⟩
      have hother : ∀ i, i ≠ a.incoming → s₁.copies.get? i = s.copies.get? i := fun i hi => by
        rw [hcopies, SortedMap.get?_insert_of_ne _ _ hi]
      have hnew₁ : ∀ b ∈ rest, b ∈ plan.additions ∧ s₁.copies.get? b.incoming = none := by
        intro b hb
        refine ⟨(hnew' b hb).1, ?_⟩
        rw [hother _ fun heq => hnodup.1 (heq ▸ List.mem_map_of_mem hb)]
        exact (hnew' b hb).2
      refine (addRound_enacts (hs.trans h₁) hnodup.2 hnew₁).mono ?_ fun _ h => h
      rintro deferred s' h' ⟨hsub, hframe, hdeferred, hdone, -⟩
      refine ⟨hsub.cons a, fun i hi => ?_, hdeferred, List.forall_mem_cons.2 ⟨.inr (hdid.after h'), hdone⟩, fun hlen => ?_⟩
      · rw [List.map_cons, List.mem_cons, not_or] at hi
        rw [hframe i hi.2, hother i hi.1]
      · -- one addition was made, so fewer are deferred
        have hle := hsub.length_le
        rw [List.length_cons] at hlen
        omega
    | none =>
      refine .bind (addRound_enacts hs hnodup.2 hnew') ?_
      rintro later s' h' ⟨hsub, hframe, hdeferred, hdone, hall⟩
      refine .pure ⟨hsub.cons_cons a, fun i hi => ?_, List.forall_mem_cons.2 ⟨?_, hdeferred⟩,
        List.forall_mem_cons.2 ⟨.inl List.mem_cons_self, fun b hb => ?_⟩, fun hlen => ?_⟩
      · rw [List.map_cons, List.mem_cons, not_or] at hi
        exact hframe i hi.2
      · rw [hframe _ hnodup.1]
        exact ha.2
      · exact (hdone b hb).imp (List.mem_cons_of_mem a) id
      · rw [List.length_cons, List.length_cons, Nat.add_right_cancel_iff] at hlen
        obtain ⟨hsame, hnone⟩ := hall hlen
        exact ⟨hsame, List.forall_mem_cons.2 ⟨hparents, hnone⟩⟩

theorem addRounds_enacts : ∀ {rounds : Nat} {l : List Addition} {s : Applying}, Acts p plan s₀ s → l.length ≤ rounds →
    (l.map Addition.incoming).Nodup → (∀ a ∈ l, a ∈ plan.additions ∧ s.copies.get? a.incoming = none) →
    Enacts p plan s₀ (addRounds p.incoming plan.operations rounds l) s fun _ s' =>
      ∀ a ∈ l, Did p plan s₀ (.copy a) s'
  | _, [], s, _, _, _, _ => by
    rw [addRounds]
    exact .pure fun _ h => by cases h
  | 0, _ :: _, _, _, hlen, _, _ => by cases hlen
  | rounds + 1, a :: rest, s, hs, hlen, hnodup, hnew => by
    rw [addRounds]
    refine .bind (addRound_enacts hs hnodup hnew) ?_
    rintro deferred s₁ h₁ ⟨hsub, -, hdeferred, hdone, hall⟩
    have hnew₁ : ∀ b ∈ deferred, b ∈ plan.additions ∧ s₁.copies.get? b.incoming = none := fun b hb =>
      ⟨(hnew b (hsub.subset hb)).1, hdeferred b hb⟩
    split
    · next hstuck =>
      obtain ⟨hsame, hnone⟩ := hall hstuck
      subst s₁
      exact .of_error rfl ⟨s, hs, .unadded (fun b hb => (hnew₁ b hb).1) fun b hb => hnone b (hsub.subset hb)⟩
    · next hfewer =>
      have hlen' : deferred.length ≤ rounds := by
        have hle := hsub.length_le
        omega
      refine (addRounds_enacts (hs.trans h₁) hlen' ((hsub.map _).nodup hnodup) hnew₁).mono ?_ fun _ h => h
      intro _ s' h' hrest b hb
      exact (hdone b hb).elim (hrest b) fun hdid => hdid.after h'

/-! ## Relabels -/

theorem attach_leads {r : Applying → Applying → Prop} {post : Unit → Applying → Prop} {blame : ReconcileError → Prop}
    {t : EntityId} {l : List (String × Json)} (hthere : s.graph.contains t = true)
    (hok : ∀ {g} (applied : Applied), Attaches t s.graph g →
      r s { s with graph := g, applied := applied } ∧ post () { s with graph := g, applied := applied }) :
    Leads r (do
      copyExternals t l
      modify fun s => { s with applied := { s.applied with relabeled := s.applied.relabeled + 1 } }) s post blame := by
  obtain ⟨g, hext, hattaches⟩ := copyExternals_total l hthere
  obtain ⟨hr, hpost⟩ := hok { s.applied with relabeled := s.applied.relabeled + 1 } hattaches
  exact .of_ok (bind_of_ok hext) hr hpost

theorem relabel_enacts (hs : Acts p plan s₀ s) {t i : EntityId} {links : Option PlannedLinks}
    (hop : plan.operations.get? t = some (.relabel i links)) :
    Enacts p plan s₀ (relabel p.incoming plan.operations t i links) s fun _ s' =>
      Relabelled p plan s₀ t i links s' := by
  -- what is left to do once the entity has its data and its links
  have hend : ∀ {s₁ : Applying}, s₁.graph.contains t = true → Enacts p plan s₀ (do
      copyExternals t (p.incoming.externalsOf i)
      modify fun s => { s with applied := { s.applied with relabeled := s.applied.relabeled + 1 } }) s₁
        fun _ _ => True := fun {s₁} hthere =>
    attach_leads hthere fun applied hattaches =>
      ⟨(hattaches.acts (.inl ⟨i, links, hop⟩)).trans (acts_count _ applied), trivial⟩
  rw [relabel]
  refine data_enacts hs fun data hdata => .bind (makeRoom_enacts hs) fun _ s₁ h₁ hcopies₁ => ?_
  refine .bind (edit_enacts (hs.trans h₁) (fun hedit hcopies => .give hop hdata hedit hcopies)
    fun herr => .give hop hdata herr) ?_
  rintro _ s₂ h₂ ⟨hmodify, hcopies₂, hgive⟩
  obtain ⟨hpresent, hsame⟩ := Graph.modify_ok hmodify
  have hgiven : Did p plan s₀ (.give t i) s₂ := ⟨s₁, s₂, hs.trans h₁, hgive, .refl⟩
  have hs₂ := (hs.trans h₁).trans h₂
  cases links with
  | none =>
    refine (hend ((hsame.contains t).trans hpresent)).mono (fun _ s' h' _ => ⟨hgiven.after h', ?_⟩) fun _ h => h
    intro _ h
    cases h
  | some links =>
    refine .get_bind ?_
    cases hparents : s₂.linksOf? links with
    | none => exact .of_error rfl ⟨s₂, hs₂, .unparented hop hparents⟩
    | some parents =>
      refine .bind (makeRoom_enacts hs₂) fun _ s₃ h₃ hcopies₃ => ?_
      have hparents₃ : s₃.linksOf? links = some parents := by rw [Applying.linksOf?_congr hcopies₃, hparents]
      refine .bind (edit_enacts (hs₂.trans h₃) (fun hedit hcopies => .move hop hparents₃ hedit hcopies)
        fun herr => .move hop hparents₃ herr) ?_
      rintro _ s₄ h₄ ⟨hset, hcopies₄, hmove⟩
      refine (hend (Graph.contains_of_setParents hset)).mono (fun _ s' h' _ => ⟨hgiven.after (h₃.trans (h₄.trans h')), ?_⟩) fun _ h => h
      intro _ h
      obtain rfl := Option.some.inj h
      exact ⟨s₃, s₄, hs₂.trans h₃, hmove, h'⟩

/-! ## The whole plan -/

theorem followInto_enacts {rename : Rename} (hrename : rename ∈ plan.renames) : ∀ {l : List EntityId} {s : Applying},
    Acts p plan s₀ s → Enacts p plan s₀ (followInto plan.operations rename l) s fun _ _ => True
  | [], _, _ => .pure trivial
  | id :: rest, s, hs => by
    rw [followInto]
    refine .get_bind ?_
    split
    · exact followInto_enacts hrename hs
    · next hfollows =>
      simp only [Bool.or_eq_true, not_or, Bool.not_eq_true] at hfollows
      refine .bind (edit_enacts hs (fun hedit hcopies => .follow hrename hfollows.1.2 hfollows.2 hedit hcopies)
        fun herr => .follow herr) fun _ s₁ h₁ _ => ?_
      exact followInto_enacts hrename (hs.trans h₁)

/-- **Carrying out a plan copies every addition and makes every relabel**, deed by deed. -/
theorem plan_enacts (hnodup : (plan.additions.map Addition.incoming).Nodup) :
    Enacts p plan (.start p.target) (Apply.plan p.incoming plan) (.start p.target) fun _ s' =>
      (∀ a ∈ plan.additions, Did p plan (.start p.target) (.copy a) s') ∧
        ∀ {t i links}, plan.operations.get? t = some (.relabel i links) →
          Relabelled p plan (.start p.target) t i links s' := by
  rw [Apply.plan]
  refine .bind (addRounds_enacts .refl (Nat.le_refl _) hnodup fun a ha => ⟨ha, rfl⟩) fun _ s₁ h₁ hadded => ?_
  have hrelabels : Enacts p plan (.start p.target)
      (plan.relabels.forM fun r => relabel p.incoming plan.operations r.1 r.2.1 r.2.2) s₁
      fun _ s' => ∀ r ∈ plan.relabels, Relabelled p plan (.start p.target) r.1 r.2.1 r.2.2 s' :=
    forM_enacts (fun {_ _ _} h hd => Relabelled.after hd h) h₁ fun r hr s hs =>
      relabel_enacts hs (Plan.mem_relabels_iff.1 hr)
  refine .bind hrelabels fun _ s₂ h₂ hgiven => ?_
  have hremovals := forM_enacts (l := plan.removals) (f := remove) (D := fun _ _ => True) (fun _ _ => trivial)
    (h₁.trans h₂) fun r hr s hs =>
      (remove_enacts hs (Plan.mem_removals_iff.1 hr)).mono (fun _ _ _ _ => trivial) fun _ h => h
  refine .bind hremovals fun _ s₃ h₃ _ => ?_
  have hrenames := forM_enacts (l := plan.renames) (f := follow plan.operations) (D := fun _ _ => True)
    (fun _ _ => trivial) ((h₁.trans h₂).trans h₃) fun r hr s hs => .get_bind (followInto_enacts hr hs)
  refine .bind hrenames fun _ s₄ h₄ _ => ?_
  refine .get_bind (.pure ⟨fun a ha => (hadded a ha).after (h₂.trans (h₃.trans h₄)), fun {t i links} hop => ?_⟩)
  exact (hgiven (t, i, links) (Plan.mem_relabels_iff.2 hop)).after (h₃.trans h₄)

end Apply
end Reconciliation
