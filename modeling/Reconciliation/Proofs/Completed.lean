import Reconciliation.Proofs.Links
/-!
# What a run leaves behind

While a plan is carried out the target stays consistent (`Act.consistent`).  A target entity without an operation
is left alone (`Plan.LeavesAlone`): only its references to what is renamed change.  `Completed` sums up what a run leaves
behind that succeeds: what there is, with which data and under which parents.
-/
namespace Reconciliation

open Progress Pass Reconciliation.Graph

variable {p : Pass} {plan : Plan} {d : Deed} {s s₀ s₁ s' : Applying} {t i x y : EntityId} {e : Entity} {c : Connection}
  {q : PlannedParent}

/-! ## The target stays consistent -/

theorem Act.consistent (hkeys : plan.KeepsKeys p) (hf : plan.Fits p) (h : Act p plan d s s') (hs : Faithful p plan s)
    (hg : s.graph.Consistent) : s'.graph.Consistent := by
  cases h with
  | cut _ edit => exact hg.remove edit
  | @copy a data parents x _ _ addition new found resolved edit copies =>
    refine hg.add ?_ edit
    -- the next id is nobody's
    rw [← Bool.not_eq_true]
    intro hthere
    obtain ⟨q, hq⟩ := hs.named hthere
    exact hs.unnamed data.kind hq
  | @give t i links data _ _ operation found edit copies =>
    obtain ⟨old, hold, ⟨hkey, heq⟩ | ⟨hne, -⟩⟩ := modify_cases edit
    · rw [heq]
      exact hg.replaceData hold rfl hkey
    · obtain ⟨hkind, hkey⟩ := (hs.allowed (q := .target t) ⟨hf.operations operation, rfl⟩ hold).key_of_relabel hkeys
        operation found
      rw [Entity.relabel_eq hkind, hs.schema] at hne
      exact absurd hkey.symm hne
  | move _ _ edit => exact hg.setParents edit
  | attach _ edit => exact hg.setExternal edit
  | @follow id rename _ _ _ untouched original edit =>
    obtain ⟨old, hold, ⟨hkey, heq⟩ | ⟨hne, -⟩⟩ := modify_cases edit
    · rw [heq]
      exact hg.replaceData hold rfl hkey
    · obtain ⟨-, -, -, -, hplain⟩ := hs.alone hold (SortedMap.contains_eq_false_iff.1 untouched) original
      rw [hs.schema] at hne
      exact absurd hplain.naturalKey?_rename hne
  | count graph => rwa [graph]

/-- **A state on the way**: the data is faithful and the target consistent. -/
structure Orderly (p : Pass) (plan : Plan) (s : Applying) : Prop extends Faithful p plan s where
  consistent : s.graph.Consistent

theorem Act.orderly (hf : plan.Fits p) (hkeys : plan.KeepsKeys p)
    (h : Act p plan d s s') (hs : Orderly p plan s) : Orderly p plan s' :=
  ⟨h.faithful hf hkeys hs.toFaithful, h.consistent hkeys hf hs.toFaithful hs.consistent⟩

theorem orderly_start (hp : p.target.Consistent) (hplain : p.target.PlainKeys) (hcounted : p.target.Counted) :
    Orderly p plan (.start p.target) := ⟨faithful_start hplain hcounted, hp⟩

theorem Acts.orderly (hf : plan.Fits p) (hkeys : plan.KeepsKeys p)
    (h : Acts p plan s s') (hs : Orderly p plan s) : Orderly p plan s' :=
  h.invariant (I := Orderly p plan) (fun hact hs => hact.orderly hf hkeys hs) hs

/-! ## What a plan leaves alone -/

/-- The data of an entity once its references have followed some renames. -/
def Entity.renameAll (e : Entity) (renames : List Rename) : Entity := renames.foldl (fun e r => e.rename r.old r.new) e

/-- **An entity that the plan leaves alone**: it is a target entity, and not a copy. -/
structure Plan.LeavesAlone (p : Pass) (plan : Plan) (t : EntityId) : Prop where
  there : p.target.contains t = true
  operation : plan.operations.get? t = none

theorem Plan.LeavesAlone.original (h : plan.LeavesAlone p t) (hs : Naming plan p.target s) :
    s.copies.values.contains t = false := by
  rw [List.contains_eq_mem, decide_eq_false_iff_not]
  rintro hmem
  obtain ⟨⟨i, x⟩, hcopy, rfl⟩ := List.mem_map.1 hmem
  have hself : s.Names p.target (.target x) x := ⟨h.there, rfl⟩
  have hcopied : s.Names p.target (.added i) x := SortedMap.get?_eq_some_iff.2 hcopy
  cases hs.unique hself hcopied

theorem Act.data_of_alone (hnot : ∀ id rename, d ≠ .follow id rename) (hf : plan.Fits p) (hkeys : plan.KeepsKeys p)
    (h : Act p plan d s s') (hs : Faithful p plan s) (ht : plan.LeavesAlone p t) (he : s'.graph.data? t = some e) :
    s.graph.data? t = some e := by
  cases h with
  | cut _ edit => exact (remove_keeps edit).data he
  | copy _ _ _ _ edit =>
    obtain ⟨rfl, -⟩ := add_ok edit
    rw [(add_data edit).2, if_neg] at he
    · exact he
    · -- a copy gets an id that no target entity has
      rintro rfl
      exact hs.unnamed _ (q := .target _) ⟨ht.there, rfl⟩
  | give operation found edit copies =>
    obtain ⟨links, data, hop, -, hafter⟩ := Act.give_data hf hkeys (.give operation found edit copies) hs
    rw [hafter, if_neg] at he
    · exact he
    · rintro rfl
      cases hop.symm.trans ht.operation
  | move _ _ edit => exact (setParents_keeps edit).data he
  | attach _ edit => exact (setExternal_keeps edit).data he
  | follow => exact absurd rfl (hnot _ _)
  | count graph => rwa [graph] at he

/-- The first three phases of a plan, before renames are followed. -/
def Plan.withoutRenames (plan : Plan) : Plan := { plan with renames := [] }

theorem Apply.plan_ok {applied : Applied} (h : Apply.plan p.incoming plan s = .ok applied s') :
    ∃ s₁, Apply.plan p.incoming plan.withoutRenames s = .ok s₁.applied s₁ ∧
      plan.renames.forM (follow plan.operations) s₁ = .ok () s' := by
  rw [Apply.plan] at h
  obtain ⟨_, s₁, hadds, h⟩ := bind_ok_iff.1 h
  obtain ⟨_, s₂, hrelabels, h⟩ := bind_ok_iff.1 h
  obtain ⟨_, s₃, hremovals, h⟩ := bind_ok_iff.1 h
  obtain ⟨_, s₄, hrenames, h⟩ := bind_ok_iff.1 h
  obtain ⟨-, rfl⟩ := EStateM.Result.ok.inj h
  refine ⟨s₃, ?_, hrenames⟩
  rw [Apply.plan]
  refine bind_ok_iff.2 ⟨_, s₁, hadds, bind_ok_iff.2 ⟨_, s₂, hrelabels, bind_ok_iff.2 ⟨_, s₃, hremovals, rfl⟩⟩⟩

theorem Apply.followInto_data (hf : plan.Fits p) (hkeys : plan.KeepsKeys p)
    {rename : Rename} (hrename : rename ∈ plan.renames) (ht : plan.LeavesAlone p t) : ∀ {l : List EntityId} {s : Applying}
    {e : Entity} {u : Unit}, l.Nodup → Orderly p plan s → s.graph.data? t = some e →
    followInto plan.operations rename l s = .ok u s' →
    s'.graph.data? t = some (if t ∈ l then e.rename rename.old rename.new else e)
  | [], s, _, _, _, _, he, h => by
    obtain ⟨-, rfl⟩ := EStateM.Result.ok.inj h
    rw [if_neg List.not_mem_nil, he]
  | id :: rest, s, _, _, hnodup, hs, he, h => by
    obtain ⟨hid, hnodup'⟩ := List.nodup_cons.1 hnodup
    rw [followInto, get_bind] at h
    split at h
    · next hskip =>
      have hne : t ≠ id := by
        rintro rfl
        simp only [contains_of_data he, ht.original hs.toNaming, SortedMap.contains_eq_false_iff.2 ht.operation,
          Bool.not_true, Bool.or_false, Bool.false_eq_true] at hskip
      rw [followInto_data hf hkeys hrename ht hnodup' hs he h]
      simp [hne]
    · next hfollows =>
      simp only [Bool.or_eq_true, not_or, Bool.not_eq_true] at hfollows
      obtain ⟨_, s₁, hedit, hrest⟩ := bind_ok_iff.1 h
      obtain ⟨hedit, hcopies⟩ := edit_ok hedit
      have hact : Act p plan (.follow id rename) s s₁ := .follow hrename hfollows.1.2 hfollows.2 hedit hcopies
      obtain ⟨old, hold, -⟩ := modify_cases hedit
      obtain ⟨-, e₀, -, -, hplain⟩ := hs.alone hold (SortedMap.contains_eq_false_iff.1 hfollows.1.2) hfollows.2
      have hkey : s.graph.schema.naturalKey? (old.rename rename.old rename.new) = s.graph.schema.naturalKey? old := by
        rw [hs.schema]
        exact hplain.naturalKey?_rename
      have hafter := modify_data hold hkey hedit t
      by_cases heq : t = id
      · subst heq
        obtain rfl := Option.some.inj (he.symm.trans hold)
        rw [if_pos rfl] at hafter
        rw [followInto_data hf hkeys hrename ht hnodup' (hact.orderly hf hkeys hs) hafter hrest]
        simp [hid]
      · rw [if_neg heq] at hafter
        rw [followInto_data hf hkeys hrename ht hnodup' (hact.orderly hf hkeys hs) (hafter.trans he) hrest]
        simp [heq]

theorem Apply.follow_data (hf : plan.Fits p) (hkeys : plan.KeepsKeys p)
    {rename : Rename} (hrename : rename ∈ plan.renames) (ht : plan.LeavesAlone p t) (hs : Orderly p plan s) {u : Unit}
    (he : s.graph.data? t = some e) (h : follow plan.operations rename s = .ok u s') :
    s'.graph.data? t = some (e.rename rename.old rename.new) := by
  rw [follow, get_bind] at h
  have hnodup : (s.graph.referrers rename.old).Nodup := by
    rw [referrers, KeyTable.referrers]
    cases s.graph.keys.referring.get? rename.old with
    | none => exact .nil
    | some ids => exact ids.keys_nodup
  rw [followInto_data hf hkeys hrename ht hnodup hs he h]
  split
  · rfl
  · next hnot =>
    rw [Entity.rename_eq_self fun hmem => hnot (hs.consistent.referrer_iff.2 ⟨e, he, hmem⟩)]

theorem Apply.renames_data (hf : plan.Fits p) (hkeys : plan.KeepsKeys p)
    (ht : plan.LeavesAlone p t) : ∀ {l : List Rename} {s : Applying} {e : Entity} {u : PUnit}, (∀ r ∈ l, r ∈ plan.renames) →
    Orderly p plan s → s.graph.data? t = some e → l.forM (follow plan.operations) s = .ok u s' →
    s'.graph.data? t = some (e.renameAll l)
  | [], s, e, _, _, _, he, h => by
    obtain ⟨-, rfl⟩ := EStateM.Result.ok.inj h
    exact he
  | r :: rest, s, e, _, hmem, hs, he, h => by
    obtain ⟨hr, hmem'⟩ := List.forall_mem_cons.1 hmem
    obtain ⟨s₁, hfollow, hrest⟩ := forM_cons_ok.1 h
    have henacts : Enacts p plan s (follow plan.operations r) s fun _ _ => True :=
      .get_bind (followInto_enacts hr .refl)
    have hacts := (henacts.ok hfollow).1
    show s'.graph.data? t = some ((e.rename r.old r.new).renameAll rest)
    exact renames_data hf hkeys ht hmem' (hacts.orderly hf hkeys hs)
      (follow_data hf hkeys hr ht hs he hfollow) hrest

theorem Act.of_withoutRenames (h : Act p plan.withoutRenames d s s') :
    Act p plan d s s' ∧ ∀ id rename, d ≠ .follow id rename := by
  cases h with
  | cut operation edit copies => exact ⟨.cut operation edit copies, fun _ _ h => by cases h⟩
  | copy addition new found resolved edit copies =>
    exact ⟨.copy addition new found resolved edit copies, fun _ _ h => by cases h⟩
  | give operation found edit copies => exact ⟨.give operation found edit copies, fun _ _ h => by cases h⟩
  | move operation resolved edit copies => exact ⟨.move operation resolved edit copies, fun _ _ h => by cases h⟩
  | attach touched edit copies => exact ⟨.attach touched edit copies, fun _ _ h => by cases h⟩
  | follow rename_mem => cases rename_mem
  | count graph copies => exact ⟨.count graph copies, fun _ _ h => by cases h⟩

/-- **What the plan leaves alone has its own data in the end**, with its references where the renames lead. -/
theorem Apply.plan_data_of_alone {applied : Applied} (hf : plan.Fits p)
    (hkeys : plan.KeepsKeys p) (hstart : Orderly p plan (.start p.target)) (ht : plan.LeavesAlone p t)
    (h : Apply.plan p.incoming plan (.start p.target) = .ok applied s') (hthere : s'.graph.contains t = true)
    (he : p.target.data? t = some e) : s'.graph.data? t = some (e.renameAll plan.renames) := by
  obtain ⟨s₁, hfirst, hrenames⟩ := plan_ok h
  have henacts : Enacts p plan.withoutRenames (.start p.target) (Apply.plan p.incoming plan.withoutRenames)
      (.start p.target) _ := plan_enacts hf.additions
  have hacts := (henacts.ok hfirst).1
  -- before any rename it has the data that it had, if it is still there
  obtain ⟨hs₁, hbefore⟩ := hacts.invariant (I := fun s => Orderly p plan s ∧ ∀ d, s.graph.data? t = some d →
      p.target.data? t = some d)
    (fun hact hs =>
      have ⟨hact', hnot⟩ := hact.of_withoutRenames
      ⟨hact'.orderly hf hkeys hs.1, fun d hd => hs.2 d
        (hact'.data_of_alone hnot hf hkeys hs.1.toFaithful ht hd)⟩)
    ⟨hstart, fun _ hd => hd⟩
  have hthere₁ : s₁.graph.contains t = true := ((renames_ok hrenames).1.contains t).symm.trans hthere
  obtain ⟨d, hd⟩ := exists_entity hthere₁
  rw [entity_ok_iff_data] at hd
  obtain rfl := Option.some.inj (he.symm.trans (hbefore d hd))
  exact renames_data hf hkeys ht (fun _ hr => hr) hs₁ hd hrenames

/-! ## The end of a run -/

/-- **What a run that succeeds leaves behind.**  Every addition is copied, what is relabelled has its data, what is
removed is gone, what is left alone has its data but for renames, and the parents of an entity are what the plan links it
to, as far as that is there. -/
structure Completed (p : Pass) (plan : Plan) (s : Applying) : Prop extends Orderly p plan s where
  added : ∀ {a}, a ∈ plan.additions → s.copies.contains a.incoming = true
  relabelled : ∀ {t i links e}, plan.operations.get? t = some (.relabel i links) → s.graph.data? t = some e →
    p.incoming.entity i = .ok e
  removed : ∀ {t}, plan.operations.get? t = some .remove → s.graph.contains t = false
  alone : ∀ {t e}, plan.LeavesAlone p t → s.graph.contains t = true → p.target.data? t = some e →
    s.graph.data? t = some (e.renameAll plan.renames)
  gone_iff : ∀ {q x}, s.Names p.target q x → (s.graph.contains x = false ↔ plan.Doomed p.target q)
  hasLink_iff : ∀ {q x c y}, s.Names p.target q x → s.graph.contains x = true →
    (s.graph.HasLink x c y ↔ ∃ q', plan.Link p.target [] q c q' ∧ s.Names p.target q' y ∧ s.graph.contains y = true)

variable {sp : Progress} {fuel : Nat} {targetOrder incomingOrder : List EntityId}

theorem applyPlan_completed {o : Outcome} {applied : Applied} {g : Graph} (hp : p.Consistent)
    (ho : p.Orders targetOrder incomingOrder) (hplan : p.planInOrder fuel targetOrder incomingOrder = .ok (sp, o))
    (hplain : p.target.PlainKeys) (hcounted : p.target.Counted)
    (happly : Graph.applyPlan p.incoming o.plan p.target = .ok applied g) :
    ∃ s, s.graph = g ∧ Completed p o.plan s := by
  obtain ⟨s, hrun, rfl⟩ := applyPlan_ok_iff.1 happly
  have hf := planInOrder_fits hp ho hplan
  have hkeys := planInOrder_keepsKeys hp ho hplan
  have hstart : Orderly p o.plan (.start p.target) := orderly_start hp.target hplain hcounted
  obtain ⟨hacts, hcopied, hrelabelled⟩ := (Apply.plan_enacts (p := p) hf.additions).ok hrun
  have hs := hacts.orderly hf hkeys hstart
  refine ⟨s, rfl, hs, fun {a} ha => ?_, fun hop => hstart.given_of_did hf hkeys (hrelabelled hop).1,
    fun hop => (Apply.plan_carried hf hp.target hcounted hrun (hf.operations hop)).2 (.removed hop),
    fun ht hthere he => Apply.plan_data_of_alone hf hkeys hstart ht hrun hthere he,
    Apply.plan_missing_iff hf hp.target hcounted hrun,
    hasLink_iff_of_run hf hp.target hcounted hacts hcopied hrelabelled⟩
  obtain ⟨s₁, s₂, -, hcopy, hlast⟩ := hcopied a ha
  obtain ⟨x, hx, -⟩ : ∃ x, s₂.Names p.target (.added a.incoming) x ∧
      Linked p.target (fun c q => (c, q) ∈ a.links.getD []) x s₂ := hcopy.linked_of_copy hf fun _ _ => .rfl
  exact SortedMap.contains_iff.2 ⟨x, hlast.names hx⟩

end Reconciliation
