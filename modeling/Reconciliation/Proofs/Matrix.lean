import Reconciliation.Proofs.Passes
import Reconciliation.Proofs.Checking
/-!
# What a whole pass decides

A pass ends in a sound state in which every accepted entity of both sides has a fate, or it halts: because a target
entity cannot be classified, or because the second half has too little fuel (`classify_ends`).  The renames are found
in any case.  So what a plan says about whose entities it removes, relabels and adds is what its fates say
(`decided_planInOrder`).
-/
namespace Reconciliation

open Progress Planning Pass

variable {p : Pass} {s : Progress} {fuel : Nat} {targetOrder incomingOrder : List EntityId} {h : Halt}

namespace Pass

/-- Classifying a target entity halts, in the state in which its turn comes. -/
def TargetHalts (p : Pass) (fuel : Nat) (targetOrder : List EntityId) (h : Halt) : Prop :=
  ∃ before t after s, targetOrder = before ++ t :: after ∧
    before.forM (p.classifyTarget (p.resolveRoot fuel)) .start = .ok () s ∧ s.Sound p ∧ (Call.target t).Open p s ∧
    (Call.target t).HaltsIn p fuel s h

/-- **A pass decides about everything that it visits, or halts.** -/
theorem classify_ends (hp : p.Consistent) (ho : p.Orders targetOrder incomingOrder) :
    Ends p (p.classify fuel targetOrder incomingOrder) .start
      (fun _ s => s.TargetDone p ∧ ∀ i, p.IncomingIs true i → s.incomingFates.contains i = true)
      fun h => p.TargetHalts fuel targetOrder h ∨ h = .outOfFuel ∧ fuel < p.fuel := by
  have htarget := Ends.forM (I := Sound p) (D := fun t s => s.targetFates.contains t = true) Steps.sound
    (fun hs h => hs.targetClassified h) (sound_start p) fun t ht s hs =>
    visitTarget_ends fuel hp hs ((ho.target t).1 ht)
  refine .bind (htarget.mono (fun _ _ h => h) ?_) ?_
  · intro h ⟨before, t, after, s, heq, hfirst, _, hs, hopen, hhalts⟩
    exact .inl ⟨before, t, after, s, heq, hfirst, hs, hopen, hhalts⟩
  intro _ s₁ _ hs₁ hdone
  have hd : s₁.TargetDone p := fun t ht => hdone t ((ho.target t).2 ht)
  have hincoming := Ends.forM (I := fun s => s.Sound p ∧ s.TargetDone p)
    (D := fun i s => s.incomingFates.contains i = true)
    (fun hs h => ⟨hs.sound h.1, targetDone_after hs h.2⟩) (fun hs h => hs.incomingClassified h)
    ⟨hs₁.sound (sound_start p), hd⟩ fun i hi s hs =>
    classifyIncoming_ends fuel hp hs.1 hs.2 ((ho.incoming i).1 hi).contains
  refine ⟨fun hok => ?_, fun herr => ?_⟩
  · obtain ⟨hs₂, hdone'⟩ := hincoming.ok hok
    exact ⟨hs₂, targetDone_after hs₂ hd, fun i hi => hdone' i ((ho.incoming i).2 hi)⟩
  · obtain ⟨_, i, _, s₂, heq, -, -, ⟨hs₂, hd₂⟩, y, s', hcost, hs', hopen, hhalts⟩ := hincoming.error herr
    have hthere : p.incoming.contains i = true := by
      refine ((ho.incoming i).1 ?_).contains
      rw [heq]
      exact List.mem_append_right _ List.mem_cons_self
    have hsome : 0 < p.incoming.size := by
      have hone : [i].length ≤ p.incoming.size :=
        Graph.length_le_size (List.nodup_cons.2 ⟨List.not_mem_nil, .nil⟩) fun x hx => by rwa [List.mem_singleton.1 hx]
      exact hone
    obtain ⟨hh, hle⟩ := incoming_halts hp (hs'.sound hs₂) (targetDone_after hs' hd₂) hopen hcost hhalts
    refine .inr ⟨hh, ?_⟩
    have hlevel : y.level ≤ 1 := by cases y <;> simp [Call.level]
    have hroom : (2 * (p.target.size + p.incoming.size) + 1) * 2 ≤ p.fuel := Nat.mul_le_mul_left _ (by omega)
    omega

/-! ## Renames -/

theorem freshKeys_total (target : Graph) {incoming : Graph} : ∀ {l : List Addition},
    (∀ a ∈ l, incoming.contains a.incoming = true) → ∃ r, Plan.freshKeys target incoming l = .ok r
  | [], _ => ⟨[], rfl⟩
  | a :: rest, hl => by
    obtain ⟨data, hd⟩ := Graph.exists_entity (hl a List.mem_cons_self)
    obtain ⟨r, hr⟩ := freshKeys_total target fun x hx => hl x (List.mem_cons_of_mem _ hx)
    simp only [Plan.freshKeys, hd, hr, bind, Except.bind]
    split
    · exact ⟨r, rfl⟩
    · exact ⟨_, rfl⟩

theorem pairRenames_total {target : Graph} (incoming : Graph) : ∀ {l : List (EntityId × Operation)}
    (fresh : List (EntityId × NaturalKey)), (∀ o ∈ l, o.2 = .remove → target.contains o.1 = true) →
    ∃ r, Plan.pairRenames target incoming l fresh = .ok r
  | [], _, _ => ⟨[], by rw [Plan.pairRenames]⟩
  | (_, .relabel _ _) :: rest, fresh, hl => by
    rw [Plan.pairRenames]
    exact pairRenames_total incoming fresh fun x hx => hl x (List.mem_cons_of_mem _ hx)
  | (removed, .remove) :: rest, fresh, hl => by
    obtain ⟨data, hd⟩ := Graph.exists_entity (hl _ List.mem_cons_self rfl)
    have hrest : ∀ fresh, ∃ r, Plan.pairRenames target incoming rest fresh = .ok r := fun fresh =>
      pairRenames_total incoming fresh fun x hx => hl x (List.mem_cons_of_mem _ hx)
    rw [Plan.pairRenames]
    split
    · exact ⟨[], rfl⟩
    simp only [hd, bind, Except.bind]
    split
    · exact hrest fresh
    split
    · exact hrest fresh
    split
    · exact hrest fresh
    · next partner _ =>
      obtain ⟨r, hr⟩ := hrest (fresh.erase partner)
      rw [hr]
      exact ⟨_, rfl⟩

theorem findRenames_total (hs : s.Sound p) : ∃ r, Plan.findRenames p.target p.incoming s.plan = .ok r := by
  have hadded : ∀ a ∈ s.plan.additions, p.incoming.contains a.incoming = true := fun a ha =>
    (hs.added ((hs.addition a.incoming).1 (List.mem_map.2 ⟨a, ha, rfl⟩))).contains
  have hremoved : ∀ o ∈ s.plan.operations.toList, o.2 = .remove → p.target.contains o.1 = true := by
    intro o ho hrem
    have hop := SortedMap.get?_eq_some_iff.2 ho
    rw [hs.operation] at hop
    cases hf : s.targetFates.get? o.1 with
    | none => rw [hf] at hop; cases hop
    | some f => exact hs.contains_target hf
  obtain ⟨fresh, hfresh⟩ := freshKeys_total p.target hadded
  obtain ⟨r, hr⟩ := pairRenames_total p.incoming (sortBy Plan.freshLe fresh) hremoved
  refine ⟨r, ?_⟩
  simp only [Plan.findRenames, hfresh, bind, Except.bind, Except.mapError, hr]

/-! ## The plan -/

theorem planInOrder_ok {o : Outcome} (hp : p.Consistent) (ho : p.Orders targetOrder incomingOrder)
    (h : p.planInOrder fuel targetOrder incomingOrder = .ok (s, o)) :
    Steps p .start s ∧ s.TargetDone p ∧ (∀ i, p.IncomingIs true i → s.incomingFates.contains i = true) ∧
      o.plan.additions = s.plan.additions ∧ o.plan.operations = s.plan.operations := by
  rw [planInOrder] at h
  cases hc : p.classify fuel targetOrder incomingOrder .start with
  | error e s' => rw [hc] at h; cases h
  | ok u s' =>
    obtain ⟨hs, hd, hi⟩ := (classify_ends hp ho).ok hc
    obtain ⟨r, hr⟩ := findRenames_total (hs.sound (sound_start p))
    rw [hc] at h
    simp only [hr, Except.ok.injEq, Prod.mk.injEq] at h
    obtain ⟨rfl, rfl⟩ := h
    exact ⟨hs, hd, hi, rfl, rfl⟩

theorem planInOrder_renames {o : Outcome} (h : p.planInOrder fuel targetOrder incomingOrder = .ok (s, o)) :
    Plan.findRenames p.target p.incoming o.plan = .ok o.plan.renames := by
  rw [planInOrder] at h
  split at h
  · cases h
  · split at h
    · cases h
    · next hr =>
      obtain ⟨rfl, rfl⟩ := Prod.mk.inj (Except.ok.inj h)
      exact hr

theorem planInOrder_error_iff (hp : p.Consistent) (ho : p.Orders targetOrder incomingOrder) :
    p.planInOrder fuel targetOrder incomingOrder = .error h ↔
      ∃ s, p.classify fuel targetOrder incomingOrder .start = .error h s := by
  rw [planInOrder]
  cases hc : p.classify fuel targetOrder incomingOrder .start with
  | error e s' => simp
  | ok u s' =>
    obtain ⟨hs, -⟩ := (classify_ends hp ho).ok hc
    obtain ⟨r, hr⟩ := findRenames_total (hs.sound (sound_start p))
    simp [hr]

end Pass

/-- **The decisions of a plan fit the filter**: it covers the accepted target entities, removes no others, takes data
from accepted incoming entities only, and from each of them once. -/
structure Plan.Decides (p : Pass) (plan : Plan) : Prop where
  covered : ∀ {t}, p.TargetIs true t → plan.operations.contains t = true
  removed : ∀ {t}, plan.operations.get? t = some .remove → p.TargetIs true t
  relabelled : ∀ {t i links}, plan.operations.get? t = some (.relabel i links) → p.IncomingIs true i
  added : ∀ {a}, a ∈ plan.additions → p.IncomingIs true a.incoming
  once : (plan.additions.map Addition.incoming ++ plan.relabels.map (·.2.1)).Nodup

theorem Progress.Sound.fate_of_operation (hs : s.Sound p) {t : EntityId} {o : Operation}
    (h : s.plan.operations.get? t = some o) : ∃ f, s.targetFates.get? t = some f ∧ f.operation = some o := by
  rw [hs.operation] at h
  cases hf : s.targetFates.get? t with
  | none => rw [hf] at h; cases h
  | some f =>
    rw [hf] at h
    exact ⟨f, rfl, h⟩

theorem Progress.Sound.relabelled_of_operation (hs : s.Sound p) {t i : EntityId} {links : Option PlannedLinks}
    (h : s.plan.operations.get? t = some (.relabel i links)) : s.targetFates.get? t = some (.relabelled i links) := by
  obtain ⟨f, hf, hop⟩ := hs.fate_of_operation h
  cases f with
  | kept | removed => cases hop
  | relabelled j links' =>
    obtain ⟨rfl, rfl⟩ := Operation.relabel.inj (Option.some.inj hop)
    exact hf

theorem Progress.Sound.relabels_of_operation (hs : s.Sound p) {t i : EntityId} {links : Option PlannedLinks}
    (h : s.plan.operations.get? t = some (.relabel i links)) : s.incomingFates.get? i = some (.relabels t) :=
  (hs.relabelled (hs.relabelled_of_operation h)).2.1

theorem Progress.Sound.decides (hs : s.Sound p) (hd : s.TargetDone p) : s.plan.Decides p where
  covered {t} ht := by
    obtain ⟨f, hf⟩ := SortedMap.contains_iff.1 (hd t ht)
    have hop := hs.operation t
    rw [hf] at hop
    cases f with
    | kept c => cases ht.unique (hs.kept hf)
    | relabelled i links => exact SortedMap.contains_iff.2 ⟨_, hop⟩
    | removed => exact SortedMap.contains_iff.2 ⟨_, hop⟩
  removed h := by
    obtain ⟨f, hf, hop⟩ := hs.fate_of_operation h
    cases f with
    | kept | relabelled => cases hop
    | removed => exact hs.removed hf
  relabelled h := (hs.relabels (hs.relabels_of_operation h)).1
  added {a} ha := hs.added ((hs.addition a.incoming).1 (List.mem_map_of_mem ha))
  once := by
    have hfate : ∀ r ∈ s.plan.relabels, s.incomingFates.get? r.2.1 = some (.relabels r.1) := fun r hr =>
      hs.relabels_of_operation (Plan.mem_relabels_iff.1 hr)
    rw [List.nodup_append]
    refine ⟨hs.additions, ?_, ?_⟩
    · -- two entities relabelled from the same one would both be what its fate names
      refine List.Nodup.map_on (fun r hr r' hr' heq => ?_) (List.Nodup.of_map _ s.plan.relabels_nodup)
      have hf := hfate r hr
      rw [heq, hfate r' hr'] at hf
      exact List.inj_on_of_nodup_map s.plan.relabels_nodup hr hr' (IncomingFate.relabels.inj (Option.some.inj hf)).symm
    · intro i hi j hj heq
      subst heq
      obtain ⟨r, hr, rfl⟩ := List.mem_map.1 hj
      have hadded := (hs.addition _).1 hi
      rw [hfate r hr] at hadded
      cases hadded

/-- **Every plan fits the filter**, whatever the order of visits. -/
theorem planInOrder_decides {o : Outcome} (hp : p.Consistent) (ho : p.Orders targetOrder incomingOrder)
    (h : p.planInOrder fuel targetOrder incomingOrder = .ok (s, o)) : o.plan.Decides p := by
  obtain ⟨hs, hd, -, hadd, hop⟩ := planInOrder_ok hp ho h
  obtain ⟨hc, hr, hl, ha, honce⟩ := (hs.sound (sound_start p)).decides hd
  refine ⟨fun ht => ?_, fun ht => hr (hop ▸ ht), fun ht => hl (hop ▸ ht), fun ha' => ha (hadd ▸ ha'), ?_⟩
  · rw [hop]
    exact hc ht
  · rw [hadd, Plan.relabels, hop]
    exact honce

/-- A root with two children on each side; one child is on both. -/
def twoChildren : Pass where
  target := .ofNodes ⟨#[⟨"A", [], []⟩, ⟨"K", [], [⟨0, 1, .many, .optional⟩]⟩]⟩
    [(⟨0, 0⟩, .new 0 "s", []), (⟨1, 0⟩, .new 1 "s", [(⟨0, 1, .many, .optional⟩, ⟨0, 0⟩)]),
      (⟨1, 1⟩, (Entity.new 1 "s").set "x" (.int 1), [(⟨0, 1, .many, .optional⟩, ⟨0, 0⟩)])] [(0, 1), (1, 2)]
  incoming := .ofNodes ⟨#[⟨"A", [], []⟩, ⟨"K", [], [⟨0, 1, .many, .optional⟩]⟩]⟩
    [(⟨0, 0⟩, .new 0 "s", []), (⟨1, 0⟩, .new 1 "s", [(⟨0, 1, .many, .optional⟩, ⟨0, 0⟩)]),
      (⟨1, 1⟩, (Entity.new 1 "s").set "x" (.int 2), [(⟨0, 1, .many, .optional⟩, ⟨0, 0⟩)])] [(0, 1), (1, 2)]
  accepts _ := true

theorem twoChildren_consistent : twoChildren.Consistent := ⟨by decide +kernel, by decide +kernel, rfl⟩

theorem planInOrder_decides_twoChildren : ∃ r, twoChildren.planInOrder twoChildren.fuel
    (twoChildren.target.visitOrder twoChildren.accepts .default)
    (twoChildren.incoming.visitOrder twoChildren.accepts .default) = .ok r ∧ r.2.plan.Decides twoChildren := by
  have hok : (twoChildren.planInOrder twoChildren.fuel (twoChildren.target.visitOrder twoChildren.accepts .default)
      (twoChildren.incoming.visitOrder twoChildren.accepts .default)).isOk = true := by decide +kernel
  obtain ⟨r, hr⟩ := exists_of_isOk hok
  exact ⟨r, hr, planInOrder_decides twoChildren_consistent (visitOrder_orders twoChildren .default) hr⟩

end Reconciliation
