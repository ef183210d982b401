import Reconciliation.Proofs.Circles
/-!
# When planning fails

Whether a target entity has a fate is looked up before its counterpart is searched for, and the search may resolve
roots that classify the entity.  The decision that follows is then refused.  This is the only way in which planning
fails: it fails exactly when the first half comes to a pairing whose entity is overtaken (`Overtakes`).
-/
namespace Reconciliation

open Progress Planning Pass Relation

/-- The first half of a pass comes to a pairing whose entity is overtaken. -/
def Pass.Overtakes (p : Pass) (targetOrder : List EntityId) : Prop :=
  ∃ fuel t parents s, p.Reaches targetOrder (.pairing t parents, s) ∧ p.Overtaken (p.resolveRoot fuel) t parents s

variable {p : Pass} {s s' : Progress} {x y : Call} {n m fuel : Nat} {targetOrder incomingOrder : List EntityId}
  {cause : ReconcileError} {t i : EntityId} {parents : List ResolvedParent}

/-! ## What fails was overtaken -/

theorem overtaken_of_fails (hp : p.Consistent) : ∀ {n : Nat} {x : Call} {s : Progress}, s.Sound p → x.Open p s →
    x.cost = 1 → x.HaltsIn p n s (.failed cause) →
    ∃ m u parents s', ReflTransGen p.Calls (x, s) (.pairing u parents, s') ∧
      p.Overtaken (p.resolveRoot m) u parents s' ∧ Taken u (.failed cause)
  | 0, x, s, _, _, hcost, hx => by
    cases x with
    | target | pairing => cases hcost
    | root | add =>
      obtain ⟨s', herr⟩ := hx
      cases herr
  | n + 1, x, s, hs, ho, hcost, hx => by
    have hx' : x.HaltsIn p (n + x.cost) s (.failed cause) := by rwa [hcost]
    rcases hx'.blame hp hs ho with ⟨y, s₁, he, hs₁, ho₁, hy⟩ | ⟨t, parents, rfl, -, -⟩
    swap
    · cases hcost
    have hcall : p.Calls (x, s) (y, s₁) := ⟨n, he⟩
    have hsound₁ := (ho.begun.trans hs₁).sound hs
    cases he with
    | pairing | place => cases hcost
    | copy =>
      obtain ⟨m, u, parents, s', hreach, hover⟩ := overtaken_of_fails hp hsound₁ ho₁ rfl hy
      exact ⟨m, u, parents, s', .head hcall hreach, hover⟩
    | child _ _ _ enters =>
      have hcost' : y.cost = 1 := by cases enters <;> rfl
      obtain ⟨m, u, parents, s', hreach, hover⟩ := overtaken_of_fails hp hsound₁ ho₁ hcost' hy
      exact ⟨m, u, parents, s', .head hcall hreach, hover⟩
    | target =>
      rcases Call.HaltsIn.below_target hp hsound₁ ho₁ hy with ⟨r, s₂, hdown, hs₂, ho₂, hy₂⟩ | ⟨u, parents, s', hreach, hover⟩
      · obtain ⟨m, u, parents, s', hreach, hover⟩ := overtaken_of_fails hp (hs₂.sound hsound₁) ho₂ rfl hy₂
        exact ⟨m, u, parents, s', .head hcall (hdown.trans hreach), hover⟩
      · exact ⟨n, u, parents, s', .head hcall hreach, hover⟩

theorem Pass.overtakes_of_fails (hp : p.Consistent) (ho : p.Orders targetOrder incomingOrder)
    (h : p.planInOrder fuel targetOrder incomingOrder = .error (.failed cause)) :
    p.Overtakes targetOrder ∧ ∃ t, Taken t (.failed cause) := by
  obtain ⟨s, hs⟩ := (planInOrder_error_iff hp ho).1 h
  rcases (classify_ends hp ho).error hs with ⟨before, t, after, s₀, heq, hfirst, hsound, hopen, hhalts⟩ | ⟨hh, -⟩
  swap
  · cases hh
  have hreaches : ∀ {b : Call × Progress}, ReflTransGen p.Calls (.target t, s₀) b → p.Reaches targetOrder b := fun hb =>
    ⟨fuel, before, t, after, s₀, heq, hfirst, hopen.2, hb⟩
  rcases hhalts.below_target hp hsound hopen with
    ⟨r, s₁, hdown, hs₁, hopen₁, hhalts₁⟩ | ⟨u, parents, s₁, hdown, hover, htaken⟩
  · obtain ⟨m, u, parents, s₂, hreach, hover, htaken⟩ := overtaken_of_fails hp (hs₁.sound hsound) hopen₁ rfl hhalts₁
    exact ⟨⟨m, u, parents, s₂, hreaches (hdown.trans hreach), hover⟩, u, htaken⟩
  · exact ⟨⟨fuel, u, parents, s₁, hreaches hdown, hover⟩, u, htaken⟩

/-! ## What is overtaken fails -/

theorem fails_of_ends {α : Type} {x : Planning α} (h : Ends p x s (fun _ _ => False) (Taken t)) :
    ∃ cause, x.HaltsWith s (.failed cause) := by
  cases hx : x s with
  | ok a s' => exact (h.ok hx).2.elim
  | error e s' =>
    rcases h.error hx with rfl | ⟨f, g, rfl⟩
    · exact ⟨_, s', hx⟩
    · exact ⟨_, s', hx⟩

theorem lookup_fails {α : Type} {y : Except StoreError α} {e : StoreError} (h : y = .error e) :
    (lookup y).HaltsWith s (.failed (.store e)) := ⟨s, by rw [h]; rfl⟩

theorem unpaired_fails (ht : s.targetFates.contains t = true) : ∃ cause, (p.unpaired t).HaltsWith s (.failed cause) := by
  cases he : p.target.entity t with
  | error e => exact ⟨_, HaltsWith.bind (HaltsWith.bind (lookup_fails he))⟩
  | ok data =>
    have hrun := acceptsTarget_run (p := p) ⟨data, he, rfl⟩ s
    have hends : Ends p (p.unpaired t) s (fun _ _ => False) (Taken t) := by
      refine .bind_look hrun ?_
      split
      · exact (schedule_taken ht).bind fun _ _ _ _ h => h.elim
      · exact (setTargetFate_taken ht).bind fun _ _ _ _ h => h.elim
    exact fails_of_ends hends

theorem settlePair_fails {links : Option PlannedLinks} (ht : s.targetFates.contains t = true) :
    ∃ cause, (p.settlePair t i links).HaltsWith s (.failed cause) := by
  cases he : p.target.entity t with
  | error e => exact ⟨_, HaltsWith.bind (HaltsWith.bind (lookup_fails he))⟩
  | ok data =>
    have hrun := acceptsTarget_run (p := p) ⟨data, he, rfl⟩ s
    cases hi : p.incoming.entity i with
    | error e => exact ⟨_, HaltsWith.after hrun (HaltsWith.bind (HaltsWith.bind (lookup_fails hi)))⟩
    | ok data' =>
      have hrun' := acceptsIncoming_run (p := p) ⟨data', hi, rfl⟩ s
      have hends : Ends p (p.settlePair t i links) s (fun _ _ => False) (Taken t) := by
        refine .bind_look hrun (.bind_look hrun' ?_)
        split
        · exact (schedule_taken ht).bind fun _ _ _ _ h => h.elim
        split
        · exact (schedule_taken ht).bind fun _ _ _ _ h => h.elim
        · exact (setTargetFate_taken ht).bind fun _ _ _ _ h => h.elim
      exact fails_of_ends hends

theorem Pass.Overtaken.fails (h : p.Overtaken (p.resolveRoot n) t parents s) :
    ∃ cause, (Call.pairing t parents).HaltsIn p n s (.failed cause) := by
  obtain ⟨data, found, s', hdata, hfound, ht⟩ := h
  cases found with
  | none =>
    obtain ⟨cause, hc⟩ := unpaired_fails (p := p) ht
    exact ⟨cause, HaltsWith.after (lookup_run hdata s) (HaltsWith.after hfound hc)⟩
  | some found =>
    obtain ⟨i, links⟩ := found
    by_cases hcond : (p.uncovered t.kind links || s'.incomingFates.contains i) = true
    · obtain ⟨cause, hc⟩ := unpaired_fails (p := p) ht
      refine ⟨cause, HaltsWith.after (lookup_run hdata s) (HaltsWith.after hfound (.after (x := get) rfl ?_))⟩
      rw [if_pos hcond]
      exact hc
    · obtain ⟨cause, hc⟩ : ∃ cause, (p.settlePair t i (some links)).HaltsWith s' (.failed cause) := settlePair_fails ht
      refine ⟨cause, HaltsWith.after (lookup_run hdata s) (HaltsWith.after hfound (.after (x := get) rfl ?_))⟩
      rw [if_neg hcond]
      exact hc

/-- A failure does not go away with more fuel. -/
theorem HaltsWith.more {α : Type} {x y : Planning α} (hxy : Below x y) (hx : x.HaltsWith s (.failed cause)) :
    y.HaltsWith s (.failed cause) := by
  obtain ⟨s', hx⟩ := hx
  rcases hxy s with ⟨s₁, hang⟩ | heq
  · rw [hang] at hx
    cases hx
  · exact ⟨s', heq.symm.trans hx⟩

theorem Call.HaltsIn.more (hnm : n ≤ m) (hx : x.HaltsIn p n s (.failed cause)) : x.HaltsIn p m s (.failed cause) := by
  obtain ⟨hR, hA⟩ := fuel_below p hnm
  cases x with
  | target t => exact HaltsWith.more (classifyTarget_below hR t) hx
  | pairing t parents => exact HaltsWith.more (pairUnder_below hR t parents) hx
  | root r => exact HaltsWith.more (hR r) hx
  | add links i => exact HaltsWith.more (hA links i) hx

theorem Pass.Calls.fails (hc : p.Calls (x, s) (y, s')) (hy : ∃ n, y.HaltsIn p n s' (.failed cause)) :
    ∃ n, x.HaltsIn p n s (.failed cause) := by
  obtain ⟨m, he⟩ := hc
  obtain ⟨n, hy⟩ := hy
  rcases he.follow (max n m) with he' | ⟨hlt, -⟩
  · exact ⟨_, he'.halts (hy.more (Nat.le_max_left n m))⟩
  · exact absurd hlt (Nat.not_lt.2 (Nat.le_max_right n m))

theorem fails_of_reflTransGen {a b : Call × Progress} (hc : ReflTransGen p.Calls a b)
    (hb : ∃ n, b.1.HaltsIn p n b.2 (.failed cause)) : ∃ n, a.1.HaltsIn p n a.2 (.failed cause) := by
  induction hc using ReflTransGen.head_induction_on with
  | refl => exact hb
  | head hcall _ ih => exact hcall.fails ih

theorem Pass.Overtakes.fails (hp : p.Consistent) (ho : p.Orders targetOrder incomingOrder) (h : p.Overtakes targetOrder) :
    ∃ cause, p.planInOrder p.fuel targetOrder incomingOrder = .error (.failed cause) := by
  obtain ⟨k, t, parents, s, ⟨m, before, u, after, s₀, heq, hfirst, -, hreach⟩, hover⟩ := h
  obtain ⟨cause, hpairing⟩ := hover.fails
  obtain ⟨n, htarget⟩ := fails_of_reflTransGen hreach ⟨k, hpairing⟩
  have hmore : ∀ fuel, max n m ≤ fuel →
      (targetOrder.forM (p.classifyTarget (p.resolveRoot fuel))).HaltsWith .start (.failed cause) := by
    intro fuel hfuel
    rw [heq]
    rcases classifyAll_follow hfirst fuel with hfirst' | ⟨hlt, -⟩
    · exact forM_halts hfirst' (htarget.more (Nat.le_trans (Nat.le_max_left n m) hfuel))
    · exact absurd (Nat.lt_of_lt_of_le hlt (Nat.le_trans (Nat.le_max_right n m) hfuel)) (Nat.lt_irrefl _)
  have hfails : p.planInOrder (max (max n m) p.fuel) targetOrder incomingOrder = .error (.failed cause) :=
    planInOrder_of_classifyAll (hmore _ (Nat.le_max_left _ _))
  have hbelow : Below (targetOrder.forM (p.classifyTarget (p.resolveRoot p.fuel)))
      (targetOrder.forM (p.classifyTarget (p.resolveRoot (max (max n m) p.fuel)))) :=
    Below.forM fun t => classifyTarget_below (fuel_below p (Nat.le_max_right _ _)).1 t
  refine ⟨cause, ?_⟩
  rcases hbelow .start with hang | hsame
  · -- a pass that runs out of its own fuel never fails
    have hcircle := circular_of_hangs hp ho (planInOrder_of_classifyAll hang)
    rw [hcircle.hangs] at hfails
    cases hfails
  · obtain ⟨s', hs'⟩ := hmore _ (Nat.le_max_left _ p.fuel)
    exact planInOrder_of_classifyAll ⟨s', hsame.trans hs'⟩

/-- **Planning fails exactly when it overtakes an entity**, and only in the decision about that entity. -/
theorem planInOrder_fails_iff (hp : p.Consistent) (ho : p.Orders targetOrder incomingOrder) :
    ((∃ cause, p.planInOrder p.fuel targetOrder incomingOrder = .error (.failed cause)) ↔ p.Overtakes targetOrder) ∧
      ((∃ fuel cause, p.planInOrder fuel targetOrder incomingOrder = .error (.failed cause)) ↔ p.Overtakes targetOrder) ∧
      ∀ fuel cause, p.planInOrder fuel targetOrder incomingOrder = .error (.failed cause) →
        ∃ t, Taken t (.failed cause) :=
  ⟨⟨fun ⟨_, h⟩ => (overtakes_of_fails hp ho h).1, fun h => h.fails hp ho⟩,
    ⟨fun ⟨_, _, h⟩ => (overtakes_of_fails hp ho h).1, fun h => ⟨p.fuel, h.fails hp ho⟩⟩,
    fun _ _ h => (overtakes_of_fails hp ho h).2⟩

/-! ## An entity that is overtaken -/

/-- The graphs of a circle, but the target entity is not accepted, only a child of it is.  So the incoming root is not
kept from taking the entity as its counterpart, while the entity's own pairing is under way. -/
def overtakenPass : Pass where
  target := .ofNodes ⟨#[⟨"A", [], []⟩, ⟨"K", [], [⟨0, 1, .many, .optional⟩, ⟨1, 1, .many, .optional⟩]⟩,
      ⟨"D", [], [⟨1, 2, .many, .optional⟩]⟩]⟩
    [(⟨0, 0⟩, .new 0 "o", []), (⟨1, 0⟩, .new 1 "o", [(⟨0, 1, .many, .optional⟩, ⟨0, 0⟩)]),
      (⟨2, 0⟩, .new 2 "s", [(⟨1, 2, .many, .optional⟩, ⟨1, 0⟩)])] [(0, 1), (1, 1), (2, 1)]
  incoming := .ofNodes ⟨#[⟨"A", [], []⟩, ⟨"K", [], [⟨0, 1, .many, .optional⟩, ⟨1, 1, .many, .optional⟩]⟩,
      ⟨"D", [], [⟨1, 2, .many, .optional⟩]⟩]⟩
    [(⟨0, 0⟩, .new 0 "o", []), (⟨1, 0⟩, .new 1 "o", []),
      (⟨1, 1⟩, .new 1 "o", [(⟨0, 1, .many, .optional⟩, ⟨0, 0⟩), (⟨1, 1, .many, .optional⟩, ⟨1, 0⟩)])] [(0, 1), (1, 2)]
  accepts source := source = "s"

theorem overtakenPass_consistent : overtakenPass.Consistent := ⟨by decide +kernel, by decide +kernel, rfl⟩

/-- Planning can fail, though both graphs are consistent. -/
theorem overtakenPass_fails : overtakenPass.Consistent ∧ overtakenPass.planInOrder overtakenPass.fuel
    (overtakenPass.target.visitOrder overtakenPass.accepts .default)
    (overtakenPass.incoming.visitOrder overtakenPass.accepts .default) =
      .error (.failed (.targetClassifiedTwice ⟨1, 0⟩ (.kept (some ⟨1, 0⟩)) (.kept (some ⟨1, 1⟩)))) :=
  ⟨overtakenPass_consistent, haltOf_eq_some_iff.1 (by decide +kernel)⟩

theorem planInOrder_fails_iff_examples :
    overtakenPass.Overtakes (overtakenPass.target.visitOrder overtakenPass.accepts .default) ∧
      ¬ twoChildren.Overtakes (twoChildren.target.visitOrder twoChildren.accepts .default) := by
  have hfails : haltOf (overtakenPass.planInOrder overtakenPass.fuel
      (overtakenPass.target.visitOrder overtakenPass.accepts .default)
      (overtakenPass.incoming.visitOrder overtakenPass.accepts .default)) =
        some (.failed (.targetClassifiedTwice ⟨1, 0⟩ (.kept (some ⟨1, 0⟩)) (.kept (some ⟨1, 1⟩)))) := by
    decide +kernel
  have hends : haltOf (twoChildren.planInOrder twoChildren.fuel
      (twoChildren.target.visitOrder twoChildren.accepts .default)
      (twoChildren.incoming.visitOrder twoChildren.accepts .default)) = none := by
    decide +kernel
  constructor
  · exact (planInOrder_fails_iff overtakenPass_consistent (visitOrder_orders overtakenPass .default)).1.1
      ⟨_, haltOf_eq_some_iff.1 hfails⟩
  · intro h
    obtain ⟨cause, hcause⟩ :=
      (planInOrder_fails_iff twoChildren_consistent (visitOrder_orders twoChildren .default)).1.2 h
    rw [haltOf_eq_some_iff.2 hcause] at hends
    cases hends

end Reconciliation
