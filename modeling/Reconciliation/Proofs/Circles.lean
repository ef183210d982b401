import Reconciliation.Proofs.Upwards
import Reconciliation.Proofs.Matrix
/-!
# When planning does not end

The state of planning only grows, and it cannot grow beyond a fate for each entity.  So when calls nest without end,
some root is resolved twice in one state, once inside the other.  Between the two a target entity is classified, and
inside its classification it is classified again, with nothing written down in between (`Circular`).  Planning ends
exactly when the first half comes to no such circle, and then the fuel of the pass is enough.
-/
namespace Reconciliation

open Progress Planning Pass Relation

/-- With enough fuel one call, made in one state, enters another call in another state. -/
def Pass.Calls (p : Pass) (a b : Call × Progress) : Prop :=
  ∃ fuel, p.Enters (p.resolveRoot fuel) (p.addSubtree fuel) a.1 a.2 b.1 b.2

/-- The first half of a pass comes to a call: it is made while the turn of some target entity lasts. -/
def Pass.Reaches (p : Pass) (targetOrder : List EntityId) (b : Call × Progress) : Prop :=
  ∃ fuel before t after s, targetOrder = before ++ t :: after ∧
    before.forM (p.classifyTarget (p.resolveRoot fuel)) .start = .ok () s ∧ s.targetFates.get? t = none ∧
    ReflTransGen p.Calls (.target t, s) b

/-- **The classification of a target entity comes back to itself**, and finds the state that it left. -/
def Pass.Circular (p : Pass) (targetOrder : List EntityId) : Prop :=
  ∃ t s, p.Reaches targetOrder (.target t, s) ∧ TransGen p.Calls (.target t, s) (.target t, s)

variable {p : Pass} {s s' : Progress} {x y : Call} {n fuel : Nat} {targetOrder incomingOrder : List EntityId} {h : Halt}
  {t : EntityId}

/-! ## Circles hang -/

/-- A call runs out of every amount of fuel up to some bound. -/
def Call.HangsBelow (p : Pass) (bound : Nat) (s : Progress) (x : Call) : Prop :=
  ∀ fuel < bound, x.HaltsIn p fuel s .outOfFuel

theorem Pass.Calls.hangsBelow (hc : p.Calls (x, s) (y, s')) (hy : y.HangsBelow p n s') :
    x.HangsBelow p (n + x.cost) s := by
  obtain ⟨m, he⟩ := hc
  have hstep : ∀ k < n, x.HaltsIn p (k + x.cost) s .outOfFuel := by
    intro k hk
    rcases he.follow k with he' | ⟨-, hang⟩
    · exact he'.halts (hy k hk)
    · exact hang
  intro k hk
  cases x with
  | target | pairing => exact hstep k hk
  | root | add =>
    cases k with
    | zero => exact ⟨s, rfl⟩
    | succ k => exact hstep k (Nat.lt_of_succ_lt_succ hk)

theorem hangsBelow_of_reflTransGen {a b : Call × Progress} (hc : ReflTransGen p.Calls a b)
    (hb : b.1.HangsBelow p n b.2) : a.1.HangsBelow p n a.2 := by
  induction hc using ReflTransGen.head_induction_on with
  | refl => exact hb
  | head hcall _ ih => exact fun k hk => hcall.hangsBelow ih k (Nat.lt_of_lt_of_le hk (Nat.le_add_right _ _))

/-- A call that comes to a target entity comes to it through a root, which takes fuel. -/
theorem hangsBelow_of_transGen {a : Call × Progress} (hc : TransGen p.Calls a (.target t, s))
    (ht : (Call.target t).HangsBelow p n s) : a.1.HangsBelow p (n + 1) a.2 := by
  obtain ⟨⟨z, s₁⟩, hz, hlast⟩ := TransGen.tail'_iff.1 hc
  have hcost : z.cost = 1 := by
    obtain ⟨m, he⟩ := hlast
    cases he with
    | target => rfl
    | child => rfl
  exact hangsBelow_of_reflTransGen hz (hcost ▸ hlast.hangsBelow ht)

theorem hangsBelow_of_circle (hc : TransGen p.Calls (.target t, s) (.target t, s)) :
    ∀ n, (Call.target t).HangsBelow p n s
  | 0 => fun _ h => absurd h (Nat.not_lt_zero _)
  | n + 1 => hangsBelow_of_transGen hc (hangsBelow_of_circle hc n)

theorem classifyAll_follow {m : Nat} {l : List EntityId}
    (hl : l.forM (p.classifyTarget (p.resolveRoot m)) .start = .ok () s) (n : Nat) :
    l.forM (p.classifyTarget (p.resolveRoot n)) .start = .ok () s ∨
      n < m ∧ (l.forM (p.classifyTarget (p.resolveRoot n))).Hangs .start :=
  follow (x := fun n => l.forM (p.classifyTarget (p.resolveRoot n)))
    (fun hnm => Below.forM fun t => Pass.classifyTarget_below (Pass.fuel_below p hnm).1 t) hl n

theorem planInOrder_of_classifyAll
    (hl : (targetOrder.forM (p.classifyTarget (p.resolveRoot fuel))).HaltsWith .start h) :
    p.planInOrder fuel targetOrder incomingOrder = .error h := by
  obtain ⟨s, hs⟩ : (p.classify fuel targetOrder incomingOrder).HaltsWith .start h := hl.bind
  rw [Pass.planInOrder, hs]

theorem Pass.Circular.hangs (hc : p.Circular targetOrder) (fuel : Nat) :
    p.planInOrder fuel targetOrder incomingOrder = .error .outOfFuel := by
  obtain ⟨t, s, ⟨m, before, u, after, s₀, rfl, hfirst, -, hreach⟩, hcircle⟩ := hc
  refine planInOrder_of_classifyAll ?_
  rcases classifyAll_follow hfirst fuel with hfirst' | ⟨-, hang⟩
  · have hbelow := hangsBelow_of_reflTransGen hreach (hangsBelow_of_circle hcircle (fuel + 1))
    exact forM_halts hfirst' (hbelow fuel (Nat.lt_succ_self fuel))
  · exact forM_append_halts hang

/-! ## What hangs goes in circles -/

/-- **The classification of a target entity halts** because of a root that it comes to, or because an entity was
overtaken. -/
theorem Call.HaltsIn.below_target (hp : p.Consistent) (hs : s.Sound p) (ho : (Call.target t).Open p s)
    (hx : (Call.target t).HaltsIn p n s h) :
    (∃ r s', ReflTransGen p.Calls (.target t, s) (.root r, s') ∧ Steps p s s' ∧ (Call.root r).Open p s' ∧
      (Call.root r).HaltsIn p n s' h) ∨
    ∃ u parents s', ReflTransGen p.Calls (.target t, s) (.pairing u parents, s') ∧
      p.Overtaken (p.resolveRoot n) u parents s' ∧ Taken u h := by
  rcases Call.HaltsIn.blame (x := .target t) hp hs ho hx with ⟨y, s₁, he, hs₁, ho₁, hy⟩ | ⟨u, parents, heq, -⟩
  · have hcall : p.Calls (.target t, s) (y, s₁) := ⟨n, he⟩
    cases he with
    | @pairing _ u _ parents _ _ free track pairs =>
      rcases Call.HaltsIn.blame (x := .pairing u parents) hp (hs₁.sound hs) ho₁ hy with
        ⟨y, s₂, he, hs₂, ho₂, hy⟩ | ⟨u', parents', heq, hover, htaken⟩
      · have hcall' : p.Calls (.pairing u parents, s₁) (y, s₂) := ⟨n, he⟩
        cases he with
        | @place _ _ r => exact .inl ⟨r, s₂, .head hcall (.single hcall'), hs₁.trans hs₂, ho₂, hy⟩
      · obtain ⟨rfl, rfl⟩ := Call.pairing.inj heq
        exact .inr ⟨u, parents, s₁, .single hcall, hover, htaken⟩
  · cases heq

theorem not_taken_outOfFuel : ¬ Taken t .outOfFuel := by
  rintro (h | ⟨f, g, h⟩) <;> cases h

/-- **What a call needs in a state** if it comes to no circle: a row of units for everything that can still be written
down, and for a root one for each that is not being resolved yet. -/
def Pass.need (p : Pass) (s : Progress) (level : Nat) (seen : List EntityId) : Nat :=
  (2 * (p.target.size + p.incoming.size) - s.weight) * (p.incoming.size + 1) + level * (p.incoming.size - seen.length)

theorem Pass.need_lt_of_written {level level' : Nat} {seen : List EntityId} (h : s.weight < s'.weight)
    (hle : s'.weight ≤ 2 * (p.target.size + p.incoming.size)) (hlevel : level' ≤ 1) :
    p.need s' level' [] < p.need s level seen := by
  have hrow : (2 * (p.target.size + p.incoming.size) - s'.weight) * (p.incoming.size + 1) + (p.incoming.size + 1) ≤
      (2 * (p.target.size + p.incoming.size) - s.weight) * (p.incoming.size + 1) := by
    rw [← Nat.succ_mul]
    exact Nat.mul_le_mul_right _ (by omega)
  have hunits := Nat.mul_le_mul_right p.incoming.size hlevel
  rw [need, need, List.length_nil, Nat.sub_zero]
  omega

theorem Pass.need_lt_of_copy {seen : List EntityId} (h : s.weight ≤ s'.weight) (hlt : seen.length < p.incoming.size) :
    p.need s' 0 [] < p.need s 1 seen := by
  have hrows := Nat.mul_le_mul_right (p.incoming.size + 1)
    (Nat.sub_le_sub_left h (2 * (p.target.size + p.incoming.size)))
  rw [need, need]
  omega

theorem Pass.need_lt_of_seen {r : EntityId} {seen : List EntityId} (hlt : seen.length < p.incoming.size) :
    p.need s 1 (r :: seen) < p.need s 1 seen := by
  rw [need, need, List.length_cons]
  omega

theorem Pass.need_lt_fuel (p : Pass) (s : Progress) : p.need s 1 [] < p.fuel := by
  have hrows := Nat.mul_le_mul_right (p.incoming.size + 1) (Nat.sub_le (2 * (p.target.size + p.incoming.size)) s.weight)
  have hfuel : p.fuel = 2 * (p.target.size + p.incoming.size) * (p.incoming.size + 1) + (p.incoming.size + 1) :=
    Nat.succ_mul _ _
  rw [hfuel, need, List.length_nil]
  omega

/-- **A call that runs out of enough fuel comes to a circle.**  `seen` are the roots that are being resolved in the very
state that the call is made in; each of them came to the call through a target entity.  Whenever something is written
down in between, `seen` starts again. -/
theorem circle_of_hangs (hp : p.Consistent) {n : Nat} : ∀ {x : Call} {s : Progress} {seen : List EntityId}, s.Sound p →
    x.Open p s → x.cost = 1 → x.HaltsIn p n s .outOfFuel → seen.Nodup → (∀ r ∈ seen, p.incoming.contains r = true) →
    (∀ r ∈ seen, ∃ t, p.Calls (.root r, s) (.target t, s) ∧ ReflTransGen p.Calls (.target t, s) (x, s)) →
    p.need s x.level seen < n → ∃ t s', ReflTransGen p.Calls (x, s) (.target t, s') ∧
      TransGen p.Calls (.target t, s') (.target t, s') := by
  induction n with
  | zero => exact fun _ _ _ _ _ _ _ hroom => absurd hroom (Nat.not_lt_zero _)
  | succ n circle =>
    intro x s seen hs ho hcost hx hnodup hthere hback hroom
    have hx' : x.HaltsIn p (n + x.cost) s .outOfFuel := by rwa [hcost]
    rcases hx'.blame hp hs ho with ⟨y, s₁, he, hs₁, ho₁, hy⟩ | ⟨_, _, _, _, htaken⟩
    swap
    · exact absurd htaken not_taken_outOfFuel
    have hcall : p.Calls (x, s) (y, s₁) := ⟨n, he⟩
    have hsound₁ := (ho.begun.trans hs₁).sound hs
    have hnone : ∀ r ∈ ([] : List EntityId), p.incoming.contains r = true := fun _ h => by cases h
    have hrestart : ∀ {x' : Call} {s' : Progress}, ∀ r ∈ ([] : List EntityId),
        ∃ t, p.Calls (.root r, s') (.target t, s') ∧ ReflTransGen p.Calls (.target t, s') (x', s') :=
      fun _ h => by cases h
    cases x with
    | target | pairing => cases hcost
    | add links i =>
      cases he with
      | child _ _ _ enters =>
        have hcost' : y.cost = 1 := by cases enters <;> rfl
        have hlevel : y.level ≤ 1 := by cases enters <;> simp [Call.level]
        -- the copy is written down before its children come, so `seen` starts again
        have hweight : s.weight < s₁.weight := Nat.lt_of_lt_of_le ho.weight_begun hs₁.weight_le
        have hroom' : p.need s₁ y.level [] < n :=
          Nat.lt_of_lt_of_le (Pass.need_lt_of_written hweight hsound₁.weight_le hlevel) (Nat.le_of_lt_succ hroom)
        obtain ⟨t, s', hreach, hcircle⟩ := circle hsound₁ ho₁ hcost' hy .nil hnone hrestart hroom'
        exact ⟨t, s', .head hcall hreach, hcircle⟩
    | root r =>
      by_cases hmem : r ∈ seen
      · -- the root is being resolved already, in this state
        obtain ⟨t, hcall', hreach⟩ := hback r hmem
        exact ⟨t, s, .single hcall', TransGen.tail' hreach hcall'⟩
      have hnodup' : (r :: seen).Nodup := List.nodup_cons.2 ⟨hmem, hnodup⟩
      have hthere' : ∀ q ∈ r :: seen, p.incoming.contains q = true := List.forall_mem_cons.2 ⟨ho.1, hthere⟩
      have hlength : seen.length + 1 ≤ p.incoming.size := Graph.length_le_size hnodup' hthere'
      have hs₁' : Steps p s s₁ := hs₁
      cases he with
      | copy =>
        -- an addition has no use for the units of roots
        have hroom' : p.need s₁ 0 [] < n :=
          Nat.lt_of_lt_of_le (Pass.need_lt_of_copy hs₁'.weight_le hlength) (Nat.le_of_lt_succ hroom)
        obtain ⟨t, s', hreach, hcircle⟩ := circle hsound₁ ho₁ rfl hy .nil hnone hrestart hroom'
        exact ⟨t, s', .head hcall hreach, hcircle⟩
      | @target _ t =>
        rcases Call.HaltsIn.below_target hp hsound₁ ho₁ hy with
          ⟨r', s₂, hdown, hs₂, ho₂, hy₂⟩ | ⟨_, _, _, _, _, htaken⟩
        swap
        · exact absurd htaken not_taken_outOfFuel
        have hsound₂ := hs₂.sound hsound₁
        -- the target entity comes to another root, which joins `seen` if nothing has been written down
        rcases (hs₁'.trans hs₂).weight with heq | hweight
        · obtain rfl : s₁ = s := by
            rcases hs₁'.weight with heq₁ | hlt
            · exact heq₁
            · have hle := hs₂.weight_le
              rw [heq] at hle
              omega
          subst heq
          have hback' : ∀ q ∈ r :: seen, ∃ t, p.Calls (.root q, s₂) (.target t, s₂) ∧
              ReflTransGen p.Calls (.target t, s₂) (.root r', s₂) :=
            List.forall_mem_cons.2 ⟨⟨t, hcall, hdown⟩, fun q hq => by
              obtain ⟨t', hcall', hreach⟩ := hback q hq
              exact ⟨t', hcall', (hreach.tail hcall).trans hdown⟩⟩
          have hroom' : p.need s₂ 1 (r :: seen) < n :=
            Nat.lt_of_lt_of_le (Pass.need_lt_of_seen hlength) (Nat.le_of_lt_succ hroom)
          obtain ⟨t', s', hreach, hcircle⟩ := circle hsound₂ ho₂ rfl hy₂ hnodup' hthere' hback' hroom'
          exact ⟨t', s', .head hcall (hdown.trans hreach), hcircle⟩
        · have hroom' : p.need s₂ 1 [] < n := Nat.lt_of_lt_of_le
            (Pass.need_lt_of_written hweight hsound₂.weight_le (Nat.le_refl 1)) (Nat.le_of_lt_succ hroom)
          obtain ⟨t', s', hreach, hcircle⟩ := circle hsound₂ ho₂ rfl hy₂ .nil hnone hrestart hroom'
          exact ⟨t', s', .head hcall (hdown.trans hreach), hcircle⟩

theorem Pass.circular_of_hangs (hp : p.Consistent) (ho : p.Orders targetOrder incomingOrder)
    (h : p.planInOrder p.fuel targetOrder incomingOrder = .error .outOfFuel) : p.Circular targetOrder := by
  obtain ⟨s, hs⟩ := (planInOrder_error_iff hp ho).1 h
  rcases (classify_ends hp ho).error hs with ⟨before, t, after, s₀, heq, hfirst, hsound, hopen, hhalts⟩ | ⟨-, hlt⟩
  swap
  · exact absurd hlt (Nat.lt_irrefl _)
  rcases hhalts.below_target hp hsound hopen with ⟨r, s₁, hdown, hs₁, hopen₁, hhalts₁⟩ | ⟨_, _, _, _, _, htaken⟩
  swap
  · exact absurd htaken not_taken_outOfFuel
  obtain ⟨t', s', hreach, hcircle⟩ := circle_of_hangs hp (hs₁.sound hsound) hopen₁ rfl hhalts₁ .nil
    (fun _ h => by cases h) (fun _ h => by cases h) (p.need_lt_fuel s₁)
  exact ⟨t', s', ⟨p.fuel, before, t, after, s₀, heq, hfirst, hopen.2, hdown.trans hreach⟩, hcircle⟩

/-- **Planning ends exactly when it comes to no circle**, and then the fuel of the pass is enough. -/
theorem planInOrder_ends_iff (hp : p.Consistent) (ho : p.Orders targetOrder incomingOrder) :
    (p.planInOrder p.fuel targetOrder incomingOrder ≠ .error .outOfFuel ↔ ¬ p.Circular targetOrder) ∧
      ((∃ fuel, p.planInOrder fuel targetOrder incomingOrder ≠ .error .outOfFuel) ↔ ¬ p.Circular targetOrder) := by
  have hdown : ∀ {fuel}, p.planInOrder fuel targetOrder incomingOrder ≠ .error .outOfFuel → ¬ p.Circular targetOrder :=
    fun h hc => h (hc.hangs _)
  have hup : ¬ p.Circular targetOrder → p.planInOrder p.fuel targetOrder incomingOrder ≠ .error .outOfFuel :=
    fun hc h => hc (circular_of_hangs hp ho h)
  exact ⟨⟨hdown, hup⟩, fun ⟨_, h⟩ => hdown h, fun h => ⟨p.fuel, hup h⟩⟩

/-! ## A circle -/

/-- Why a run halts, if it does. -/
def haltOf {α : Type} : Except Halt α → Option Halt
  | .ok _ => none
  | .error h => some h

theorem haltOf_eq_some_iff {α : Type} {x : Except Halt α} : haltOf x = some h ↔ x = .error h := by
  cases x <;> simp [haltOf]

/-- A target child of a root, and an incoming one that has a second parent of its own kind.  All of a kind look alike,
so that parent is taken for the target child whose counterpart is looked for. -/
def circlePass : Pass where
  target := .ofNodes ⟨#[⟨"A", [], []⟩, ⟨"K", [], [⟨0, 1, .many, .optional⟩, ⟨1, 1, .many, .optional⟩]⟩]⟩
    [(⟨0, 0⟩, .new 0 "s", []), (⟨1, 0⟩, .new 1 "s", [(⟨0, 1, .many, .optional⟩, ⟨0, 0⟩)])] [(0, 1), (1, 1)]
  incoming := .ofNodes ⟨#[⟨"A", [], []⟩, ⟨"K", [], [⟨0, 1, .many, .optional⟩, ⟨1, 1, .many, .optional⟩]⟩]⟩
    [(⟨0, 0⟩, .new 0 "s", []), (⟨1, 0⟩, .new 1 "s", []),
      (⟨1, 1⟩, .new 1 "s", [(⟨0, 1, .many, .optional⟩, ⟨0, 0⟩), (⟨1, 1, .many, .optional⟩, ⟨1, 0⟩)])] [(0, 1), (1, 2)]
  accepts _ := true

theorem circlePass_consistent : circlePass.Consistent := ⟨by decide +kernel, by decide +kernel, rfl⟩

theorem circlePass_hangs : circlePass.planInOrder circlePass.fuel
    (circlePass.target.visitOrder circlePass.accepts .default)
    (circlePass.incoming.visitOrder circlePass.accepts .default) = .error .outOfFuel :=
  haltOf_eq_some_iff.1 (by decide +kernel)

/-- Planning need not end, though both graphs are consistent. -/
theorem circlePass_never_ends : circlePass.Consistent ∧ ∀ fuel, circlePass.planInOrder fuel
    (circlePass.target.visitOrder circlePass.accepts .default)
    (circlePass.incoming.visitOrder circlePass.accepts .default) = .error .outOfFuel :=
  ⟨circlePass_consistent, fun fuel =>
    (circular_of_hangs circlePass_consistent (visitOrder_orders circlePass .default) circlePass_hangs).hangs fuel⟩

theorem planInOrder_ends_iff_examples :
    circlePass.Circular (circlePass.target.visitOrder circlePass.accepts .default) ∧
      ¬ twoChildren.Circular (twoChildren.target.visitOrder twoChildren.accepts .default) := by
  have hends : twoChildren.planInOrder twoChildren.fuel (twoChildren.target.visitOrder twoChildren.accepts .default)
      (twoChildren.incoming.visitOrder twoChildren.accepts .default) ≠ .error .outOfFuel := by
    intro h
    have hhalt := haltOf_eq_some_iff.2 h
    revert hhalt
    decide +kernel
  constructor
  · by_contra hc
    exact (planInOrder_ends_iff circlePass_consistent (visitOrder_orders circlePass .default)).1.2 hc circlePass_hangs
  · exact (planInOrder_ends_iff twoChildren_consistent (visitOrder_orders twoChildren .default)).1.1 hends

end Reconciliation
