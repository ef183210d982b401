import Reconciliation.Proofs.Matrix
import Reconciliation.Proofs.Placing
/-!
# The plan and the fates agree

Planning writes a decision down in up to three places: in the plan, which is what is carried out, and in the fates of both
sides, which the decisions after it and the counts of the report go by.  When planning returns, all three say the same
(`Progress.Agrees`):
- an entity of the target has an operation exactly when it does not stay, and the operation is what its fate says;
- the additions list each incoming entity that is copied once, and no other;
- a target entity and its counterpart name each other, so nothing is the counterpart of two target entities.

The last holds in one direction only for what is kept: an incoming root can be kept with a target entity that was decided
about on account of another counterpart.  Such a root leaves no trace in the plan.
-/
namespace Reconciliation

open Progress

variable {p : Pass} {s : Progress}

/-! ## Counting -/

theorem Plan.size_operations (plan : Plan) : plan.operations.size = plan.relabels.length + plan.removals.length := by
  rw [relabels, removals, SortedMap.size]
  induction plan.operations.toList with
  | nil => rfl
  | cons o rest ih =>
    obtain ⟨t, o⟩ := o
    cases o with
    | relabel i links =>
      simp only [List.filterMap_cons, reduceCtorEq, ↓reduceIte, List.length_cons]
      omega
    | remove =>
      simp only [List.filterMap_cons, ↓reduceIte, List.length_cons]
      omega

namespace Progress

theorem untouched_eq (s : Progress) :
    s.untouched = (s.targetFates.toList.filter fun b => b.2.operation = none).length := by
  rw [untouched, SortedMap.values, List.filter_map, List.length_map]
  congr 2
  funext b
  cases hb : b.2 <;> simp [hb, TargetFate.operation]

theorem Sound.size_targetFates (hs : s.Sound p) : s.targetFates.size = s.untouched + s.plan.operations.size := by
  have hkeys : ((s.targetFates.toList.filter fun b => !decide (b.2.operation = none)).map Prod.fst).Perm
      s.plan.operations.keys := by
    refine (List.perm_ext_iff_of_nodup ?_ s.plan.operations.keys_nodup).2 fun t => ?_
    · exact s.targetFates.keys_nodup.sublist (List.filter_sublist.map _)
    · rw [SortedMap.mem_keys_iff, SortedMap.contains, hs.operation]
      simp only [List.mem_map, List.mem_filter, Prod.exists, exists_and_right, exists_eq_right,
        ← SortedMap.get?_eq_some_iff]
      cases s.targetFates.get? t with
      | none => simp
      | some f => cases hf : f.operation <;> simp [hf]
  have hlength : s.plan.operations.size = s.plan.operations.keys.length := (List.length_map _).symm
  rw [untouched_eq, hlength, ← hkeys.length_eq, List.length_map, SortedMap.size]
  exact List.length_eq_length_filter_add _

/-! ## Agreement -/

/-- **What is going to be done and what is written down about either side say the same.** -/
structure Agrees (s : Progress) (o : Outcome) : Prop where
  removed : ∀ t, o.plan.operations.get? t = some .remove ↔ s.targetFates.get? t = some .removed
  relabelled : ∀ t i links,
    o.plan.operations.get? t = some (.relabel i links) ↔ s.targetFates.get? t = some (.relabelled i links)
  added : ∀ i, (o.plan.additions.map (·.incoming)).count i = if s.incomingFates.get? i = some .added then 1 else 0
  /-- The counterpart of a relabelled entity knows of it. -/
  gives : ∀ {t i links}, s.targetFates.get? t = some (.relabelled i links) → s.incomingFates.get? i = some (.relabels t)
  /-- And so does the counterpart of an entity that stays. -/
  keeps : ∀ {t i}, s.targetFates.get? t = some (.kept (some i)) → s.incomingFates.get? i = some (.kept t)
  /-- What gives its data gives it to an entity that knows of it. -/
  takes : ∀ {t i}, s.incomingFates.get? i = some (.relabels t) → ∃ links, s.targetFates.get? t = some (.relabelled i links)
  /-- What is kept is kept with an entity that does not go. -/
  stays : ∀ {t i}, s.incomingFates.get? i = some (.kept t) → ∃ f, s.targetFates.get? t = some f ∧ f ≠ .removed
  once : ∀ {t t' f f' i}, s.targetFates.get? t = some f → s.targetFates.get? t' = some f' →
    f.counterpart = some i → f'.counterpart = some i → t = t'
  /-- Each decision about a target entity is counted once: in the report or in what is carried out. -/
  target : s.targetFates.size = o.untouched + (o.plan.relabels.length + o.plan.removals.length)
  lost : o.traceLost = (s.incomingFates.values.filter (· = .lost)).length

theorem Sound.counterpart_fate (hs : s.Sound p) {t i : EntityId} {f : TargetFate} (ht : s.targetFates.get? t = some f)
    (hi : f.counterpart = some i) :
    s.incomingFates.get? i = some (.relabels t) ∨ s.incomingFates.get? i = some (.kept t) := by
  cases f with
  | kept c =>
    obtain rfl : c = some i := hi
    exact .inr (hs.keptPair ht).2
  | relabelled j links =>
    obtain rfl := Option.some.inj hi
    exact .inl (hs.relabelled ht).2.1
  | removed => cases hi

theorem Sound.counterpart_unique (hs : s.Sound p) {t t' i : EntityId} {f f' : TargetFate}
    (ht : s.targetFates.get? t = some f) (ht' : s.targetFates.get? t' = some f') (hi : f.counterpart = some i)
    (hi' : f'.counterpart = some i) : t = t' := by
  rcases hs.counterpart_fate ht hi with h | h <;> rcases hs.counterpart_fate ht' hi' with h' | h' <;> rw [h] at h'
  case inl.inl | inr.inr => cases h'; rfl
  case inl.inr | inr.inl => cases h'

theorem Sound.operation_iff (hs : s.Sound p) {t : EntityId} {f : TargetFate} {op : Operation}
    (hop : f.operation = some op) (hinj : ∀ f' : TargetFate, f'.operation = some op → f' = f) :
    s.plan.operations.get? t = some op ↔ s.targetFates.get? t = some f := by
  rw [hs.operation]
  cases s.targetFates.get? t with
  | none => simp
  | some f' =>
    rw [Option.bind_some, Option.some.injEq]
    exact ⟨fun h => hinj f' h, fun h => h ▸ hop⟩

theorem Sound.agrees (hs : s.Sound p) {o : Outcome} (hadd : o.plan.additions = s.plan.additions)
    (hop : o.plan.operations = s.plan.operations) (huntouched : o.untouched = s.untouched)
    (hlost : o.traceLost = s.traceLost) : s.Agrees o where
  removed t := by
    rw [hop]
    refine hs.operation_iff rfl fun f hf => ?_
    cases f with
    | kept | relabelled => cases hf
    | removed => rfl
  relabelled t i links := by
    rw [hop]
    refine hs.operation_iff rfl fun f hf => ?_
    cases f with
    | kept | removed => cases hf
    | relabelled j links' => cases hf; rfl
  added i := by
    rw [hadd]
    split
    · next hi => exact List.count_eq_one_of_mem hs.additions ((hs.addition i).2 hi)
    · next hi => exact List.count_eq_zero_of_not_mem fun hmem => hi ((hs.addition i).1 hmem)
  gives ht := (hs.relabelled ht).2.1
  keeps ht := (hs.keptPair ht).2
  takes hi := (hs.relabels hi).2
  stays hi := (hs.keeps hi).2
  once := hs.counterpart_unique
  target := by
    rw [← Plan.size_operations, hop, huntouched]
    exact hs.size_targetFates
  lost := hlost

end Progress

/-! ## Whole passes -/

namespace Pass

variable {fuel : Nat} {targetOrder incomingOrder : List EntityId} {o : Outcome}

theorem planInOrder_untouched (h : p.planInOrder fuel targetOrder incomingOrder = .ok (s, o)) :
    o.untouched = s.untouched := by
  rw [planInOrder] at h
  split at h
  · cases h
  · split at h
    · cases h
    · obtain ⟨rfl, rfl⟩ := Prod.mk.inj (Except.ok.inj h)
      rfl

/-- **When planning returns, its plan and the fates of both sides agree**, whatever the filter and the order of visits. -/
theorem planInOrder_agrees (hp : p.Consistent) (ho : p.Orders targetOrder incomingOrder)
    (h : p.planInOrder fuel targetOrder incomingOrder = .ok (s, o)) : s.Agrees o := by
  obtain ⟨hs, -, -, hadd, hop⟩ := planInOrder_ok hp ho h
  exact (hs.sound (sound_start p)).agrees hadd hop (planInOrder_untouched h) (planInOrder_run h).2

/-- Entities of two sources, of which the pass takes one.  Every fate that an entity of either side can get occurs, and the
incoming entities `0#0` and `0#1` say the same. -/
def mixedFates : Pass where
  target := .ofNodes ⟨#[⟨"A", [], []⟩, ⟨"K", [], [⟨0, 1, .many, .optional⟩]⟩]⟩
    [(⟨0, 0⟩, (Entity.new 0 "s").set "x" (.int 1), []), (⟨0, 1⟩, (Entity.new 0 "o").set "x" (.int 2), []),
      (⟨0, 2⟩, (Entity.new 0 "s").set "x" (.int 3), []),
      (⟨1, 0⟩, .new 1 "s", [(⟨0, 1, .many, .optional⟩, ⟨0, 1⟩)])] [(0, 3), (1, 1)]
  incoming := .ofNodes ⟨#[⟨"A", [], []⟩, ⟨"K", [], [⟨0, 1, .many, .optional⟩]⟩]⟩
    [(⟨0, 0⟩, (Entity.new 0 "s").set "x" (.int 1), []), (⟨0, 1⟩, (Entity.new 0 "s").set "x" (.int 1), []),
      (⟨0, 2⟩, (Entity.new 0 "o").set "x" (.int 2), []), (⟨0, 3⟩, (Entity.new 0 "s").set "x" (.int 9), []),
      (⟨0, 4⟩, (Entity.new 0 "o").set "x" (.int 7), []),
      (⟨1, 0⟩, .new 1 "s", [(⟨0, 1, .many, .optional⟩, ⟨0, 2⟩)]),
      (⟨1, 1⟩, .new 1 "s", [(⟨0, 1, .many, .optional⟩, ⟨0, 4⟩)])] [(0, 5), (1, 2)]
  accepts source := source = "s"

/-- The twin `0#1` is kept with `0#0`, which takes its data from elsewhere. -/
theorem planInOrder_agrees_mixedFates : ∃ r, mixedFates.planInOrder mixedFates.fuel
      (mixedFates.target.visitOrder mixedFates.accepts .default)
      (mixedFates.incoming.visitOrder mixedFates.accepts .default) = .ok r ∧
    r.1.Agrees r.2 ∧
    r.1.targetFates.toList = [(⟨0, 0⟩, .relabelled ⟨0, 0⟩ none), (⟨0, 1⟩, .kept (some ⟨0, 2⟩)), (⟨0, 2⟩, .removed),
      (⟨1, 0⟩, .relabelled ⟨1, 0⟩ (some [(⟨0, 1, .many, .optional⟩, .target ⟨0, 1⟩)]))] ∧
    r.1.incomingFates.toList = [(⟨0, 0⟩, .relabels ⟨0, 0⟩), (⟨0, 1⟩, .kept ⟨0, 0⟩), (⟨0, 2⟩, .kept ⟨0, 1⟩),
      (⟨0, 3⟩, .added), (⟨0, 4⟩, .lost), (⟨1, 0⟩, .relabels ⟨1, 0⟩), (⟨1, 1⟩, .lost)] := by
  have hcheck : ((mixedFates.planInOrder mixedFates.fuel
      (mixedFates.target.visitOrder mixedFates.accepts .default)
      (mixedFates.incoming.visitOrder mixedFates.accepts .default)).toOption.any fun r =>
        r.1.targetFates.toList = [(⟨0, 0⟩, .relabelled ⟨0, 0⟩ none), (⟨0, 1⟩, .kept (some ⟨0, 2⟩)), (⟨0, 2⟩, .removed),
          (⟨1, 0⟩, .relabelled ⟨1, 0⟩ (some [(⟨0, 1, .many, .optional⟩, .target ⟨0, 1⟩)]))] &&
        r.1.incomingFates.toList = [(⟨0, 0⟩, .relabels ⟨0, 0⟩), (⟨0, 1⟩, .kept ⟨0, 0⟩), (⟨0, 2⟩, .kept ⟨0, 1⟩),
          (⟨0, 3⟩, .added), (⟨0, 4⟩, .lost), (⟨1, 0⟩, .relabels ⟨1, 0⟩), (⟨1, 1⟩, .lost)]) = true := by
    decide +kernel
  obtain ⟨r, hr, hfates⟩ := exists_of_any hcheck
  rw [Bool.and_eq_true, decide_eq_true_eq, decide_eq_true_eq] at hfates
  have hp : mixedFates.Consistent := ⟨by decide +kernel, by decide +kernel, rfl⟩
  exact ⟨r, hr, planInOrder_agrees hp (visitOrder_orders mixedFates .default) hr, hfates⟩

end Pass
end Reconciliation
