import Mathlib.Data.List.Count
import Reconciliation.Proofs.Consistent
/-!
# What a walk finds

A walk has a bound on its steps: one for each link, and one for its start.  The bound is enough, since an entity is
visited once and pushes no more than its links (`walk_closed`).  So a walk finds exactly what can be reached
(`mem_reachedFrom_iff`): what requires an entity, directly or through others, and what lies below it.  The entity itself
is listed first, and whoever else is listed comes after one that leads there (`reachedFrom_led`).
-/
namespace Reconciliation
namespace Graph

open Relation

variable {next : EntityId → List EntityId} {links stack seen : List EntityId} {steps : Nat} {x r : EntityId}

theorem reachable_of_mem_walk {next : EntityId → List EntityId} : ∀ {steps : Nat} {stack seen : List EntityId},
    x ∈ walk next steps stack seen → x ∈ seen ∨ ∃ y ∈ stack, ReflTransGen (fun a b => b ∈ next a) y x
  | 0, _, _, h => .inl (List.mem_reverse.1 h)
  | _ + 1, [], _, h => .inl (List.mem_reverse.1 h)
  | steps + 1, id :: stack, seen, h => by
    rw [walk] at h
    split at h
    · rcases reachable_of_mem_walk h with hx | ⟨y, hy, hreach⟩
      · exact .inl hx
      · exact .inr ⟨y, List.mem_cons_of_mem _ hy, hreach⟩
    · rcases reachable_of_mem_walk h with hx | ⟨y, hy, hreach⟩
      · rcases List.mem_cons.1 hx with rfl | hx
        · exact .inr ⟨x, List.mem_cons_self, .refl⟩
        · exact .inl hx
      · rcases List.mem_append.1 hy with hy | hy
        · exact .inr ⟨id, List.mem_cons_self, .head hy hreach⟩
        · exact .inr ⟨y, List.mem_cons_of_mem _ hy, hreach⟩

/-- Nothing is visited twice. -/
theorem walk_nodup {next : EntityId → List EntityId} : ∀ {steps : Nat} {stack seen : List EntityId}, seen.Nodup →
    (walk next steps stack seen).Nodup
  | 0, _, _, h => (List.reverse_perm _).nodup_iff.2 h
  | _ + 1, [], _, h => (List.reverse_perm _).nodup_iff.2 h
  | steps + 1, id :: stack, seen, h => by
    rw [walk]
    split
    · exact walk_nodup h
    · next hnew => exact walk_nodup (List.nodup_cons.2 ⟨fun hmem => hnew (List.contains_iff_mem.2 hmem), h⟩)

/-- Whoever is listed, but for the first, comes after one that leads to it. -/
def Led (next : EntityId → List EntityId) (l : List EntityId) : Prop :=
  ∀ before x after, l = before ++ x :: after → before ≠ [] → ∃ y ∈ before, x ∈ next y

theorem led_nil (next : EntityId → List EntityId) : Led next [] := fun before x after heq _ =>
  absurd heq.symm (by simp)

theorem Led.concat {l : List EntityId} (h : Led next l) (hx : l ≠ [] → ∃ y ∈ l, x ∈ next y) : Led next (l ++ [x]) := by
  intro before z after heq hne
  rcases List.eq_nil_or_concat after with rfl | ⟨after, w, rfl⟩
  · obtain ⟨rfl, hz⟩ := List.append_inj' heq rfl
    obtain rfl := List.singleton_inj.1 hz
    exact hx hne
  · rw [List.concat_eq_append, ← List.cons_append, ← List.append_assoc] at heq
    obtain ⟨rfl, -⟩ := List.append_inj' heq rfl
    exact h before z after rfl hne

/-- What was visited first is listed first, and whoever comes later comes after one that leads to it. -/
theorem walk_led : ∀ {steps : Nat} {stack seen : List EntityId}, Led next seen.reverse →
    (∀ x ∈ stack, ∃ y ∈ seen, x ∈ next y) →
    seen.reverse <+: walk next steps stack seen ∧ Led next (walk next steps stack seen)
  | 0, _, seen, hseen, _ => ⟨List.prefix_refl seen.reverse, hseen⟩
  | _ + 1, [], seen, hseen, _ => ⟨List.prefix_refl seen.reverse, hseen⟩
  | steps + 1, id :: stack, seen, hseen, hstack => by
    obtain ⟨hid, hstack⟩ := List.forall_mem_cons.1 hstack
    rw [walk]
    split
    · exact walk_led hseen hstack
    · have hvisited : Led next (id :: seen).reverse := by
        rw [List.reverse_cons]
        exact hseen.concat fun _ => hid.imp fun y hy => ⟨List.mem_reverse.2 hy.1, hy.2⟩
      have hpushed : ∀ x ∈ next id ++ stack, ∃ y ∈ id :: seen, x ∈ next y := fun x hx => by
        rcases List.mem_append.1 hx with hx | hx
        · exact ⟨id, List.mem_cons_self, hx⟩
        · obtain ⟨y, hy, hxy⟩ := hstack x hx
          exact ⟨y, List.mem_cons_of_mem _ hy, hxy⟩
      obtain ⟨hstarts, hled⟩ : (id :: seen).reverse <+: walk next steps (next id ++ stack) (id :: seen) ∧
          Led next (walk next steps (next id ++ stack) (id :: seen)) := walk_led hvisited hpushed
      rw [List.reverse_cons] at hstarts
      exact ⟨(List.prefix_append ..).trans hstarts, hled⟩

/-- A walk from an entity lists it first, and whoever comes later after one that leads to it. -/
theorem reachedFrom_led (g : Graph) (next : EntityId → List EntityId) (id : EntityId) :
    (g.reachedFrom next id).head? = some id ∧ Led next (g.reachedFrom next id) := by
  have hfirst : Led next [id].reverse := (led_nil next).concat fun hne => absurd rfl hne
  have hstack : ∀ x ∈ next id ++ [], ∃ y ∈ [id], x ∈ next y := fun x hx => by
    rw [List.append_nil] at hx
    exact ⟨id, List.mem_singleton_self id, hx⟩
  change (walk next g.linkCount (next id ++ []) [id]).head? = some id ∧
    Led next (walk next g.linkCount (next id ++ []) [id])
  obtain ⟨⟨rest, hrest⟩, hled⟩ := walk_led hfirst hstack
  refine ⟨?_, hled⟩
  rw [← hrest]
  rfl

theorem length_unseen_cons (links : List EntityId) {id : EntityId} (hid : id ∉ seen) :
    (links.filter (· ∉ id :: seen)).length + links.count id = (links.filter (· ∉ seen)).length := by
  induction links with
  | nil => rfl
  | cons l links ih =>
    by_cases hl : l = id
    · subst hl
      rw [List.filter_cons_of_neg (by simp), List.filter_cons_of_pos (by simpa using hid), List.count_cons_self,
        List.length_cons]
      omega
    · rw [List.count_cons_of_ne hl]
      by_cases hs : l ∈ seen
      · rw [List.filter_cons_of_neg (by simp [hs]), List.filter_cons_of_neg (by simp [hs])]
        exact ih
      · rw [List.filter_cons_of_pos (by simp [hl, hs]), List.filter_cons_of_pos (by simp [hs]), List.length_cons,
          List.length_cons]
        omega

/-- **A walk with enough steps leaves nothing out.**  Enough is what lies on the stack and the links of entities that
are not visited yet. -/
theorem walk_closed (hnext : ∀ id, (next id).length ≤ links.count id) : ∀ {steps : Nat} {stack seen : List EntityId},
    stack.length + (links.filter (· ∉ seen)).length ≤ steps →
    (∀ z ∈ seen, ∀ w ∈ next z, w ∈ seen ∨ w ∈ stack) →
    (∀ z, z ∈ seen ∨ z ∈ stack → z ∈ walk next steps stack seen) ∧
      ∀ z ∈ walk next steps stack seen, ∀ w ∈ next z, w ∈ walk next steps stack seen
  | 0, [], seen, _, hseen => by
    simp only [walk, List.mem_reverse]
    exact ⟨fun z hz => hz.resolve_right List.not_mem_nil, fun z hz w hw => (hseen z hz w hw).resolve_right List.not_mem_nil⟩
  | 0, _ :: _, _, hsteps, _ => absurd hsteps (by simp)
  | _ + 1, [], seen, _, hseen => by
    simp only [walk, List.mem_reverse]
    exact ⟨fun z hz => hz.resolve_right List.not_mem_nil, fun z hz w hw => (hseen z hz w hw).resolve_right List.not_mem_nil⟩
  | steps + 1, id :: stack, seen, hsteps, hseen => by
    rw [List.length_cons] at hsteps
    rw [walk]
    split
    · next hmem =>
      have hid : id ∈ seen := List.contains_iff_mem.1 hmem
      -- what was seen before only leaves the stack
      have hdrop : ∀ {z}, z ∈ seen ∨ z ∈ id :: stack → z ∈ seen ∨ z ∈ stack := fun {z} hz => by
        rcases hz with hz | hz
        · exact .inl hz
        · rcases List.mem_cons.1 hz with rfl | hz
          · exact .inl hid
          · exact .inr hz
      have hsteps' : stack.length + (links.filter (· ∉ seen)).length ≤ steps := by omega
      obtain ⟨hall, hclosed⟩ := walk_closed hnext hsteps' fun z hz w hw => hdrop (hseen z hz w hw)
      exact ⟨fun z hz => hall z (hdrop hz), hclosed⟩
    · next hmem =>
      have hid : id ∉ seen := fun h => hmem (List.contains_iff_mem.2 h)
      -- the links of what is new are used up, and pay for what they add to the stack
      have hsteps' : (next id ++ stack).length + (links.filter (· ∉ id :: seen)).length ≤ steps := by
        have hcount := length_unseen_cons links hid
        have hlen := hnext id
        rw [List.length_append]
        omega
      have hseen' : ∀ z ∈ id :: seen, ∀ w ∈ next z, w ∈ id :: seen ∨ w ∈ next id ++ stack := by
        intro z hz w hw
        rcases List.mem_cons.1 hz with rfl | hz
        · exact .inr (List.mem_append_left _ hw)
        · rcases hseen z hz w hw with hw | hw
          · exact .inl (List.mem_cons_of_mem _ hw)
          · rcases List.mem_cons.1 hw with rfl | hw
            · exact .inl List.mem_cons_self
            · exact .inr (List.mem_append_right _ hw)
      obtain ⟨hall, hclosed⟩ := walk_closed hnext hsteps' hseen'
      refine ⟨fun z hz => hall z ?_, hclosed⟩
      rcases hz with hz | hz
      · exact .inl (List.mem_cons_of_mem _ hz)
      · rcases List.mem_cons.1 hz with rfl | hz
        · exact .inl List.mem_cons_self
        · exact .inr (List.mem_append_right _ hz)

/-- The parent ends of all links. -/
def parentEnds (g : Graph) : List EntityId := (g.nodes.values.flatMap (·.parents)).map (·.2)

theorem length_childLinks (g : Graph) (id : EntityId) : (g.childLinks id).length = g.parentEnds.count id := by
  rw [childLinks, (sortBy_perm _ _).length_eq, parentEnds, SortedMap.values, List.flatMap_map]
  induction g.nodes.toList with
  | nil => rfl
  | cons n l ih =>
    have hhead : (n.2.parents.filter (·.2 = id)).length = (n.2.parents.map (·.2)).count id := by
      rw [List.count, List.countP_map, List.countP_eq_length_filter]
      rfl
    rw [List.flatMap_cons, List.flatMap_cons, List.length_append, List.map_append, List.count_append, ih, List.length_map,
      hhead]

theorem mem_reachedFrom_iff {g : Graph} (hnext : ∀ id, (next id).length ≤ (g.childLinks id).length) :
    x ∈ g.reachedFrom next r ↔ ReflTransGen (fun a b => b ∈ next a) r x := by
  have hcount : ∀ id, (next id).length ≤ g.parentEnds.count id := fun id => by
    rw [← g.length_childLinks]
    exact hnext id
  have hsteps : [r].length + (g.parentEnds.filter (· ∉ ([] : List EntityId))).length ≤ g.linkCount + 1 := by
    have hlen := List.length_filter_le (fun id => decide (id ∉ ([] : List EntityId))) g.parentEnds
    have hends : g.parentEnds.length = g.linkCount := by rw [parentEnds, List.length_map, linkCount]
    rw [List.length_singleton]
    omega
  obtain ⟨hall, hclosed⟩ := walk_closed hcount hsteps fun z hz => absurd hz List.not_mem_nil
  constructor
  · intro hx
    rcases reachable_of_mem_walk hx with hx | ⟨y, hy, hreach⟩
    · exact absurd hx List.not_mem_nil
    · obtain rfl := List.mem_singleton.1 hy
      exact hreach
  · intro hreach
    induction hreach with
    | refl => exact hall r (.inr List.mem_cons_self)
    | tail _ hstep ih => exact hclosed _ ih _ hstep

theorem mem_dependents_iff {g : Graph} {parent child : EntityId} :
    child ∈ g.dependents parent ↔ g.IsRequiredParent parent child := by
  simp only [dependents, List.mem_map, List.mem_filter]
  constructor
  · rintro ⟨⟨c, id⟩, ⟨hmem, hreq⟩, rfl⟩
    obtain ⟨n, hn, hp⟩ := mem_childLinks_iff.1 hmem
    exact ⟨n, c, hn, hp, hreq⟩
  · rintro ⟨n, c, hn, hp, hreq⟩
    exact ⟨(c, child), ⟨mem_childLinks_iff.2 ⟨n, hn, hp⟩, hreq⟩, rfl⟩

/-- **What goes with an entity** is what requires it, directly or through others. -/
theorem mem_requiredClosure_iff {g : Graph} : x ∈ g.requiredClosure r ↔ ReflTransGen g.IsRequiredParent r x := by
  have hnext : ∀ id, (g.dependents id).length ≤ (g.childLinks id).length := fun id => by
    rw [dependents, List.length_map]
    exact List.length_filter_le ..
  rw [requiredClosure, mem_reachedFrom_iff hnext]
  simp only [mem_dependents_iff]

theorem requiredClosure_nodup (g : Graph) (id : EntityId) : (g.requiredClosure id).Nodup := walk_nodup .nil

end Graph
end Reconciliation
