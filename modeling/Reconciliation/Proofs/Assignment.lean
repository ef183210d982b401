import Reconciliation.Proofs.Underway
/-!
# Everything planned at once

A plan is carried out step by step, but it means one assignment, in which everything planned takes effect at once: every
entity has the data that the plan gives it, or its own (`Plan.Assigns`), the links likewise (`Plan.Link` with nothing
pending), and what is doomed is gone.  Both can be listed (`Plan.finalData`, `Plan.finalLinks`), so for a given plan it can
be computed what holds in its assignment.

The data that is asked for on the way is that of the assignment (`Plan.Asks.assigns`), and so are the links
(`Plan.Asks.final`).
-/
namespace Reconciliation

open Pass Reconciliation.Graph

variable {p : Pass} {plan : Plan} {pending : List EntityId} {x q q' : PlannedParent} {t i : EntityId} {c : Connection}
  {data e : Entity} {links : PlannedLinks}

namespace Plan

/-! ## Data -/

/-- **The data that an entity has when everything planned takes effect at once.** -/
inductive Assigns (p : Pass) (plan : Plan) : PlannedParent → Entity → Prop
  | added {a : Addition} {e : Entity} (addition : a ∈ plan.additions) (found : p.incoming.entity a.incoming = .ok e) :
    Assigns p plan (.added a.incoming) e
  | given {t i : EntityId} {links : Option PlannedLinks} {e : Entity}
    (operation : plan.operations.get? t = some (.relabel i links)) (found : p.incoming.entity i = .ok e) :
    Assigns p plan (.target t) e
  | own {t : EntityId} {e : Entity} (found : p.target.entity t = .ok e)
    (other : ∀ i links, plan.operations.get? t ≠ some (.relabel i links)) : Assigns p plan (.target t) e

/-- The natural key that goes with that data. -/
def HasKey (p : Pass) (plan : Plan) (x : PlannedParent) (k : NaturalKey) : Prop :=
  ∃ e, plan.Assigns p x e ∧ p.target.schema.naturalKey? e = some k

/-- The data of every entity. -/
def finalData (plan : Plan) (p : Pass) : List (PlannedParent × Entity) :=
  (plan.additions.filterMap fun a => (p.incoming.entity a.incoming).toOption.map fun e => (.added a.incoming, e)) ++
    p.target.nodes.toList.filterMap fun n =>
      match plan.operations.get? n.1 with
      | some (.relabel i _) => (p.incoming.entity i).toOption.map fun e => (.target n.1, e)
      | _ => some (.target n.1, n.2.data)

/-- An entity has at all times the natural key that it ends with. -/
theorem Bears.hasKey {k : NaturalKey} (h : plan.Bears p x e) (hkeys : plan.KeepsKeys p)
    (hadded : ∀ i, x = .added i → i ∈ plan.additions.map Addition.incoming)
    (hk : p.target.schema.naturalKey? e = some k) : plan.HasKey p x k := by
  cases h with
  | @copied i _ found =>
    obtain ⟨a, ha, rfl⟩ := List.mem_map.1 (hadded i rfl)
    exact ⟨e, .added ha found, hk⟩
  | given operation found => exact ⟨e, .given operation found, hk⟩
  | @own t _ found =>
    by_cases hrelabel : ∃ i links, plan.operations.get? t = some (.relabel i links)
    · obtain ⟨i, links, operation⟩ := hrelabel
      obtain ⟨e₀, d, he₀, hd, -, hkey⟩ := hkeys t i links operation
      obtain rfl := Except.ok.inj (he₀.symm.trans found)
      exact ⟨d, .given operation hd, hkey ▸ hk⟩
    · exact ⟨e, .own found fun i links operation => hrelabel ⟨i, links, operation⟩, hk⟩

theorem Asks.assigns (h : plan.Asks p pending x data links) : plan.Assigns p x data := by
  cases x with
  | target t =>
    obtain ⟨_, _, _, _, _, _, operation, found, -⟩ := h.relabel
    exact .given operation found
  | added i =>
    cases h with
    | copy addition found => exact .added addition found

/-! ## Links -/

/-- The links of every entity. -/
def finalLinks (plan : Plan) (target : Graph) : List (PlannedParent × Connection × PlannedParent) :=
  (plan.additions.flatMap fun a => (a.links.getD []).map fun l => (.added a.incoming, l.1, l.2)) ++
    target.nodes.toList.flatMap fun n =>
      match plan.linksFor? n.1 with
      | some links => links.map fun l => (.target n.1, l.1, l.2)
      | none => n.2.parents.map fun l => (.target n.1, l.1, .target l.2)

theorem mem_finalLinks_iff (hplan : plan.Fits p) : (x, c, q) ∈ plan.finalLinks p.target ↔ plan.Link p.target [] x c q := by
  rw [finalLinks, List.mem_append, List.mem_flatMap, List.mem_flatMap]
  constructor
  · rintro (⟨a, addition, h⟩ | ⟨⟨t, n⟩, hn, h⟩)
    · obtain ⟨⟨c', q'⟩, link, heq⟩ := List.mem_map.1 h
      cases heq
      exact .added addition link
    · have hnode := SortedMap.get?_eq_some_iff.2 hn
      dsimp only at h
      split at h
      · next links planned =>
        obtain ⟨⟨c', q'⟩, link, heq⟩ := List.mem_map.1 h
        cases heq
        exact .given List.not_mem_nil planned link
      · next planned =>
        obtain ⟨⟨c', y⟩, link, heq⟩ := List.mem_map.1 h
        cases heq
        exact .own (links?_eq_some_iff.2 ⟨n, hnode, rfl⟩) link (.inr planned)
  · intro h
    cases h with
    | @added a c q addition link => exact .inl ⟨a, addition, List.mem_map.2 ⟨(c, q), link, rfl⟩⟩
    | @given t links c q _ planned link =>
      have ht : p.target.contains t = true := by
        obtain ⟨i, operation⟩ := linksFor?_eq_some_iff.1 planned
        exact hplan.operations operation
      obtain ⟨n, hn⟩ := contains_iff.1 ht
      refine .inr ⟨(t, n), SortedMap.get?_eq_some_iff.1 hn, ?_⟩
      simp only [planned]
      exact List.mem_map.2 ⟨(c, q), link, rfl⟩
    | @own t links c y there link stays =>
      obtain ⟨n, hn, rfl⟩ := links?_eq_some_iff.1 there
      refine .inr ⟨(t, n), SortedMap.get?_eq_some_iff.1 hn, ?_⟩
      simp only [stays.resolve_left List.not_mem_nil]
      exact List.mem_map.2 ⟨(c, y), link, rfl⟩

theorem Asks.final (h : plan.Asks p pending x data links) (hlink : (c, q) ∈ links) : plan.Link p.target [] x c q := by
  cases x with
  | target t =>
    obtain ⟨_, i, _, _, _, _, operation, -, rfl | rfl⟩ := h.relabel
    · cases hlink
    · exact .given List.not_mem_nil (linksFor?_of_relabel operation) hlink
  | added i =>
    cases h with
    | copy addition _ => exact .added addition hlink

/-- A link that an entity has on the way it keeps, unless the entity is still to be moved elsewhere. -/
theorem Link.final_or {target : Graph} (h : plan.Link target pending x c q) : plan.Link target [] x c q ∨
    ∃ u y given, x = .target u ∧ q = .target y ∧ u ∈ pending ∧ target.HasLink u c y ∧ plan.linksFor? u = some given ∧
      (c, q) ∉ given := by
  cases h with
  | @own u _ c y there link stays =>
    obtain ⟨n, hn, rfl⟩ := links?_eq_some_iff.1 there
    cases hgiven : plan.linksFor? u with
    | none => exact .inl (.own there link (.inr hgiven))
    | some given =>
      by_cases hmem : (c, PlannedParent.target y) ∈ given
      · exact .inl (.given List.not_mem_nil hgiven hmem)
      · refine .inr ⟨u, y, given, rfl, rfl, stays.resolve_right fun hnone => ?_, ⟨n, hn, link⟩, hgiven, hmem⟩
        rw [hgiven] at hnone
        cases hnone
  | given _ planned link => exact .inl (.given List.not_mem_nil planned link)
  | added addition link => exact .inl (.added addition link)

end Plan
end Reconciliation
