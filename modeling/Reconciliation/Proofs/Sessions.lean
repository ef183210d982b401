import Reconciliation.Proofs.Stepwise
/-!
# Sessions with a builder

A session is what happens to a builder that starts with the empty graph of some schema: turn by turn it gets a request,
which it carries out or refuses, or it is replaced by a builder that starts from a snapshot of its graph.  Whatever comes
out of a session is reachable (`Builder.Reachable`).

A refused request leaves the graph as it was (`Request.refused`), also when it is carried out write by write.  Any other
one keeps ids below the counters of their kinds, so an added entity gets an id that is not in use, and with that it keeps
the graph intact (`Request.Does.proper`).  So every reachable graph is proper (`Builder.Reachable.proper`): it follows the
rules of the schema, and its look-up of referrers is right.

A kind can run out of indices.  The program ends there; here the session goes on with the graph as it was.
-/
namespace Reconciliation

/-- **A request to a builder.** -/
inductive Request
  | add (data : Entity) (links : List Link)
  | remove (id : EntityId)
  | modify (id : EntityId) (change : Entity → Entity)
  | setParents (id : EntityId) (links : List Link)
  | setExternal (mapping : String) (id : EntityId) (value : Json)

/-- **A turn of a session**: a request, or a new start from a snapshot. -/
inductive Turn
  | request (r : Request)
  | reopen

namespace Request

/-- Carries a request out and gives the ids that it answers with. -/
def perform : Request → Edit (List EntityId)
  | add data links => do return [← Graph.add data links]
  | remove id => Graph.remove id
  | modify id change => do
    Graph.modify id change
    return []
  | setParents id links => do
    Graph.setParents id links
    return []
  | setExternal mapping id value => do
    Graph.setExternal mapping id value
    return []

/-- What a request does to a graph when it is carried out. -/
def Does (g g' : Graph) : Request → Prop
  | add data links => ∃ id, Graph.add data links g = .ok id g'
  | remove id => ∃ gone, Graph.remove id g = .ok gone g'
  | modify id change => Graph.modify id change g = .ok () g'
  | setParents id links => Graph.setParents id links g = .ok () g'
  | setExternal mapping id value => Graph.setExternal mapping id value g = .ok () g'

/-- **What a request leaves behind**, whether it is carried out or refused. -/
def left (r : Request) (g : Graph) : Graph :=
  match r.perform g with
  | .ok _ after => after
  | .error _ after => after

end Request

/-- Whether a turn asks for an entity to be added. -/
def Turn.adds : Turn → Bool
  | request (.add _ _) => true
  | _ => false

namespace Builder

def turn (b : Builder) : Turn → Builder
  | .request r => { b with graph := r.left b.graph }
  | .reopen => .ofGraph b.graph

def run (b : Builder) (turns : List Turn) : Builder := turns.foldl turn b

/-- **What comes out of a session** that starts with the empty graph of a schema. -/
def Reachable (b : Builder) : Prop := ∃ schema turns, b = (new schema).run turns

end Builder

/-! ## One request -/

namespace Graph

variable {g g' : Graph} {id : EntityId} {links : List Link} {data : Entity} {cause : StoreError}

/-- **A proper graph**: it is intact, and its ids are counted. -/
structure Proper (g : Graph) : Prop extends Intact g where
  counted : g.Counted

theorem empty_intact (s : Schema) : (empty s).Intact where
  kind hn := by cases hn
  kind_declared hn := by cases hn
  declared hn := by cases hn
  parent hn := by cases hn
  connections hn := by cases hn
  ordered hn := by cases hn
  required hn := by cases hn
  slot hn := by cases hn
  acyclic id hcycle := by
    obtain ⟨_, -, n, c, hn, -⟩ := Relation.TransGen.tail'_iff.1 hcycle
    cases hn
  referred id := wellReferred_iff.2 fun key => ⟨fun h => absurd h List.not_mem_nil, fun ⟨_, he, _⟩ => by cases he⟩

theorem empty_proper (s : Schema) : (empty s).Proper := ⟨empty_intact s, fun _ hid => by cases hid⟩

theorem remove_error_eq (h : remove id g = .error cause g') : g' = g := by
  rw [remove, get_bind] at h
  rcases ofExcept_bind_error_iff.1 h with ⟨-, heq⟩ | ⟨_, -, h⟩
  · exact heq
  · cases h

theorem setExternal_error_eq {mapping : String} {value : Json} (h : setExternal mapping id value g = .error cause g') :
    g' = g := by
  rw [setExternal, get_bind] at h
  rcases ofExcept_bind_error_iff.1 h with ⟨-, heq⟩ | ⟨_, -, h⟩
  · exact heq
  · cases h

end Graph

namespace Request

variable {g g' : Graph} {r : Request} {cause : StoreError} {ids : List EntityId}

theorem does (h : r.perform g = .ok ids g') : r.Does g g' := by
  cases r with
  | add data links =>
    obtain ⟨id, g₁, hadd, h⟩ := bind_ok_iff.1 h
    obtain ⟨-, rfl⟩ := EStateM.Result.ok.inj h
    exact ⟨id, hadd⟩
  | remove id => exact ⟨ids, h⟩
  | modify | setParents | setExternal =>
    obtain ⟨_, g₁, hdone, h⟩ := bind_ok_iff.1 h
    obtain ⟨-, rfl⟩ := EStateM.Result.ok.inj h
    exact hdone

/-- **A refused request leaves the graph as it was.**  Changing data would be refused half way through if a referrer
were listed that is not there. -/
theorem refused (hg : g.Referred) (h : r.perform g = .error cause g') : g' = g := by
  cases r with
  | add data links =>
    rcases bind_error_iff.1 h with h | ⟨_, _, -, h⟩
    · exact (Graph.add_error_cases h).1
    · cases h
  | remove id => exact Graph.remove_error_eq h
  | modify id change =>
    rcases bind_error_iff.1 h with h | ⟨_, _, -, h⟩
    · exact (Graph.modify_error_cases hg h).1
    · cases h
  | setParents id links =>
    rcases bind_error_iff.1 h with h | ⟨_, _, -, h⟩
    · exact (Graph.setParents_error_cases h).1
    · cases h
  | setExternal mapping id value =>
    rcases bind_error_iff.1 h with h | ⟨_, _, -, h⟩
    · exact Graph.setExternal_error_eq h
    · cases h

theorem left_of_ok (h : r.perform g = .ok ids g') : r.left g = g' := by rw [left, h]

theorem left_of_error (h : r.perform g = .error cause g') : r.left g = g' := by rw [left, h]

theorem left_cases (hg : g.Referred) (r : Request) : r.Does g (r.left g) ∨ r.left g = g := by
  cases h : r.perform g with
  | ok ids g' =>
    rw [left_of_ok h]
    exact .inl (does h)
  | error cause g' =>
    rw [left_of_error h]
    exact .inr (refused hg h)

theorem Does.brings_nothing (h : r.Does g g') (hadds : (Turn.request r).adds = false) :
    (∀ {x}, g'.contains x = true → g.contains x = true) ∧ ∀ kind, g'.nextIndex kind = g.nextIndex kind := by
  cases r with
  | add data links => cases hadds
  | remove id =>
    obtain ⟨gone, h⟩ := h
    exact ⟨(Graph.remove_keeps h).less, (Graph.remove_ok h).2.counters⟩
  | modify id change =>
    have hsame := (Graph.modify_ok h).2
    exact ⟨fun hx => (hsame.contains _).symm.trans hx, hsame.counters⟩
  | setParents id links => exact ⟨(Graph.setParents_keeps h).less, (Graph.setParents_ok h).2.2.2⟩
  | setExternal mapping id value => exact ⟨(Graph.setExternal_keeps h).less, (Graph.setExternal_ok h).counters⟩

theorem Does.counted (h : r.Does g g') (hcounted : g.Counted) : g'.Counted := by
  cases hadds : (Turn.request r).adds with
  | false =>
    obtain ⟨hless, hcounters⟩ := h.brings_nothing hadds
    exact hcounted.of_less hless hcounters
  | true =>
    cases r with
    | add data links =>
      obtain ⟨id, h⟩ := h
      exact hcounted.add h
    | remove | modify | setParents | setExternal => cases hadds

theorem Does.proper (h : r.Does g g') (hg : g.Proper) : g'.Proper := by
  refine ⟨?_, h.counted hg.counted⟩
  cases r with
  | add data links =>
    obtain ⟨id, h⟩ := h
    exact hg.toIntact.add (hg.counted.fresh data.kind) h
  | remove id =>
    obtain ⟨gone, h⟩ := h
    exact hg.toIntact.remove h
  | modify id change => exact hg.toIntact.modify h
  | setParents id links => exact hg.toIntact.setParents h
  | setExternal mapping id value => exact hg.toIntact.setExternal h

/-- **Every request keeps a graph proper.** -/
theorem left_proper (hg : g.Proper) : (r.left g).Proper := by
  rcases left_cases (Graph.referred_of_wellReferred hg.referred) r with h | h
  · exact h.proper hg
  · rwa [h]

end Request

/-! ## Whole sessions -/

namespace Builder

variable {b : Builder}

/-- **What every request keeps, every session keeps.** -/
theorem run_keeps {P : Graph → Prop} (hkeep : ∀ {g : Graph} {r : Request}, P g → P (r.left g)) :
    ∀ {turns : List Turn} {b : Builder}, P b.graph → P b.origin → P (b.run turns).graph ∧ P (b.run turns).origin
  | [], _, hgraph, horigin => ⟨hgraph, horigin⟩
  | .request r :: _, b, hgraph, horigin => run_keeps (b := b.turn (.request r)) hkeep (hkeep hgraph) horigin
  | .reopen :: _, b, hgraph, _ => run_keeps (b := b.turn .reopen) hkeep hgraph hgraph

/-- **Whatever comes out of a session is proper**, the graph and the one that changes are counted from. -/
theorem Reachable.proper (hb : b.Reachable) : b.graph.Proper ∧ b.origin.Proper := by
  obtain ⟨schema, turns, rfl⟩ := hb
  exact run_keeps Request.left_proper (Graph.empty_proper schema) (Graph.empty_proper schema)

theorem Reachable.intact (hb : b.Reachable) : b.graph.Intact ∧ b.origin.Intact :=
  ⟨hb.proper.1.toIntact, hb.proper.2.toIntact⟩

theorem Reachable.counted (hb : b.Reachable) : b.graph.Counted ∧ b.origin.Counted :=
  ⟨hb.proper.1.counted, hb.proper.2.counted⟩

/-! ## What holds after every session -/

/-- Two entities refer to a third one, whose natural key changes, and one of them makes way for another. -/
def followed : Builder := (new ⟨#[⟨"A", ["id"], []⟩, ⟨"B", ["r"], []⟩]⟩).run [
  .request (.add ((Entity.new 0 "s").set "id" (.int 1)) []),
  .request (.add ((Entity.new 1 "s").set "r" (.list [.ref ⟨0, "1"⟩, .ref ⟨0, "1"⟩])) []),
  .request (.add ((Entity.new 1 "s").set "r" (.ref ⟨0, "1"⟩)) []),
  .request (.modify ⟨0, 0⟩ fun e => e.set "id" (.int 2)),
  .request (.remove ⟨1, 1⟩),
  .request (.add ((Entity.new 0 "s").set "id" (.int 1)) [])]

end Builder
end Reconciliation
