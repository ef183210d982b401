import Reconciliation.Proofs.Sessions
/-!
# Histories that branch at snapshots

A snapshot can be the start of many builders, so the histories of builders branch: a builder has a past of its own, which
it shares up to the snapshot with whoever else started there.  A workshop holds all builders of a run, each with the ids
that its past has given to added entities (`Lineage`), and goes from move to move: one of the builders takes its turn, or
a new one starts from a snapshot of one (`Move`).  A snapshot that is kept is a builder that takes no turn.

As long as a past has given fewer than 2³² ids of each kind, it is numbered (`Graph.Numbered`):
- it has given no id twice, and everything that is in the graph got its id from it;
- the next index of a kind counts the ids of that kind, so it is above all of them.

The bound is on each past alone.  What another branch adds makes no difference to it, and may well get the same ids.
-/
namespace Reconciliation

/-- The ids that a request gives to an added entity, if it adds one. -/
def Request.gives (g : Graph) : Request → List EntityId
  | add data links =>
    match Graph.add data links g with
    | .ok id _ => [id]
    | .error _ _ => []
  | remove _ | modify _ _ | setParents _ _ | setExternal _ _ _ => []

def Turn.gives (g : Graph) : Turn → List EntityId
  | request r => r.gives g
  | reopen => []

/-- **A builder with its past**: the ids that were given to added entities, the latest first. -/
structure Lineage where
  builder : Builder
  given : List EntityId

namespace Lineage

def new (schema : Schema) : Lineage := ⟨.new schema, []⟩

def turn (l : Lineage) (t : Turn) : Lineage := ⟨l.builder.turn t, t.gives l.builder.graph ++ l.given⟩

/-- A builder that starts from a snapshot shares the past of whom the snapshot was taken of. -/
def branch (l : Lineage) : Lineage := ⟨.ofGraph l.builder.graph, l.given⟩

end Lineage

/-- **A move in a workshop**: builder `n` takes a turn, or a new builder starts from a snapshot of it. -/
inductive Move
  | turn (n : Nat) (t : Turn)
  | branch (n : Nat)

/-- Makes a move.  Nothing happens if there is no such builder. -/
def Move.make (w : List Lineage) : Move → List Lineage
  | turn n t =>
    match w[n]? with
    | some l => w.set n (l.turn t)
    | none => w
  | branch n =>
    match w[n]? with
    | some l => w ++ [l.branch]
    | none => w

/-- **All builders of a run** that starts with one for the empty graph of a schema. -/
def workshop (schema : Schema) (moves : List Move) : List Lineage := moves.foldl Move.make [.new schema]

/-- **Fewer than 2³² ids of each kind.** -/
def Few (given : List EntityId) : Prop := ∀ kind, given.countP (·.kind = kind) < UInt32.size

theorem Few.of_append {recent given : List EntityId} (h : Few (recent ++ given)) : Few given := fun kind =>
  Nat.lt_of_le_of_lt (by rw [List.countP_append]; exact Nat.le_add_left ..) (h kind)

theorem few_of_length {given : List EntityId} (h : given.length < UInt32.size) : Few given := fun _ =>
  Nat.lt_of_le_of_lt List.countP_le_length h

namespace Graph

/-- **The ids of a graph are numbered by its past.** -/
structure Numbered (g : Graph) (given : List EntityId) : Prop where
  intact : g.Intact
  distinct : given.Nodup
  here : ∀ {id}, g.contains id = true → id ∈ given
  below : ∀ id ∈ given, id.index < g.nextIndex id.kind
  count : ∀ kind, (g.nextIndex kind).toNat = given.countP (·.kind = kind)

variable {g g' : Graph} {given : List EntityId} {id : EntityId} {data : Entity} {links : List Link}

theorem empty_numbered (schema : Schema) : (empty schema).Numbered [] where
  intact := empty_intact schema
  distinct := .nil
  here hid := by cases hid
  below _ hid := by cases hid
  count _ := rfl

namespace Numbered

theorem unused (h : g.Numbered given) (kind : Kind) : ⟨kind, g.nextIndex kind⟩ ∉ given := fun hmem =>
  UInt32.lt_irrefl _ (h.below _ hmem)

theorem not_mem_of_add (h : g.Numbered given) (hadd : add data links g = .ok id g') : id ∉ given := by
  rw [(add_ok hadd).1]
  exact h.unused data.kind

theorem proper (h : g.Numbered given) : g.Proper := ⟨h.intact, fun id hid => h.below id (h.here hid)⟩

theorem add (h : g.Numbered given) (hfew : Few (id :: given)) (hadd : add data links g = .ok id g') :
    g'.Numbered (id :: given) := by
  have hunused := h.not_mem_of_add hadd
  have hintact := h.intact.add (h.proper.counted.fresh data.kind) hadd
  have hcontains := fun {x} => contains_add hadd (x := x)
  obtain ⟨rfl, -, -, hcounters⟩ := add_ok hadd
  have hnext : (g.nextIndex data.kind + 1).toNat = (g.nextIndex data.kind).toNat + 1 := by
    have hroom := hfew data.kind
    rw [List.countP_cons, if_pos (decide_eq_true rfl), ← h.count] at hroom
    exact toNat_nextIndex hroom
  have hlast : g.nextIndex data.kind < g.nextIndex data.kind + 1 := by
    rw [UInt32.lt_iff_toNat_lt, hnext]
    exact Nat.lt_succ_self _
  refine ⟨hintact, List.nodup_cons.2 ⟨hunused, h.distinct⟩, fun hx => ?_, fun x hx => ?_, fun kind => ?_⟩
  · exact List.mem_cons.2 ((hcontains.1 hx).imp_right h.here)
  · rw [hcounters]
    rcases List.mem_cons.1 hx with rfl | hx
    · rwa [if_pos rfl]
    · have hbelow := h.below x hx
      split
      · next hkind => exact UInt32.lt_trans hbelow (hkind ▸ hlast)
      · exact hbelow
  · rw [hcounters]
    split
    · next hkind => rw [hkind, hnext, List.countP_cons, if_pos (decide_eq_true rfl), h.count]
    · next hkind => rw [List.countP_cons, if_neg fun h => hkind (of_decide_eq_true h).symm, h.count, Nat.add_zero]

theorem of_less (h : g.Numbered given) (hintact : g'.Intact) (hless : ∀ {x}, g'.contains x = true → g.contains x = true)
    (hcounters : ∀ kind, g'.nextIndex kind = g.nextIndex kind) : g'.Numbered given where
  intact := hintact
  distinct := h.distinct
  here hx := h.here (hless hx)
  below x hx := by
    rw [hcounters]
    exact h.below x hx
  count kind := by
    rw [hcounters]
    exact h.count kind

theorem left_of_adds {r : Request} (h : g.Numbered given) (hadds : (Turn.request r).adds = false) :
    (r.left g).Numbered given := by
  have hintact := (Request.left_proper (r := r) h.proper).toIntact
  rcases Request.left_cases (referred_of_wellReferred h.intact.referred) r with hdoes | hsame
  · obtain ⟨hless, hcounters⟩ := hdoes.brings_nothing hadds
    exact h.of_less hintact hless hcounters
  · rwa [hsame]

end Numbered
end Graph

namespace Request

variable {g : Graph} {given : List EntityId}

theorem left_numbered (h : g.Numbered given) : ∀ {r : Request}, Few (r.gives g ++ given) →
    (r.left g).Numbered (r.gives g ++ given)
  | add data links, hfew => by
    cases hadd : Graph.add data links g with
    | ok id g' =>
      have hgives : (add data links).gives g = [id] := by rw [gives, hadd]
      rw [hgives] at hfew ⊢
      rw [left_of_ok (bind_of_ok hadd)]
      exact h.add hfew hadd
    | error cause g' =>
      have hgives : (add data links).gives g = [] := by rw [gives, hadd]
      rw [hgives, left_of_error (bind_error_iff.2 (.inl hadd)), (Graph.add_error_cases hadd).1]
      exact h
  | remove _, _ | modify _ _, _ | setParents _ _, _ | setExternal _ _ _, _ => h.left_of_adds rfl

end Request

/-! ## Whole runs -/

/-- **A builder whose past numbers its graph**, as long as there are indices left. -/
def Lineage.Numbered (l : Lineage) : Prop := Few l.given → l.builder.graph.Numbered l.given

theorem Lineage.Numbered.turn {l : Lineage} (h : l.Numbered) : ∀ t : Turn, (l.turn t).Numbered
  | .request _, hfew => Request.left_numbered (h hfew.of_append) hfew
  | .reopen, hfew => h hfew

/-- **Every move keeps builders numbered by their pasts.** -/
theorem Move.make_numbered {w : List Lineage} (h : ∀ l ∈ w, l.Numbered) : ∀ m : Move, ∀ l ∈ m.make w, l.Numbered
  | turn n t, l, hl => by
    rw [make] at hl
    split at hl
    · next l₀ hn =>
      rcases List.mem_or_eq_of_mem_set hl with hl | rfl
      · exact h l hl
      · exact (h l₀ (List.mem_of_getElem? hn)).turn t
    · exact h l hl
  | branch n, l, hl => by
    rw [make] at hl
    split at hl
    · next l₀ hn =>
      rcases List.mem_append.1 hl with hl | hl
      · exact h l hl
      · rw [List.mem_singleton.1 hl]
        exact h l₀ (List.mem_of_getElem? hn)
    · exact h l hl

theorem numbered_of_moves : ∀ {moves : List Move} {w : List Lineage}, (∀ l ∈ w, l.Numbered) →
    ∀ l ∈ moves.foldl Move.make w, l.Numbered
  | [], _, h => h
  | m :: _, w, h => numbered_of_moves (w := m.make w) (Move.make_numbered h m)

theorem workshop_numbered (schema : Schema) (moves : List Move) : ∀ l ∈ workshop schema moves, l.Numbered :=
  numbered_of_moves fun l hl _ => by
    rw [List.mem_singleton.1 hl]
    exact Graph.empty_numbered schema

/-- **Ids are never given twice** in the past of a builder, also by those from whose snapshots it comes.  Another added
entity gets an id that this past has not given, be its owner still there or not, an addition that is refused takes no
index, and what is there has an index below the next one of its kind, which counts the ids of that kind. -/
theorem workshop_distinct {schema : Schema} {moves : List Move} {l : Lineage} (hl : l ∈ workshop schema moves)
    (hfew : Few l.given) :
    l.given.Nodup ∧
      (∀ {data : Entity} {links : List Link} {id : EntityId} {after : Graph},
        Graph.Stepwise.add data links l.builder.graph = .ok id after → id ∉ l.given) ∧
      (∀ {data : Entity} {links : List Link} {cause : StoreError} {after : Graph},
        Graph.Stepwise.add data links l.builder.graph = .error cause after → after = l.builder.graph) ∧
      (∀ kind, (l.builder.graph.nextIndex kind).toNat = l.given.countP (·.kind = kind)) ∧
      ∀ {id : EntityId}, l.builder.graph.contains id = true →
        id ∈ l.given ∧ id.index < l.builder.graph.nextIndex id.kind := by
  have h := workshop_numbered schema moves l hl hfew
  refine ⟨h.distinct, fun hadd => ?_, fun hadd => ?_, h.count, fun hin => ⟨h.here hin, h.below _ (h.here hin)⟩⟩
  · rw [Graph.Stepwise.add_eq] at hadd
    exact h.not_mem_of_add hadd
  · rw [Graph.Stepwise.add_eq] at hadd
    exact (Graph.add_error_cases hadd).1

/-- A branch loses an entity and is refused one before it adds another. -/
def branchingMoves : List Move := [
  .turn 0 (.request (.add (.new 0 "s") [])),
  .turn 0 (.request (.add (.new 0 "s") [])),
  .branch 0,
  .turn 1 (.request (.remove ⟨0, 1⟩)),
  .turn 1 (.request (.add (.new 1 "s") [])),
  .turn 1 (.request (.add (.new 0 "s") [])),
  .turn 0 (.request (.add (.new 0 "s") [])),
  .turn 1 .reopen]

def branching : List Lineage := workshop ⟨#[⟨"A", [], []⟩, ⟨"K", [], [⟨0, 1, .one, .required⟩]⟩]⟩ branchingMoves

theorem branching_distinct : ∃ l ∈ branching, l.builder.graph.ids = [⟨0, 0⟩, ⟨0, 2⟩] ∧
    l.given = [⟨0, 2⟩, ⟨0, 1⟩, ⟨0, 0⟩] ∧ l.given.Nodup ∧ (l.builder.graph.nextIndex 0).toNat = 3 := by
  have hsecond : (branching[1]?.map fun l => (l.builder.graph.ids, l.given)) =
      some ([⟨0, 0⟩, ⟨0, 2⟩], [⟨0, 2⟩, ⟨0, 1⟩, ⟨0, 0⟩]) := by decide +kernel
  obtain ⟨l, hl, heq⟩ := Option.map_eq_some_iff.1 hsecond
  obtain ⟨hids, hgiven⟩ := Prod.mk.inj heq
  have hmem := List.mem_of_getElem? hl
  obtain ⟨hdistinct, -, -, hcount, -⟩ := workshop_distinct hmem (few_of_length (by rw [hgiven]; decide))
  refine ⟨l, hmem, hids, hgiven, hdistinct, ?_⟩
  rw [hcount, hgiven]
  rfl

end Reconciliation
