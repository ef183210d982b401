import Reconciliation.Proofs.Sessions
/-!
# Natural keys that drift

The look-up of natural keys is told about the data that entities are given.  Data that follows a rename it is not told
about, so an entity whose natural key is made of a soft reference drifts away from the key that leads to it
(`Request.Shifts`): its new key is free for another entity, and its old one still leads to it, even when it is gone.

Nothing else puts the look-up off.  A request leaves it right about an entity exactly when it does not shift that entity
(`Request.left_wellKeyed_iff`), and a session keeps it right about an entity exactly when no request of it does
(`Builder.session_wellKeyed_iff`).  Where no natural key is made of soft references nothing is ever shifted, and what
comes out of a session is consistent (`Builder.run_consistent`).
-/
namespace Reconciliation

variable {g g' : Graph} {x y : EntityId} {e d : Entity} {change : Entity → Entity}

/-- **A request shifts an entity**: it changes data, references follow, and then the data that the entity has, or has
been given, forms another natural key than it did. -/
def Request.Shifts (g : Graph) (y : EntityId) : Request → Prop
  | .modify x change => ∃ e d after, g.data? x = some e ∧ (if y = x then some (change e) else g.data? y) = some d ∧
      Graph.modify x change g = .ok () after ∧
      g.schema.naturalKey? (d.followKey (g.schema.naturalKey? e) (g.schema.naturalKey? (change e))) ≠
        g.schema.naturalKey? d
  | _ => False

def Turn.Shifts (g : Graph) (y : EntityId) : Turn → Prop
  | .request r => r.Shifts g y
  | .reopen => False

/-! ## One request -/

namespace Graph

theorem Changes.told (h : g.Changes g' x e d) (hy : g.WellKeyed y) {key : NaturalKey} :
    g'.resolve key = some y ↔
      ∃ d', (if y = x then some d else g.data? y) = some d' ∧ g.schema.naturalKey? d' = some key := by
  split
  · next heq =>
    subst heq
    simp only [h.own hy, Option.some.injEq, exists_eq_left']
  · next hne => rw [h.others hne, wellKeyed_iff.1 hy]

theorem modify_wellKeyed_iff (hg : g.Intact) (hy : g.WellKeyed y) {u : Unit} (h : modify x change g = .ok u g') :
    g'.WellKeyed y ↔ ¬ (Request.modify x change).Shifts g y := by
  obtain ⟨e, hchanges⟩ := modify_changes hg.referred h
  rw [wellKeyed_iff]
  simp only [hchanges.told hy, hchanges.data, hchanges.schema]
  cases hd : (if y = x then some (change e) else g.data? y) with
  | none =>
    refine ⟨fun _ => ?_, fun _ key => ⟨fun ⟨_, h, _⟩ => (by cases h), fun ⟨_, h, _⟩ => (by cases h)⟩⟩
    rintro ⟨e', d, after, he', hd', -⟩
    obtain rfl := Option.some.inj (hchanges.found.symm.trans he')
    rw [hd] at hd'
    cases hd'
  | some d =>
    have hshifts : (Request.modify x change).Shifts g y ↔
        g.schema.naturalKey? (d.followKey (g.schema.naturalKey? e) (g.schema.naturalKey? (change e))) ≠
          g.schema.naturalKey? d := by
      refine ⟨fun ⟨e', d', after, he', hd', _, hne⟩ => ?_, fun hne => ⟨e, d, g', hchanges.found, hd, h, hne⟩⟩
      obtain rfl := Option.some.inj (hchanges.found.symm.trans he')
      obtain rfl := Option.some.inj (hd.symm.trans hd')
      exact hne
    rw [hshifts, not_not]
    simp only [Option.some.injEq, exists_eq_left', Option.map_some]
    exact ⟨fun h => Option.ext fun key => (h key).symm, fun h key => by rw [h]⟩

end Graph

namespace Request

variable {r : Request}

theorem left_wellKeyed_iff (hg : g.Proper) (hy : g.WellKeyed y) :
    (r.left g).WellKeyed y ↔ ¬ r.Shifts g y := by
  cases h : r.perform g with
  | error cause g' =>
    -- nothing is changed, and only a change that is carried out shifts
    rw [left_of_error h, refused (Graph.referred_of_wellReferred hg.referred) h]
    refine ⟨fun _ hshifts => ?_, fun _ => hy⟩
    cases r with
    | modify x change =>
      obtain ⟨e, d, after, -, -, hmodify, -⟩ := hshifts
      rw [perform, bind_of_ok hmodify] at h
      cases h
    | add | remove | setParents | setExternal => exact hshifts
  | ok ids g' =>
    rw [left_of_ok h]
    have hdoes := does h
    cases r with
    | add data links =>
      obtain ⟨id, hadd⟩ := hdoes
      exact iff_of_true (hy.add (hg.counted.fresh data.kind) hadd) not_false
    | remove id => exact iff_of_true (hy.remove h) not_false
    | modify id change => exact Graph.modify_wellKeyed_iff hg.toIntact hy hdoes
    | setParents id links => exact iff_of_true ((Graph.setParents_sameData hdoes).wellKeyed.2 hy) not_false
    | setExternal mapping id value => exact iff_of_true ((Graph.setExternal_sameData hdoes).wellKeyed.2 hy) not_false

/-- What is shifted has a natural key that is made of a soft reference. -/
theorem Shifts.not_plain (hg : g.Intact) (h : r.Shifts g y) :
    ∃ d, (r.left g).data? y = some d ∧ ¬ d.PlainKey (r.left g).schema := by
  cases r with
  | modify x change =>
    obtain ⟨e, d, after, he, hd, hmodify, hne⟩ := h
    obtain ⟨e', hchanges⟩ := Graph.modify_changes hg.referred hmodify
    obtain rfl := Option.some.inj (he.symm.trans hchanges.found)
    rw [left_of_ok (r := .modify x change) (bind_of_ok hmodify), hchanges.schema]
    exact ⟨_, (hchanges.data y).trans (congrArg _ hd), fun hplain => hne hplain.naturalKey?_followKey⟩
  | add | remove | setParents | setExternal => exact h.elim

end Request

/-! ## Whole sessions -/

namespace Builder

variable {b : Builder} {schema : Schema} {turns : List Turn}

theorem turn_proper {turn : Turn} (hg : b.graph.Proper) : (b.turn turn).graph.Proper := by
  cases turn with
  | request r => exact Request.left_proper hg
  | reopen => exact hg

theorem turn_wellKeyed_iff {turn : Turn} (hg : b.graph.Proper) (hy : b.graph.WellKeyed y) :
    (b.turn turn).graph.WellKeyed y ↔ ¬ turn.Shifts b.graph y := by
  cases turn with
  | request r => exact Request.left_wellKeyed_iff hg hy
  | reopen => exact iff_of_true hy not_false

theorem forall_prefix_cons {turn : Turn} {P : List Turn → Prop} :
    (∀ before after, turn :: turns = before ++ after → P before) ↔
      P [] ∧ ∀ before after, turns = before ++ after → P (turn :: before) := by
  constructor
  · exact fun h => ⟨h [] _ rfl, fun before after heq => h (turn :: before) after (congrArg (turn :: ·) heq)⟩
  · rintro ⟨hstart, hrest⟩ before after heq
    rcases List.cons_eq_append_iff.1 heq with ⟨rfl, -⟩ | ⟨before, rfl, htail⟩
    · exact hstart
    · exact hrest before after htail

theorem forall_turn_cons {first : Turn} {P : List Turn → Turn → Prop} :
    (∀ before turn after, first :: turns = before ++ turn :: after → P before turn) ↔
      P [] first ∧ ∀ before turn after, turns = before ++ turn :: after → P (first :: before) turn := by
  constructor
  · exact fun h => ⟨h [] first turns rfl, fun before turn after heq =>
      h (first :: before) turn after (congrArg (first :: ·) heq)⟩
  · rintro ⟨hfirst, hrest⟩ before turn after heq
    rcases List.cons_eq_append_iff.1 heq with ⟨rfl, heq⟩ | ⟨before, rfl, htail⟩
    · obtain ⟨rfl, -⟩ := List.cons.inj heq
      exact hfirst
    · exact hrest before turn after htail

theorem run_wellKeyed_iff : ∀ {turns : List Turn} {b : Builder}, b.graph.Proper → b.graph.WellKeyed y →
    ((∀ before after, turns = before ++ after → (b.run before).graph.WellKeyed y) ↔
      ∀ before turn after, turns = before ++ turn :: after → ¬ turn.Shifts (b.run before).graph y)
  | [], b, _, hy => by
    refine iff_of_true (fun before after h => ?_) fun before turn after h => ?_
    · rw [(List.append_eq_nil_iff.1 h.symm).1]
      exact hy
    · simp at h
  | turn :: rest, b, hg, hy => by
    have hstep : (b.turn turn).graph.WellKeyed y ↔ ¬ turn.Shifts b.graph y := turn_wellKeyed_iff hg hy
    have hrest (hfirst : (b.turn turn).graph.WellKeyed y) := @run_wellKeyed_iff rest _ (turn_proper hg) hfirst
    rw [forall_prefix_cons, forall_turn_cons]
    constructor
    · rintro ⟨-, h⟩
      have hfirst : (b.turn turn).graph.WellKeyed y := h [] rest rfl
      exact ⟨hstep.1 hfirst, (hrest hfirst).1 h⟩
    · rintro ⟨hnot, h⟩
      exact ⟨hy, (hrest (hstep.2 hnot)).2 h⟩

/-- **As long as no natural key is made of soft references, what comes out of a session is consistent.** -/
theorem run_consistent : ∀ {turns : List Turn} {b : Builder}, b.graph.Consistent → b.graph.Counted →
    (∀ before after, turns = before ++ after → (b.run before).graph.PlainKeys) → (b.run turns).graph.Consistent
  | [], _, hg, _, _ => hg
  | turn :: rest, b, hg, hcounted, hplain => by
    have hproper : b.graph.Proper := ⟨hg.intact, hcounted⟩
    obtain ⟨-, hplain⟩ := forall_prefix_cons.1 hplain
    have hplain' : (b.turn turn).graph.PlainKeys := hplain [] rest rfl
    have hstay : ∀ y, ¬ turn.Shifts b.graph y := fun y hshifts => by
      cases turn with
      | request r =>
        obtain ⟨d, hd, hnot⟩ := Request.Shifts.not_plain hg.intact hshifts
        exact hnot (hplain' y d (Graph.entity_ok_iff_data.2 hd))
      | reopen => exact hshifts
    have hturn : (b.turn turn).graph.Consistent := (turn_proper hproper).toIntact.consistent fun y =>
      (turn_wellKeyed_iff hproper (hg.wellKeyed y)).2 (hstay y)
    exact run_consistent (b := b.turn turn) hturn (turn_proper hproper).counted hplain

theorem empty_wellKeyed : (Graph.empty schema).WellKeyed y := fun _ =>
  ⟨fun h => (by cases h), fun ⟨_, he, _⟩ => (by cases he)⟩

/-- **A session keeps the look-up of natural keys right about an entity exactly when no turn of it shifts the entity.** -/
theorem session_wellKeyed_iff (y : EntityId) :
    (∀ before after, turns = before ++ after → ((new schema).run before).graph.WellKeyed y) ↔
      ∀ before turn after, turns = before ++ turn :: after → ¬ turn.Shifts ((new schema).run before).graph y :=
  run_wellKeyed_iff (Graph.empty_proper schema) empty_wellKeyed

/-- The second entity has a natural key that is made of a reference at the first one, whose natural key changes.  A third
one gets the key that the second one has by then, and the second one is removed. -/
def driftingTurns : List Turn := [
  .request (.add ((Entity.new 0 "s").set "id" (.int 1)) []),
  .request (.add ((Entity.new 1 "s").set "r" (.ref ⟨0, "1"⟩)) []),
  .request (.modify ⟨0, 0⟩ fun e => e.set "id" (.int 2)),
  .request (.add ((Entity.new 1 "s").set "r" (.text "2")) []),
  .request (.remove ⟨1, 0⟩)]

def drifting (steps : Nat) : Builder :=
  (new ⟨#[⟨"A", ["id"], []⟩, ⟨"B", ["r"], []⟩]⟩).run (driftingTurns.take steps)

theorem drifting_reachable (steps : Nat) : (drifting steps).Reachable := ⟨_, _, rfl⟩

theorem drifting_not_wellKeyed : ¬ (drifting 3).graph.WellKeyed ⟨1, 0⟩ := by
  intro h
  have hleads : (drifting 3).graph.resolve ⟨1, "1"⟩ = some ⟨1, 0⟩ := by decide +kernel
  have hkey : (drifting 3).graph.naturalKey ⟨1, 0⟩ = .ok (some ⟨1, "2"⟩) := by decide +kernel
  obtain ⟨e, he, hsame⟩ := (h _).1 hleads
  rw [Graph.naturalKey, he, Except.map, hsame] at hkey
  simp at hkey

/-- The second entity is shifted. -/
theorem drifting_shifts : ∃ before turn after, driftingTurns = before ++ turn :: after ∧
    turn.Shifts ((new ⟨#[⟨"A", ["id"], []⟩, ⟨"B", ["r"], []⟩]⟩).run before).graph ⟨1, 0⟩ := by
  by_contra hnone
  have hnot := (session_wellKeyed_iff ⟨1, 0⟩).2 fun before turn after heq hshifts =>
    hnone ⟨before, turn, after, heq, hshifts⟩
  exact drifting_not_wellKeyed (hnot (driftingTurns.take 3) (driftingTurns.drop 3) rfl)

/-- A key leads to an entity that has another one, then two entities have the same key, and then a key leads to an entity
that is gone. -/
theorem drifting_misleads : (drifting 3).Reachable ∧ ¬ (drifting 3).graph.WellKeyed ⟨1, 0⟩ ∧
    (drifting 4).Reachable ∧ (drifting 4).graph.naturalKey ⟨1, 0⟩ = .ok (some ⟨1, "2"⟩) ∧
      (drifting 4).graph.naturalKey ⟨1, 1⟩ = .ok (some ⟨1, "2"⟩) ∧
    (drifting 5).Reachable ∧ (drifting 5).graph.contains ⟨1, 0⟩ = false ∧
      (drifting 5).graph.resolve ⟨1, "1"⟩ = some ⟨1, 0⟩ :=
  ⟨drifting_reachable 3, drifting_not_wellKeyed, drifting_reachable 4, by decide +kernel, by decide +kernel,
    drifting_reachable 5, by decide +kernel, by decide +kernel⟩

end Builder
end Reconciliation
