import Reconciliation.Proofs.Coverage
import Reconciliation.Proofs.Sessions
/-!
# Builds that do not check their arithmetic

The index of the next entity of a kind is the one number of a graph that grows with every addition.  A build that checks
its arithmetic ends where it overflows (`Graph.checkIndex`); one that does not starts again at zero (`Unchecked.add`), and
then gives ids that have been given before.

The two builds part there and nowhere else.  A session that asks for fewer than 2³² additions of each kind goes the same
way in both, so what comes out of it is reachable (`Builder.runUnchecked_reachable`).  A plan is not stopped by the check
if there is an index left for each of its additions (`Graph.applyPlan_ne_indexOverflow`).
-/
namespace Reconciliation

variable {g g' : Graph} {id : EntityId} {kind : Kind} {data : Entity} {links : List Link} {cause : StoreError} {u : Unit}

/-! ## Sessions -/

/-- Adds an entity under parents.  The counter of its kind starts again at zero when it is at its end. -/
def Graph.Unchecked.add (data : Entity) (links : List Link) : Edit EntityId := do
  let g ← get
  MonadExcept.ofExcept (g.checkLinks data.kind links none)
  MonadExcept.ofExcept (g.checkKey (g.schema.naturalKey? data) none)
  let (after, id) := g.insertEntity data links
  set after
  return id

/-- **As long as there is an index left, the check makes no difference.** -/
theorem Graph.Unchecked.add_eq (h : (g.nextIndex data.kind).toNat + 1 < UInt32.size) :
    add data links g = Graph.add data links g := by
  have hindex : g.checkIndex data.kind = .ok () := Graph.checkIndex_ok_iff.2 h
  rw [add, Graph.add, get_bind, get_bind]
  refine ofExcept_bind_congr fun _ _ => ofExcept_bind_congr fun _ _ => ?_
  rw [bind_of_ok (ofExcept_ok_iff.2 ⟨hindex, rfl⟩)]

namespace Request

/-- Carries a request out without checking arithmetic. -/
def performUnchecked : Request → Edit (List EntityId)
  | add data links => do return [← Graph.Unchecked.add data links]
  | r => r.perform

def leftUnchecked (r : Request) (g : Graph) : Graph :=
  match r.performUnchecked g with
  | .ok _ after => after
  | .error _ after => after

end Request

/-- Whether a turn asks for an entity of a kind to be added. -/
def Turn.addsOf (kind : Kind) : Turn → Bool
  | request (.add data _) => data.kind = kind
  | _ => false

namespace Request

variable {r : Request}

theorem leftUnchecked_eq (h : ∀ kind, (g.nextIndex kind).toNat + (if (Turn.request r).addsOf kind then 1 else 0) < UInt32.size) :
    r.leftUnchecked g = r.left g := by
  cases r with
  | add data links =>
    have hroom := h data.kind
    rw [if_pos (by simp [Turn.addsOf])] at hroom
    have hsame : (add data links).performUnchecked g = (add data links).perform g := by
      simp only [performUnchecked, perform, bind, EStateM.bind, Graph.Unchecked.add_eq hroom]
    cases hdone : (add data links).perform g with
    | ok => rw [left_of_ok hdone, leftUnchecked, hsame, hdone]
    | error => rw [left_of_error hdone, leftUnchecked, hsame, hdone]
  | remove | modify | setParents | setExternal => rfl

theorem nextIndex_left_le (hg : g.Referred) (r : Request) (kind : Kind) :
    ((r.left g).nextIndex kind).toNat ≤ (g.nextIndex kind).toNat + if (Turn.request r).addsOf kind then 1 else 0 := by
  rcases left_cases hg r with hdoes | hsame
  · cases r with
    | add data links =>
      obtain ⟨id, hadd⟩ := hdoes
      rw [(Graph.add_ok hadd).2.2.2]
      split
      · next hk =>
        subst hk
        have hnext := Graph.toNat_nextIndex (Graph.insertEntity_of_add hadd).2.1
        rw [if_pos (by simp [Turn.addsOf])]
        exact Nat.le_of_eq hnext
      · exact Nat.le_add_right ..
    | remove | modify | setParents | setExternal =>
      rw [(hdoes.brings_nothing rfl).2]
      exact Nat.le_add_right ..
  · rw [hsame]
    exact Nat.le_add_right ..

end Request

namespace Builder

def turnUnchecked (b : Builder) : Turn → Builder
  | .request r => { b with graph := r.leftUnchecked b.graph }
  | .reopen => .ofGraph b.graph

def runUnchecked (b : Builder) (turns : List Turn) : Builder := turns.foldl turnUnchecked b

/-- A session goes the same way with and without checks when there is an index left for each of its additions. -/
theorem runUnchecked_eq : ∀ {turns : List Turn} {b : Builder}, b.graph.Proper →
    (∀ kind, (b.graph.nextIndex kind).toNat + turns.countP (Turn.addsOf kind) < UInt32.size) →
    b.runUnchecked turns = b.run turns
  | [], _, _, _ => rfl
  | .reopen :: _, b, hg, hroom => runUnchecked_eq (b := b.turn .reopen) hg hroom
  | .request r :: rest, b, hg, hroom => by
    have hreferred := Graph.referred_of_wellReferred hg.referred
    have hturn : b.turnUnchecked (.request r) = b.turn (.request r) := by
      have hleft : r.leftUnchecked b.graph = r.left b.graph := Request.leftUnchecked_eq fun kind => by
        have hkind := hroom kind
        rw [List.countP_cons] at hkind
        omega
      rw [turnUnchecked, turn, hleft]
    have hrest : (b.turn (.request r)).runUnchecked rest = (b.turn (.request r)).run rest := by
      refine runUnchecked_eq (Request.left_proper hg) fun kind => ?_
      have hle := Request.nextIndex_left_le hreferred r kind
      have hkind := hroom kind
      rw [List.countP_cons] at hkind
      exact Nat.lt_of_le_of_lt (Nat.add_le_add_right hle _) (by omega)
    rw [runUnchecked, List.foldl_cons, hturn]
    exact hrest

/-- **What comes out of a session without checks is reachable**, if fewer than 2³² additions of each kind are asked for. -/
theorem runUnchecked_reachable {schema : Schema} {turns : List Turn}
    (h : ∀ kind, turns.countP (Turn.addsOf kind) < UInt32.size) : ((new schema).runUnchecked turns).Reachable := by
  refine ⟨schema, turns, runUnchecked_eq (Graph.empty_proper schema) fun kind => ?_⟩
  have hnext : ((new schema).graph.nextIndex kind).toNat = 0 := rfl
  rw [hnext, Nat.zero_add]
  exact h kind

end Builder

/-! ## Plans -/

namespace Graph

theorem checkLinks_ne_overflow {k : Kind} {moving : Option EntityId} (h : g.checkLinks k links moving = .error cause) :
    cause ≠ .indexOverflow kind := by
  rintro rfl
  rcases checkLinks_error h with hcause | hlink | ⟨_, -, -, hcause⟩
  · cases hcause
  · exact hlink
  · cases hcause

theorem add_overflow (h : add data links g = .error (.indexOverflow kind) g') :
    UInt32.size ≤ (g.nextIndex data.kind).toNat + 1 := by
  rcases (add_error_cases h).2 with hlinks | hkey | hindex
  · exact absurd rfl (checkLinks_ne_overflow hlinks)
  · obtain ⟨_, _, -, -, -, hcause⟩ := checkKey_refused hkey
    cases hcause
  · exact (checkIndex_error_iff.1 hindex).1

theorem setParents_ne_overflow (h : setParents id links g = .error cause g') : cause ≠ .indexOverflow kind := by
  rintro rfl
  rcases (setParents_error_cases h).2 with hnode | hlinks | hacyclic
  · cases (node_refused hnode).2
  · exact checkLinks_ne_overflow hlinks rfl
  · obtain ⟨_, -, -, hcause⟩ := checkAcyclic_refused hacyclic
    cases hcause

theorem modify_ne_overflow {change : Entity → Entity} (h : modify id change g = .error cause g') :
    cause ≠ .indexOverflow kind := by
  rcases modify_fails h with ⟨x, rfl⟩ | ⟨old, new, rfl⟩ | ⟨old, k, owner, -, -, -, rfl⟩
  all_goals simp

end Graph

open Reconciliation.Graph

variable {p : Pass} {plan : Plan} {d : Deed} {s s' : Applying}

/-- **How far the counters of a state are**: by one for each copy at most, and only additions are copied. -/
structure Numbering (plan : Plan) (target : Graph) (s : Applying) : Prop where
  next : ∀ kind, (s.graph.nextIndex kind).toNat ≤ (target.nextIndex kind).toNat + s.copies.size
  copied : ∀ i, s.copies.contains i = true → i ∈ plan.additions.map Addition.incoming

theorem Act.numbering (h : Act p plan d s s') (hs : Numbering plan p.target s) : Numbering plan p.target s' := by
  -- no deed but a copy takes an index
  have hsame : (∀ kind, s'.graph.nextIndex kind = s.graph.nextIndex kind) → s'.copies = s.copies →
      Numbering plan p.target s' := fun hnext hcopies => by
    refine ⟨fun kind => ?_, fun i hi => hs.copied i (hcopies ▸ hi)⟩
    rw [hnext, hcopies]
    exact hs.next kind
  cases h with
  | cut _ edit copies => exact hsame (remove_ok edit).2.counters copies
  | give _ _ edit copies => exact hsame (modify_ok edit).2.counters copies
  | move _ _ edit copies => exact hsame (setParents_ok edit).2.2.2 copies
  | attach _ edit copies => exact hsame (setExternal_ok edit).counters copies
  | follow _ _ _ edit copies => exact hsame (modify_ok edit).2.counters copies
  | count graph copies => exact hsame (fun kind => by rw [graph]) copies
  | @copy a data parents x _ _ addition new _ _ edit copies =>
    refine ⟨fun kind => ?_, fun i hi => ?_⟩
    · have hnext := hs.next kind
      rw [copies, SortedMap.size_insert new, (add_ok edit).2.2.2]
      split
      · next hk =>
        subst hk
        rw [toNat_nextIndex (insertEntity_of_add edit).2.1]
        omega
      · omega
    · rw [copies] at hi
      rcases SortedMap.contains_insert_iff.1 hi with rfl | hi
      · exact List.mem_map_of_mem addition
      · exact hs.copied i hi

theorem numbering_start (plan : Plan) (target : Graph) : Numbering plan target (.start target) :=
  ⟨fun _ => Nat.le_add_right .., fun _ hi => by cases hi⟩

/-- **A plan is not stopped at the end of a counter** when there is an index left for each of its additions. -/
theorem Graph.applyPlan_ne_indexOverflow {incoming target : Graph} (hnodup : (plan.additions.map Addition.incoming).Nodup)
    (hroom : ∀ kind, (target.nextIndex kind).toNat + plan.additions.length < UInt32.size) :
    applyPlan incoming plan target ≠ .error (.store (.indexOverflow kind)) g := by
  intro h
  obtain ⟨s', hrun, -⟩ := applyPlan_error_iff.1 h
  obtain ⟨s, hacts, hrefusal⟩ := (Apply.plan_enacts (p := ⟨target, incoming, fun _ => true⟩) hnodup).error hrun
  have hs := hacts.invariant (I := Numbering plan target) (fun hact hs => hact.numbering hs) (numbering_start plan target)
  cases hrefusal with
  | absent missing => cases (entity_refused missing).2
  | give _ _ edit => exact modify_ne_overflow edit rfl
  | move _ _ edit => exact setParents_ne_overflow edit rfl
  | follow edit => exact modify_ne_overflow edit rfl
  | @copy a data parents _ _ addition new found resolved edit =>
    -- the addition itself is not copied yet, so fewer than all are
    have hfewer : s.copies.size + 1 ≤ plan.additions.length := by
      have hle := SortedMap.size_le_of_contains (m := s.copies.insert a.incoming ⟨0, 0⟩)
        (l := plan.additions.map Addition.incoming) fun i hi => by
          rcases SortedMap.contains_insert_iff.1 hi with rfl | hi
          · exact List.mem_map_of_mem addition
          · exact hs.copied i hi
      rwa [SortedMap.size_insert new, List.length_map] at hle
    have hlast := add_overflow edit
    have hnext := hs.next data.kind
    have hleft := hroom data.kind
    omega

end Reconciliation
