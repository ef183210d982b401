import Reconciliation.Proofs.Acts
import Reconciliation.Proofs.Walks
/-!
# Keeping count

Between two states of carrying out a plan so many entities are added and so many relabelled, and the target changes its
size by what is added and what is removed (`Tally`).  Tallies of one part after another add up.

Making room removes and does nothing else (`Spares`): it makes no copies, and its tally is zero on both counts.  Every
removal is counted with all that it takes along, whether it is made early or when its turn comes, and there is nothing
left to count when the entity is gone already.
-/
namespace Reconciliation

open Relation

/-! ## Sizes of graphs -/

namespace Graph

variable {g g' : Graph} {id : EntityId} {links : List Link} {gone : List EntityId} {data : Entity}

theorem size_congr (h : ∀ x, g'.contains x = g.contains x) : g'.size = g.size := by
  rw [← length_ids, ← length_ids, ids, ids, SortedMap.keys_congr h]

theorem contains_of_reach (hid : g.contains id = true) {x : EntityId} (h : ReflTransGen g.IsRequiredParent id x) :
    g.contains x = true := by
  cases h with
  | refl => exact hid
  | tail _ hparent =>
    obtain ⟨n, -, hn, -⟩ := hparent
    exact contains_iff.2 ⟨n, hn⟩

theorem size_remove (h : remove id g = .ok gone g') : g'.size + gone.length = g.size := by
  obtain ⟨rfl, hcuts⟩ := remove_ok h
  have hid : g.contains id = true := by
    rw [remove, get_bind] at h
    obtain ⟨n, hn, -⟩ := ofExcept_bind_ok_iff.1 h
    exact contains_iff.2 ⟨n, node_ok_iff.1 hn⟩
  have hleft := fun {x} => hcuts.contains_iff (x := x)
  have hperm : (g'.ids ++ g.requiredClosure id).Perm g.ids := by
    have hnodup : (g'.ids ++ g.requiredClosure id).Nodup :=
      g'.nodes.keys_nodup.append (g.requiredClosure_nodup id) fun x hx => (hleft.1 (mem_ids_iff.1 hx)).2
    refine (List.perm_ext_iff_of_nodup hnodup g.nodes.keys_nodup).2 fun x => ?_
    rw [List.mem_append, mem_ids_iff, hleft]
    constructor
    · rintro (⟨hx, -⟩ | hgone)
      · exact mem_ids_iff.2 hx
      · exact mem_ids_iff.2 (contains_of_reach hid (mem_requiredClosure_iff.1 hgone))
    · intro hx
      by_cases hgone : x ∈ g.requiredClosure id
      · exact .inr hgone
      · exact .inl ⟨mem_ids_iff.1 hx, hgone⟩
  rw [← length_ids, ← length_ids, ← hperm.length_eq, List.length_append]

theorem size_add (h : add data links g = .ok id g') (hfresh : g.contains id = false) : g'.size = g.size + 1 := by
  obtain ⟨rfl, rfl⟩ := Prod.mk.inj (insertEntity_of_add h).2.2
  exact SortedMap.size_insert (SortedMap.contains_eq_false_iff.1 hfresh)

end Graph

/-! ## Tallies -/

/-- **What was counted between two states agrees with the graphs**, where new ids are counted: `n` entities are added and
`m` relabelled. -/
structure Tally (n m : Nat) (s s' : Applying) : Prop where
  added : s'.applied.added = s.applied.added + n
  relabeled : s'.applied.relabeled = s.applied.relabeled + m
  removed : s.applied.removed ≤ s'.applied.removed
  counted : s.graph.Counted → s'.graph.Counted
  size : s.graph.Counted → s'.graph.size + s'.applied.removed = s.graph.size + s.applied.removed + n

variable {s s₁ s' : Applying} {operations : SortedMap EntityId Operation} {incoming : Graph} {id : EntityId} {data : Entity}
  {links : List Link} {u : Unit} {e : ReconcileError}

namespace Tally

variable {n n' m m' : Nat}

theorem trans (h : Tally n m s s₁) (h' : Tally n' m' s₁ s') : Tally (n + n') (m + m') s s' where
  added := by rw [h'.added, h.added, Nat.add_assoc]
  relabeled := by rw [h'.relabeled, h.relabeled, Nat.add_assoc]
  removed := Nat.le_trans h.removed h'.removed
  counted hcounted := h'.counted (h.counted hcounted)
  size hcounted := by
    have hsize := h.size hcounted
    have hsize' := h'.size (h.counted hcounted)
    omega

theorem same (hcontains : ∀ x, s'.graph.contains x = s.graph.contains x)
    (hnext : ∀ kind, s'.graph.nextIndex kind = s.graph.nextIndex kind) (happlied : s'.applied = s.applied) :
    Tally 0 0 s s' where
  added := by rw [happlied, Nat.add_zero]
  relabeled := by rw [happlied, Nat.add_zero]
  removed := Nat.le_of_eq (by rw [happlied])
  counted hcounted := hcounted.of_less (fun {x} hx => hcontains x ▸ hx) hnext
  size _ := by rw [happlied, Graph.size_congr hcontains, Nat.add_zero]

theorem refl (s : Applying) : Tally 0 0 s s := .same (fun _ => rfl) (fun _ => rfl) rfl

theorem of_sameLinks (h : s.graph.SameLinks s'.graph) (happlied : s'.applied = s.applied) : Tally 0 0 s s' :=
  .same h.contains h.counters happlied

theorem of_add {g : Graph} (h : Graph.add data links s.graph = .ok id g) (hsame : g.SameLinks s'.graph)
    (happlied : s'.applied = ⟨s.applied.added + 1, s.applied.relabeled, s.applied.removed⟩) : Tally 1 0 s s' where
  added := by rw [happlied]
  relabeled := by rw [happlied]; rfl
  removed := Nat.le_of_eq (by rw [happlied])
  counted hcounted := (hcounted.add h).of_less (fun {x} hx => hsame.contains x ▸ hx) hsame.counters
  size hcounted := by
    have hid : id = ⟨data.kind, s.graph.nextIndex data.kind⟩ := (Graph.add_ok h).1
    have hsize := Graph.size_add h (hid ▸ hcounted.fresh data.kind)
    rw [Graph.size_congr hsame.contains, hsize, happlied]
    exact Nat.add_right_comm ..

end Tally

/-- **Nothing is done but removing.** -/
structure Spares (s s' : Applying) : Prop where
  copies : s'.copies = s.copies
  schema : s'.graph.schema = s.graph.schema
  tally : Tally 0 0 s s'

instance : Std.Refl Spares := ⟨fun s => ⟨rfl, rfl, .refl s⟩⟩

instance : IsTrans Applying Spares :=
  ⟨fun _ _ _ h h' => ⟨h'.copies.trans h.copies, h'.schema.trans h.schema, h.tally.trans h'.tally⟩⟩

/-- **A failure that something on the way causes**: a graph refuses a look-up or an edit, or what is asked for is not
there or not supported. -/
def ReconcileError.Interrupts (e : ReconcileError) : Prop :=
  (∃ cause, e = .store cause) ∨ e.errorClass = .notFound ∨ e.errorClass = .unsupported

namespace Apply

theorem edit_same {α : Type} {x : Edit α} {a : α} (h : edit x s = .ok a s') :
    x s.graph = .ok a s'.graph ∧ s'.copies = s.copies ∧ s'.applied = s.applied := by
  rw [edit] at h
  split at h
  · next heq =>
    obtain ⟨rfl, rfl⟩ := EStateM.Result.ok.inj h
    exact ⟨heq, rfl, rfl⟩
  · cases h

theorem edit_interrupts {α : Type} {x : Edit α} {e : ReconcileError} (h : edit x s = .error e s') : e.Interrupts :=
  let ⟨cause, _, _, he⟩ := edit_error h
  .inl ⟨cause, he⟩

theorem lookup_interrupts {α : Type} {x : Except StoreError α} {e : ReconcileError} (h : lookup x s = .error e s') :
    e.Interrupts :=
  let ⟨cause, _, he⟩ := lookup_error h
  .inl ⟨cause, he⟩

/-! ### Removing and making room -/

theorem remove_spares : Leads Spares (remove id) s (fun _ _ => True) ReconcileError.Interrupts := by
  rw [remove]
  refine .get_bind ?_
  split
  · next hthere =>
    obtain ⟨gone, g', hrun⟩ := Graph.remove_total hthere
    have hedit : edit (Graph.remove id) s = .ok gone { s with graph := g' } := by rw [edit, hrun]
    refine .of_ok (by rw [bind_of_ok hedit, modify_run]) ?_ trivial
    obtain ⟨-, hcuts⟩ := Graph.remove_ok hrun
    refine ⟨rfl, (Graph.remove_keeps hrun).schema, rfl, rfl, Nat.le_add_right .., fun hcounted => ?_, fun _ => ?_⟩
    · exact hcounted.of_less (Graph.remove_keeps hrun).less hcuts.counters
    · have hsize := Graph.size_remove hrun
      dsimp only
      omega
  · exact .pure trivial

theorem displace_spares {kind : Kind} : ∀ {holders : List EntityId} {s : Applying},
    Leads Spares (displace operations kind holders) s (fun _ _ => True) ReconcileError.Interrupts
  | [], s => .pure trivial
  | holder :: rest, s => by
    rw [displace]
    refine .get_bind ?_
    dsimp only
    split
    · exact displace_spares
    · split
      · exact .bind remove_spares fun _ _ _ _ => displace_spares
      · exact .of_error rfl (.inr (.inr rfl))

theorem makeRoom_spares {moving : Option EntityId} :
    Leads Spares (makeRoom operations data links moving) s (fun _ _ => True) ReconcileError.Interrupts := by
  rw [makeRoom]
  refine .get_bind (.look (P := fun _ => True) (fun h => ⟨trivial, (lookup_ok_iff.1 h).2⟩) lookup_interrupts fun _ _ => ?_)
  exact displace_spares

/-! ### Adding -/

theorem copyExternals_keeps : ∀ {l : List (String × Json)} {s : Applying}, copyExternals id l s = .ok u s' →
    s.graph.KeepsData s'.graph ∧ s'.applied = s.applied
  | [], s, h => by
    obtain ⟨-, rfl⟩ := EStateM.Result.ok.inj h
    exact ⟨.refl s.graph, rfl⟩
  | (mapping, value) :: rest, s, h => by
    obtain ⟨_, s₁, hset, hrest⟩ := bind_ok_iff.1 h
    obtain ⟨hset, -, happlied⟩ := edit_same hset
    obtain ⟨hkeeps, happlied'⟩ := copyExternals_keeps hrest
    exact ⟨(Graph.setExternal_keeps hset).trans hkeeps, happlied'.trans happlied⟩

/-- **An addition is copied**: its data is entered as a new entity under given parents, and the id of that is written
down. -/
structure Copies (incoming : Graph) (i : EntityId) (links : List Link) (s s' : Applying) (copy : EntityId) : Prop where
  copies : s'.copies = s.copies.insert i copy
  data : ∃ e, incoming.entity i = .ok e ∧ s'.graph.entity copy = .ok e ∧
    s'.graph.parentsOf copy = .ok (Graph.inDeclarationOrder s.graph.schema e.kind links)
  schema : s'.graph.schema = s.graph.schema
  tally : Tally 1 0 s s'

theorem add_copies (h : add incoming operations id links s = .ok u s') : ∃ copy, Copies incoming id links s s' copy := by
  rw [add] at h
  obtain ⟨e, _, hlook, hthen⟩ := bind_ok_iff.1 h
  obtain ⟨hdata, rfl⟩ := lookup_ok_iff.1 hlook
  obtain ⟨_, s₁, hmade, hthen⟩ := bind_ok_iff.1 hthen
  obtain ⟨hspares, -⟩ := makeRoom_spares.ok hmade
  obtain ⟨copy, s₂, hadd, hthen⟩ := bind_ok_iff.1 hthen
  obtain ⟨hadd, hcopies₂, happlied₂⟩ := edit_same hadd
  obtain ⟨_, s₃, hext, hthen⟩ := bind_ok_iff.1 hthen
  obtain ⟨-, rfl⟩ := EStateM.Result.ok.inj hthen
  obtain ⟨hsame, hcopies₃⟩ := copyExternals_ok hext
  obtain ⟨hkeeps, happlied₃⟩ := copyExternals_keeps hext
  obtain ⟨-, -, hlinks, -⟩ := Graph.add_ok hadd
  obtain ⟨hschema, hentered⟩ := Graph.add_data hadd
  refine ⟨copy, ?_, ⟨e, hdata, ?_, ?_⟩, hkeeps.schema.trans (hschema.trans hspares.schema), ?_⟩
  case refine_1 =>
    show s₃.copies.insert id copy = _
    rw [hcopies₃, hcopies₂, hspares.copies]
  case refine_2 =>
    obtain ⟨e', he'⟩ := Graph.exists_entity ((hsame.contains copy).trans (Graph.contains_of_add hadd))
    have hthere := hkeeps.data (Graph.entity_ok_iff_data.1 he')
    rw [hentered, if_pos rfl] at hthere
    exact he'.trans (congrArg Except.ok (Option.some.inj hthere).symm)
  case refine_3 =>
    show s₃.graph.parentsOf copy = _
    rw [hsame.parentsOf, Graph.parentsOf_eq, hlinks, if_pos rfl, hspares.schema]
  case refine_4 =>
    have hentry : Tally 1 0 s₁ ⟨s₃.graph, s₃.copies.insert id copy,
        ⟨s₃.applied.added + 1, s₃.applied.relabeled, s₃.applied.removed⟩⟩ :=
      .of_add hadd hsame (by rw [happlied₃, happlied₂])
    exact hspares.tally.trans hentry

theorem add_interrupts (h : add incoming operations id links s = .error e s') : e.Interrupts := by
  rw [add] at h
  rcases bind_error_iff.1 h with h | ⟨d, s₁, -, h⟩
  · exact lookup_interrupts h
  rcases bind_error_iff.1 h with h | ⟨_, s₂, -, h⟩
  · exact makeRoom_spares.error h
  rcases bind_error_iff.1 h with h | ⟨copy, s₃, hadd, h⟩
  · exact edit_interrupts h
  obtain ⟨g, hext, -⟩ := copyExternals_total (incoming.externalsOf id) (Graph.contains_of_add (edit_same hadd).1)
  rw [bind_of_ok hext] at h
  cases h

end Apply
end Reconciliation
