import Reconciliation.Proofs.Promises
import Reconciliation.Proofs.Tally
/-!
# Additions in any order

Additions may come in any order and refer to each other as they like.  Rounds make those whose parents are there, until a
round makes none (`Rounds`).  As many rounds as there are additions are enough for that, whatever comes of it.

- What the rounds make is made one after the other, each addition after those that its links refer to (`Makes`).
- An addition is grounded if all that its links refer to is, all the way up (`Grounded`).  What is made is grounded, and
  when a round makes nothing all that waits is not.

So the order of the additions decides nothing but the order in which they are made (`addAll_grounds`).
-/
namespace Reconciliation

/-- **An incoming entity whose addition can be made**: what its links refer to is added too, and grounded in turn. -/
inductive Grounded (additions : List Addition) : EntityId → Prop
  | intro {a : Addition} (listed : a ∈ additions)
    (above : ∀ c i, (c, .added i) ∈ a.links.getD [] → Grounded additions i) : Grounded additions a.incoming

theorem Grounded.listed {additions : List Addition} {i : EntityId} (h : Grounded additions i) :
    i ∈ additions.map Addition.incoming := by
  cases h with
  | intro listed => exact List.mem_map_of_mem listed

/-- What a planned parent is, by the copies that were made. -/
inductive PlannedParent.Becomes (copies : SortedMap EntityId EntityId) : PlannedParent → EntityId → Prop
  | target {t : EntityId} : Becomes copies (.target t) t
  | copy {i x : EntityId} (copied : copies.get? i = some x) : Becomes copies (.added i) x

/-- **Planned links as they are made**, one for one. -/
def PlannedLinks.Become (copies : SortedMap EntityId EntityId) : PlannedLinks → List Link → Prop :=
  List.Forall₂ fun l l' => l'.1 = l.1 ∧ l.2.Becomes copies l'.2

theorem Applying.linksOf?_become {s : Applying} : ∀ {links : PlannedLinks} {parents : List Link},
    s.linksOf? links = some parents → links.Become s.copies parents
  | [], _, h => by
    obtain rfl := Option.some.inj h
    exact .nil
  | (c, .target t) :: rest, _, h => by
    obtain ⟨tail, htail, rfl⟩ := Option.map_eq_some_iff.1 h
    exact .cons ⟨rfl, .target⟩ (linksOf?_become htail)
  | (c, .added i) :: rest, _, h => by
    rw [linksOf?] at h
    split at h
    · cases h
    · next x hx =>
      obtain ⟨tail, htail, rfl⟩ := Option.map_eq_some_iff.1 h
      exact .cons ⟨rfl, .copy hx⟩ (linksOf?_become htail)

theorem PlannedLinks.Become.copied {copies : SortedMap EntityId EntityId} {links : PlannedLinks} {parents : List Link}
    (h : links.Become copies parents) {c : Connection} {i : EntityId} (hi : (c, .added i) ∈ links) :
    copies.contains i = true := by
  induction h with
  | nil => cases hi
  | cons hl _ ih =>
    rcases List.mem_cons.1 hi with rfl | hi
    · cases hl.2 with
      | copy hx => exact SortedMap.contains_iff.2 ⟨_, hx⟩
    · exact ih hi

theorem PlannedLinks.Become.mono {copies copies' : SortedMap EntityId EntityId} {links : PlannedLinks} {parents : List Link}
    (h : links.Become copies parents) (hmore : ∀ {i x}, copies.get? i = some x → copies'.get? i = some x) :
    links.Become copies' parents := by
  refine List.Forall₂.imp (fun l l' hl => ⟨hl.1, ?_⟩) h
  generalize l.2 = q, l'.2 = y at hl
  cases hl.2 with
  | target => exact .target
  | copy hx => exact .copy (hmore hx)

namespace Apply

variable {incoming target : Graph} {operations : SortedMap EntityId Operation} {additions l l' deferred : List Addition}
  {a : Addition} {s s₁ s' : Applying} {i x : EntityId} {e : ReconcileError} {u : Unit}
  {r : EStateM.Result ReconcileError Applying Unit}

/-! ## One after the other -/

/-- **Additions are made one after the other**, the parents of each being there when its turn comes. -/
inductive Makes (incoming : Graph) (operations : SortedMap EntityId Operation) :
    List Addition → Applying → Applying → Prop
  | nil {s : Applying} : Makes incoming operations [] s s
  | cons {a : Addition} {l : List Addition} {parents : List Link} {s s₁ s' : Applying}
    (resolved : s.linksOf? (a.links.getD []) = some parents)
    (made : add incoming operations a.incoming parents s = .ok () s₁) (rest : Makes incoming operations l s₁ s') :
    Makes incoming operations (a :: l) s s'

namespace Makes

theorem append (h : Makes incoming operations l s s₁) (h' : Makes incoming operations l' s₁ s') :
    Makes incoming operations (l ++ l') s s' := by
  induction h with
  | nil => exact h'
  | cons resolved made _ ih => exact .cons resolved made (ih h')

theorem split : ∀ {l : List Addition} {s : Applying}, Makes incoming operations (l ++ l') s s' →
    ∃ s₁, Makes incoming operations l s s₁ ∧ Makes incoming operations l' s₁ s'
  | [], s, h => ⟨s, .nil, h⟩
  | _ :: _, _, .cons resolved made rest =>
    let ⟨s₁, h, h'⟩ := split rest
    ⟨s₁, .cons resolved made h, h'⟩

theorem tally (h : Makes incoming operations l s s') : Tally l.length 0 s s' := by
  induction h with
  | @nil s => exact .refl s
  | @cons a l _ _ _ _ _ made _ ih =>
    obtain ⟨copy, hcopies⟩ := add_copies made
    rw [List.length_cons, Nat.add_comm]
    exact hcopies.tally.trans ih

theorem contains_iff (h : Makes incoming operations l s s') :
    s'.copies.contains i = true ↔ s.copies.contains i = true ∨ i ∈ l.map Addition.incoming := by
  induction h with
  | nil => simp
  | cons _ made _ ih =>
    obtain ⟨copy, hcopies⟩ := add_copies made
    rw [ih, hcopies.copies, SortedMap.contains_insert_iff, List.map_cons, List.mem_cons, or_assoc, or_left_comm]

theorem copied_iff (h : Makes incoming operations l (.start target) s') :
    s'.copies.contains i = true ↔ i ∈ l.map Addition.incoming := by
  rw [h.contains_iff]
  constructor
  · exact fun hi => hi.resolve_left fun h => by cases h
  · exact .inr

theorem get?_eq (h : Makes incoming operations l s s') (hi : i ∉ l.map Addition.incoming) :
    s'.copies.get? i = s.copies.get? i := by
  induction h with
  | nil => rfl
  | cons _ made _ ih =>
    obtain ⟨copy, hcopies⟩ := add_copies made
    rw [List.map_cons, List.mem_cons, not_or] at hi
    rw [ih hi.2, hcopies.copies, SortedMap.get?_insert_of_ne _ _ hi.1]

/-- **What is made is grounded**, by induction on the turns. -/
theorem grounded (h : Makes incoming operations l s s') (hlisted : ∀ a ∈ l, a ∈ additions)
    (hs : ∀ i, s.copies.contains i = true → Grounded additions i) :
    ∀ i, s'.copies.contains i = true → Grounded additions i := by
  induction h with
  | nil => exact hs
  | @cons a l parents s s₁ s' resolved made _ ih =>
    obtain ⟨ha, hl⟩ := List.forall_mem_cons.1 hlisted
    refine ih hl fun i hi => ?_
    obtain ⟨copy, hcopies⟩ := add_copies made
    rw [hcopies.copies, SortedMap.contains_insert_iff] at hi
    rcases hi with rfl | hi
    · exact .intro ha fun c i hlink => hs i ((Applying.linksOf?_become resolved).copied hlink)
    · exact hs i hi

end Makes

/-! ## One round -/

theorem addRound_cons {r : EStateM.Result ReconcileError Applying (List Addition)}
    (h : addRound incoming operations (a :: l) s = r) :
    (∃ parents, s.linksOf? (a.links.getD []) = some parents ∧
      (add incoming operations a.incoming parents >>= fun _ => addRound incoming operations l) s = r) ∨
    (s.linksOf? (a.links.getD []) = none ∧
      (addRound incoming operations l >>= fun later => pure (a :: later)) s = r) := by
  subst h
  simp only [addRound, get_bind]
  cases s.linksOf? (a.links.getD []) with
  | some parents => exact .inl ⟨parents, rfl, rfl⟩
  | none => exact .inr ⟨rfl, rfl⟩

theorem addRound_sublist : ∀ {l deferred : List Addition} {s s' : Applying},
    addRound incoming operations l s = .ok deferred s' → deferred.Sublist l
  | [], _, s, _, h => by
    obtain ⟨rfl, -⟩ := EStateM.Result.ok.inj h
    exact .slnil
  | a :: l, deferred, s, _, h => by
    rcases addRound_cons h with ⟨parents, -, hthen⟩ | ⟨-, hthen⟩
    · obtain ⟨_, s₁, -, hrest⟩ := bind_ok_iff.1 hthen
      exact (addRound_sublist hrest).cons a
    · obtain ⟨later, s₁, hrest, hpure⟩ := bind_ok_iff.1 hthen
      obtain ⟨rfl, rfl⟩ := EStateM.Result.ok.inj hpure
      exact (addRound_sublist hrest).cons_cons a

theorem addRound_makes : ∀ {l deferred : List Addition} {s s' : Applying},
    addRound incoming operations l s = .ok deferred s' →
      ∃ made, (made ++ deferred).Perm l ∧ Makes incoming operations made s s'
  | [], _, s, _, h => by
    obtain ⟨rfl, rfl⟩ := EStateM.Result.ok.inj h
    exact ⟨[], .nil, .nil⟩
  | a :: l, deferred, s, _, h => by
    rcases addRound_cons h with ⟨parents, hparents, hthen⟩ | ⟨-, hthen⟩
    · obtain ⟨_, s₁, hadd, hrest⟩ := bind_ok_iff.1 hthen
      obtain ⟨made, hperm, hmakes⟩ := addRound_makes hrest
      exact ⟨a :: made, hperm.cons a, .cons hparents hadd hmakes⟩
    · obtain ⟨later, s₁, hrest, hpure⟩ := bind_ok_iff.1 hthen
      obtain ⟨rfl, rfl⟩ := EStateM.Result.ok.inj hpure
      obtain ⟨made, hperm, hmakes⟩ := addRound_makes hrest
      exact ⟨made, List.perm_middle.trans (hperm.cons a), hmakes⟩

/-- A round that puts everything off has found no parents, and done nothing. -/
theorem addRound_stuck : ∀ {l : List Addition} {s s' : Applying}, addRound incoming operations l s = .ok l s' →
    s' = s ∧ ∀ a ∈ l, s.linksOf? (a.links.getD []) = none
  | [], s, _, h => ⟨(EStateM.Result.ok.inj h).2.symm, fun _ ha => by cases ha⟩
  | a :: l, s, _, h => by
    rcases addRound_cons h with ⟨parents, -, hthen⟩ | ⟨hnone, hthen⟩
    · obtain ⟨_, s₁, -, hrest⟩ := bind_ok_iff.1 hthen
      exact absurd (addRound_sublist hrest).length_le (by simp)
    · obtain ⟨later, s₁, hrest, hpure⟩ := bind_ok_iff.1 hthen
      obtain ⟨heq, rfl⟩ := EStateM.Result.ok.inj hpure
      rw [List.tail_eq_of_cons_eq heq] at hrest
      obtain ⟨hsame, hwaiting⟩ := addRound_stuck hrest
      exact ⟨hsame, List.forall_mem_cons.2 ⟨hnone, hwaiting⟩⟩

theorem addRound_interrupts : ∀ {l : List Addition} {s : Applying}, addRound incoming operations l s = .error e s' →
    e.Interrupts
  | [], _, h => by cases h
  | a :: l, s, h => by
    rcases addRound_cons h with ⟨parents, -, hthen⟩ | ⟨-, hthen⟩
    · rcases bind_error_iff.1 hthen with hadd | ⟨_, s₁, -, hrest⟩
      · exact add_interrupts hadd
      · exact addRound_interrupts hrest
    · rcases bind_error_iff.1 hthen with hrest | ⟨later, s₁, -, hpure⟩
      · exact addRound_interrupts hrest
      · cases hpure

/-! ## All rounds -/

/-- **Rounds, as many as it takes**: until nothing waits, something fails, or a round makes nothing. -/
inductive Rounds (incoming : Graph) (operations : SortedMap EntityId Operation) :
    List Addition → Applying → EStateM.Result ReconcileError Applying Unit → Prop
  | done {s : Applying} : Rounds incoming operations [] s (.ok () s)
  | interrupted {l : List Addition} {s s' : Applying} {e : ReconcileError} (waiting : l ≠ [])
    (round : addRound incoming operations l s = .error e s') : Rounds incoming operations l s (.error e s')
  | stuck {l deferred : List Addition} {s s' : Applying} (waiting : l ≠ [])
    (round : addRound incoming operations l s = .ok deferred s') (length : deferred.length = l.length) :
    Rounds incoming operations l s (.error (.parentsNeverAdded (deferred.map (·.incoming))) s')
  | again {l deferred : List Addition} {s s' : Applying} {r : EStateM.Result ReconcileError Applying Unit}
    (waiting : l ≠ []) (round : addRound incoming operations l s = .ok deferred s') (length : deferred.length ≠ l.length)
    (rest : Rounds incoming operations deferred s' r) : Rounds incoming operations l s r

/-- What a bounded number of rounds comes to, if there are no fewer of them than additions. -/
theorem rounds_addRounds : ∀ {n : Nat} {l : List Addition} {s : Applying}, l.length ≤ n →
    Rounds incoming operations l s (addRounds incoming operations n l s)
  | _, [], s, _ => by
    rw [addRounds]
    exact .done
  | n + 1, a :: l, s, hlen => by
    rw [addRounds]
    cases hround : addRound incoming operations (a :: l) s with
    | error e s' =>
      rw [bind_of_error hround]
      exact .interrupted (List.cons_ne_nil a l) hround
    | ok deferred s' =>
      rw [bind_of_ok hround]
      have hle := (addRound_sublist hround).length_le
      split
      · next hstuck => exact .stuck (List.cons_ne_nil a l) hround hstuck
      · next hfewer => exact .again (List.cons_ne_nil a l) hround hfewer (rounds_addRounds (by omega))

theorem Rounds.unique {r' : EStateM.Result ReconcileError Applying Unit} (h : Rounds incoming operations l s r)
    (h' : Rounds incoming operations l s r') : r = r' := by
  induction h with
  | done =>
    cases h' with
    | done => rfl
    | interrupted waiting | stuck waiting | again waiting => exact absurd rfl waiting
  | interrupted waiting round =>
    cases h' with
    | done => exact absurd rfl waiting
    | interrupted _ round' =>
      obtain ⟨rfl, rfl⟩ := EStateM.Result.error.inj (round.symm.trans round')
      rfl
    | stuck _ round' | again _ round' => cases round.symm.trans round'
  | stuck waiting round length =>
    cases h' with
    | done => exact absurd rfl waiting
    | interrupted _ round' => cases round.symm.trans round'
    | stuck _ round' =>
      obtain ⟨rfl, rfl⟩ := EStateM.Result.ok.inj (round.symm.trans round')
      rfl
    | again _ round' fewer =>
      obtain ⟨rfl, rfl⟩ := EStateM.Result.ok.inj (round.symm.trans round')
      exact absurd length fewer
  | again waiting round fewer _ ih =>
    cases h' with
    | done => exact absurd rfl waiting
    | interrupted _ round' => cases round.symm.trans round'
    | stuck _ round' length =>
      obtain ⟨rfl, rfl⟩ := EStateM.Result.ok.inj (round.symm.trans round')
      exact absurd length fewer
    | again _ round' _ rest =>
      obtain ⟨rfl, rfl⟩ := EStateM.Result.ok.inj (round.symm.trans round')
      exact ih rest

theorem rounds_iff : Rounds incoming operations l s r ↔ addAll incoming operations l s = r :=
  ⟨fun h => (rounds_addRounds (Nat.le_refl _)).unique h, fun h => h ▸ rounds_addRounds (Nat.le_refl _)⟩

theorem Rounds.makes (h : Rounds incoming operations l s (.ok u s')) :
    ∃ order, order.Perm l ∧ Makes incoming operations order s s' := by
  generalize hr : EStateM.Result.ok u s' = r at h
  induction h with
  | done =>
    obtain ⟨-, rfl⟩ := EStateM.Result.ok.inj hr
    exact ⟨[], .nil, .nil⟩
  | interrupted | stuck => cases hr
  | again _ round _ _ ih =>
    obtain ⟨made, hperm, hmakes⟩ := addRound_makes round
    obtain ⟨order, hperm', hmakes'⟩ := ih hr
    exact ⟨made ++ order, (hperm'.append_left made).trans hperm, hmakes.append hmakes'⟩

theorem Rounds.waits (h : Rounds incoming operations l s (.error e s')) (he : ¬e.Interrupts) :
    ∃ made pending, (made ++ pending).Perm l ∧ pending.Sublist l ∧ pending ≠ [] ∧ Makes incoming operations made s s' ∧
      e = .parentsNeverAdded (pending.map Addition.incoming) ∧ ∀ a ∈ pending, s'.linksOf? (a.links.getD []) = none := by
  generalize hr : EStateM.Result.error e s' = r at h
  induction h with
  | done => cases hr
  | interrupted _ round =>
    obtain ⟨rfl, rfl⟩ := EStateM.Result.error.inj hr
    exact absurd (addRound_interrupts round) he
  | stuck waiting round length =>
    obtain ⟨rfl, rfl⟩ := EStateM.Result.error.inj hr
    have hall := (addRound_sublist round).eq_of_length length
    subst hall
    obtain ⟨rfl, hwaiting⟩ := addRound_stuck round
    exact ⟨[], _, .refl _, .refl _, waiting, .nil, rfl, hwaiting⟩
  | again _ round _ _ ih =>
    obtain ⟨made, hperm, hmakes⟩ := addRound_makes round
    obtain ⟨made', pending, hperm', hsub, hne, hmakes', herror, hwaiting⟩ := ih hr
    refine ⟨made ++ made', pending, ?_, hsub.trans (addRound_sublist round), hne, hmakes.append hmakes', herror, hwaiting⟩
    rw [List.append_assoc]
    exact (hperm'.append_left made).trans hperm

/-! ## What is made, and what is not -/

/-- **What waits for ever is what is not grounded.** -/
theorem waiting_iff {made pending : List Addition} (hdistinct : (additions.map Addition.incoming).Nodup)
    (hperm : (made ++ pending).Perm additions) (hmakes : Makes incoming operations made (.start target) s')
    (hwaiting : ∀ a ∈ pending, s'.linksOf? (a.links.getD []) = none) (hi : i ∈ additions.map Addition.incoming) :
    i ∈ pending.map Addition.incoming ↔ ¬Grounded additions i := by
  have hmade : ∀ a ∈ made, a ∈ additions := fun a ha => hperm.mem_iff.1 (List.mem_append_left _ ha)
  have hparts : ∀ {i}, i ∈ additions.map Addition.incoming → i ∈ made.map Addition.incoming ∨
      i ∈ pending.map Addition.incoming := fun {i} hi => by
    rw [← List.mem_append, ← List.map_append]
    exact (hperm.map Addition.incoming).mem_iff.2 hi
  constructor
  · -- above what waits there is always another one that waits
    intro hpending hgrounded
    induction hgrounded with
    | @intro a listed above ih =>
      obtain ⟨b, hb, heq⟩ := List.mem_map.1 hpending
      obtain rfl := List.inj_on_of_nodup_map hdistinct (hperm.mem_iff.1 (List.mem_append_right _ hb)) listed heq
      obtain ⟨c, x, hlink, hx⟩ := Applying.linksOf?_eq_none (hwaiting b hb)
      have hlisted := (above c x hlink).listed
      refine ih c x hlink hlisted ((hparts hlisted).resolve_left fun hx' => ?_)
      obtain ⟨y, hy⟩ := SortedMap.contains_iff.1 (hmakes.copied_iff.2 hx')
      cases hx.symm.trans hy
  · intro hnot
    refine (hparts hi).resolve_left fun hi' => hnot ?_
    exact hmakes.grounded hmade (fun _ h => by cases h) i (hmakes.copied_iff.2 hi')

/-- **An addition in its turn**: what its links refer to has been made before, it is copied once, and the copy has its data
and hangs on what its links have become. -/
structure Turn (incoming : Graph) (operations : SortedMap EntityId Operation) (target : Graph) (final : Applying)
    (before : List Addition) (a : Addition) (after : List Addition) : Prop where
  referred : ∀ c i, (c, .added i) ∈ a.links.getD [] → i ∈ before.map Addition.incoming
  copied : ∃ s₁ s₂ parents copy, Makes incoming operations before (.start target) s₁ ∧
    add incoming operations a.incoming parents s₁ = .ok () s₂ ∧ Makes incoming operations after s₂ final ∧
    (a.links.getD []).Become final.copies parents ∧ Copies incoming a.incoming parents s₁ s₂ copy ∧
    final.copies.get? a.incoming = some copy

/-- **All additions are made**, each once and in its turn. -/
structure MakesAll (incoming : Graph) (operations : SortedMap EntityId Operation) (target : Graph)
    (additions order : List Addition) (final : Applying) : Prop where
  once : order.Perm additions
  counted : final.applied.added = additions.length
  contains : ∀ i, final.copies.contains i = true ↔ i ∈ additions.map Addition.incoming
  turn : ∀ {before a after}, order = before ++ a :: after → Turn incoming operations target final before a after

theorem Makes.makesAll {order : List Addition} (hdistinct : (additions.map Addition.incoming).Nodup)
    (hperm : order.Perm additions) (h : Makes incoming operations order (.start target) s') :
    MakesAll incoming operations target additions order s' := by
  refine ⟨hperm, ?_, fun i => h.copied_iff.trans (hperm.map Addition.incoming).mem_iff, fun {before a after} heq => ?_⟩
  · rw [h.tally.added, hperm.length_eq]
    exact Nat.zero_add _
  subst heq
  have hnodup := (hperm.map Addition.incoming).nodup_iff.2 hdistinct
  rw [List.map_append, List.nodup_append] at hnodup
  obtain ⟨-, hlater, hapart⟩ := hnodup
  obtain ⟨s₁, hbefore, hthen⟩ := h.split
  -- what is copied before stays as it is
  have hstays : ∀ {i x}, s₁.copies.get? i = some x → s'.copies.get? i = some x := fun {i x} hx => by
    have hi := hbefore.copied_iff.1 (SortedMap.contains_iff.2 ⟨x, hx⟩)
    rw [hthen.get?_eq fun hi' => hapart i hi i hi' rfl, hx]
  cases hthen with
  | @cons _ _ parents _ s₂ _ resolved made rest =>
    obtain ⟨copy, hcopies⟩ := add_copies made
    have hbecome := Applying.linksOf?_become resolved
    refine ⟨fun c i hlink => hbefore.copied_iff.1 (hbecome.copied hlink),
      s₁, s₂, parents, copy, hbefore, made, rest, hbecome.mono hstays, hcopies, ?_⟩
    rw [rest.get?_eq (List.nodup_cons.1 hlater).1, hcopies.copies, SortedMap.get?_insert_self]

/-- **Additions are made whatever their order.**  Rounds without a bound come to what the bounded ones come to.  Unless
they are interrupted, they succeed when every addition is grounded and else stop for those that are not.  When they
succeed, every addition is made in its turn. -/
theorem addAll_grounds (hdistinct : (additions.map Addition.incoming).Nodup) :
    (∀ r, Rounds incoming operations additions (.start target) r ↔ addAll incoming operations additions (.start target) = r) ∧
    ((∀ {e s}, addAll incoming operations additions (.start target) = .error e s → ¬e.Interrupts) →
      ((∃ s, addAll incoming operations additions (.start target) = .ok () s) ↔
        ∀ a ∈ additions, Grounded additions a.incoming)) ∧
    (∀ {e s}, addAll incoming operations additions (.start target) = .error e s → ¬e.Interrupts →
      ∃ ids, e = .parentsNeverAdded ids ∧ ids.Sublist (additions.map Addition.incoming) ∧
        ∀ i ∈ additions.map Addition.incoming, i ∈ ids ↔ ¬Grounded additions i) ∧
    ∀ {s}, addAll incoming operations additions (.start target) = .ok () s →
      ∃ order, MakesAll incoming operations target additions order s := by
  have hstop : ∀ {e s}, addAll incoming operations additions (.start target) = .error e s → ¬e.Interrupts →
      ∃ ids, e = .parentsNeverAdded ids ∧ ids ≠ [] ∧ ids.Sublist (additions.map Addition.incoming) ∧
        ∀ i ∈ additions.map Addition.incoming, i ∈ ids ↔ ¬Grounded additions i := by
    intro e s hrun he
    obtain ⟨made, pending, hperm, hsub, hne, hmakes, herror, hwaiting⟩ := (rounds_iff.2 hrun).waits he
    exact ⟨_, herror, fun hnil => hne (List.map_eq_nil_iff.1 hnil), hsub.map _, fun i hi =>
      waiting_iff hdistinct hperm hmakes hwaiting hi⟩
  refine ⟨fun r => rounds_iff, fun hquiet => ⟨?_, fun hall => ?_⟩, fun hrun he => ?_, fun {s} hrun => ?_⟩
  · rintro ⟨s, hrun⟩ a ha
    obtain ⟨order, hperm, hmakes⟩ := (rounds_iff.2 hrun).makes
    have hcopied := hmakes.copied_iff.2 (List.mem_map_of_mem (hperm.mem_iff.2 ha))
    exact hmakes.grounded (fun a ha => hperm.mem_iff.1 ha) (fun _ h => by cases h) _ hcopied
  · cases hrun : addAll incoming operations additions (.start target) with
    | ok u s => exact ⟨s, rfl⟩
    | error e s =>
      obtain ⟨ids, -, hne, hsub, hids⟩ := hstop hrun (hquiet hrun)
      obtain ⟨i, hi⟩ := List.exists_mem_of_ne_nil ids hne
      obtain ⟨a, ha, rfl⟩ := List.mem_map.1 (hsub.subset hi)
      exact absurd (hall a ha) ((hids _ (hsub.subset hi)).1 hi)
  · obtain ⟨ids, herror, -, hsub, hids⟩ := hstop hrun he
    exact ⟨ids, herror, hsub, hids⟩
  · obtain ⟨order, hperm, hmakes⟩ := (rounds_iff.2 hrun).makes
    exact ⟨order, hmakes.makesAll hdistinct hperm⟩

/-- `3#0` hangs on `1#0` and `2#0`, and both of these on `0#0`. -/
def diamond : Graph := .ofNodes
  ⟨#[⟨"A", [], []⟩, ⟨"B", [], [⟨0, 1, .many, .required⟩]⟩, ⟨"C", [], [⟨0, 2, .many, .required⟩]⟩,
    ⟨"D", [], [⟨1, 3, .many, .required⟩, ⟨2, 3, .many, .optional⟩]⟩]⟩
  [(⟨0, 0⟩, .new 0 "s", []), (⟨1, 0⟩, .new 1 "s", [(⟨0, 1, .many, .required⟩, ⟨0, 0⟩)]),
    (⟨2, 0⟩, .new 2 "s", [(⟨0, 2, .many, .required⟩, ⟨0, 0⟩)]),
    (⟨3, 0⟩, .new 3 "s", [(⟨1, 3, .many, .required⟩, ⟨1, 0⟩), (⟨2, 3, .many, .optional⟩, ⟨2, 0⟩)])]
  [(0, 1), (1, 1), (2, 1), (3, 1)]

/-- The additions of a diamond, those below before those above. -/
def fromBelow : List Addition :=
  [⟨some [(⟨1, 3, .many, .required⟩, .added ⟨1, 0⟩), (⟨2, 3, .many, .optional⟩, .added ⟨2, 0⟩)], ⟨3, 0⟩⟩,
    ⟨some [(⟨0, 2, .many, .required⟩, .added ⟨0, 0⟩)], ⟨2, 0⟩⟩, ⟨some [(⟨0, 1, .many, .required⟩, .added ⟨0, 0⟩)], ⟨1, 0⟩⟩,
    ⟨none, ⟨0, 0⟩⟩]

/-- Two additions that refer to each other, and one that refers to nothing. -/
def entwined : List Addition :=
  [⟨some [(⟨2, 3, .many, .optional⟩, .added ⟨2, 0⟩)], ⟨3, 0⟩⟩, ⟨none, ⟨0, 0⟩⟩,
    ⟨some [(⟨0, 2, .many, .required⟩, .added ⟨3, 0⟩)], ⟨2, 0⟩⟩]

theorem addAll_grounds_diamond :
    (∃ s order, addAll diamond .empty fromBelow (.start (.empty diamond.schema)) = .ok () s ∧
      MakesAll diamond .empty (.empty diamond.schema) fromBelow order s ∧ ∀ a ∈ fromBelow, Grounded fromBelow a.incoming) ∧
    ∃ s, addAll diamond .empty entwined (.start (.empty diamond.schema)) =
        .error (.parentsNeverAdded [⟨3, 0⟩, ⟨2, 0⟩]) s ∧
      Grounded entwined ⟨0, 0⟩ ∧ ¬Grounded entwined ⟨2, 0⟩ := by
  constructor
  · have hsucceeds : succeedsWith (addAll diamond .empty fromBelow (.start (.empty diamond.schema)))
        (fun _ _ => true) = true := by decide +kernel
    obtain ⟨_, s, hrun, -⟩ := exists_of_succeedsWith hsucceeds
    obtain ⟨-, hground, -, hmakes⟩ := @addAll_grounds diamond (.empty diamond.schema) .empty fromBelow (by decide)
    obtain ⟨order, hall⟩ := hmakes hrun
    exact ⟨s, order, hrun, hall, (hground fun herror => by cases hrun.symm.trans herror).1 ⟨s, hrun⟩⟩
  · have hfails : failsWith (addAll diamond .empty entwined (.start (.empty diamond.schema)))
        (fun e => e = .parentsNeverAdded [⟨3, 0⟩, ⟨2, 0⟩]) = true := by decide +kernel
    obtain ⟨e, s, hrun, he⟩ := exists_of_failsWith hfails
    obtain rfl := of_decide_eq_true he
    obtain ⟨-, -, hstop, -⟩ := @addAll_grounds diamond (.empty diamond.schema) .empty entwined (by decide)
    obtain ⟨ids, heq, -, hids⟩ := hstop hrun (by simp [ReconcileError.Interrupts, ReconcileError.errorClass])
    obtain rfl := ReconcileError.parentsNeverAdded.inj heq
    refine ⟨s, hrun, by_contra fun hnot => ?_, (hids ⟨2, 0⟩ (by decide)).1 (by decide)⟩
    simpa using (hids ⟨0, 0⟩ (by decide)).2 hnot

end Apply
end Reconciliation
