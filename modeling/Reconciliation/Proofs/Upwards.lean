import Reconciliation.Proofs.Fuel
/-!
# Halts travel upwards

When a call that is entered halts, the call that entered it halts in the same way (`Enters.halts`).  And a call that
enters another one with some fuel does so with any other amount, unless that is smaller and the call runs out of it
before (`Enters.follow`).
-/
namespace Reconciliation

open Progress Planning

namespace Pass

variable {p : Pass} {resolve : Resolver} {addSubtree : Adder} {s s₁ s' : Progress} {h : Halt} {r u i : EntityId}
  {t : Track} {links links' : PlannedLinks} {before after : List (Connection × Track)} {c : Connection}
  {parents resolved : List ResolvedParent}

/-! ## Locating -/

theorem locateAll_append_ok (hb : p.locateAll resolve links before s = .ok links' s₁) :
    p.locateAll resolve links (before ++ after) s = p.locateAll resolve links' after s₁ := by
  induction before generalizing links s with
  | nil =>
    obtain ⟨rfl, rfl⟩ := EStateM.Result.ok.inj hb
    rfl
  | cons x before ih =>
    obtain ⟨c, t⟩ := x
    rw [locateAll] at hb
    obtain ⟨q, s₂, hq, hrest⟩ := bind_ok_iff.1 hb
    rw [List.cons_append, locateAll, bind_of_ok hq]
    cases q with
    | none => exact ih hrest
    | some q => exact ih hrest

theorem locateAll_append_halts (hb : (p.locateAll resolve links before).HaltsWith s h) :
    (p.locateAll resolve links (before ++ after)).HaltsWith s h := by
  induction before generalizing links s with
  | nil =>
    obtain ⟨s', hb⟩ := hb
    cases hb
  | cons x before ih =>
    obtain ⟨c, t⟩ := x
    obtain ⟨s', hb⟩ := hb
    rw [locateAll] at hb
    rw [List.cons_append, locateAll]
    rcases bind_error_iff.1 hb with hq | ⟨q, s₂, hq, hrest⟩
    · exact .bind ⟨s', hq⟩
    · refine .after hq ?_
      cases q with
      | none => exact ih ⟨s', hrest⟩
      | some q => exact ih ⟨s', hrest⟩

theorem locateAll_halts (hb : p.locateAll resolve links before s = .ok links' s₁)
    (ht : (p.locate resolve t).HaltsWith s₁ h) :
    (p.locateAll resolve links (before ++ (c, t) :: after)).HaltsWith s h := by
  have hrest : (p.locateAll resolve links' ((c, t) :: after)).HaltsWith s₁ h := by
    rw [locateAll]
    exact ht.bind
  obtain ⟨s', hrest⟩ := hrest
  exact ⟨s', by rw [locateAll_append_ok hb, hrest]⟩

theorem locate_halts {id : EntityId} {l : List (Connection × Track)} (free : s.incomingFates.get? id = none)
    (hl : (p.locateAll resolve [] l).HaltsWith s h) : (p.locate resolve (.node id l)).HaltsWith s h := by
  cases l with
  | nil =>
    obtain ⟨s', hl⟩ := hl
    cases hl
  | cons x rest =>
    rw [locate]
    refine .after (x := get) rfl ?_
    rw [free]
    exact hl.bind

theorem Asks.halts (ha : p.Asks resolve t s r s') (hr : (resolve r).HaltsWith s' h) :
    (p.locate resolve t).HaltsWith s h := by
  induction ha with
  | @root id s free =>
    rw [locate]
    refine .after (x := get) rfl ?_
    rw [free]
    exact hr
  | parent free first _ ih => exact locate_halts free (locateAll_halts first (ih hr))

theorem AsksAll.halts {l : List (Connection × Track)} (ha : p.AsksAll resolve links l s r s')
    (hr : (resolve r).HaltsWith s' h) : (p.locateAll resolve links l).HaltsWith s h := by
  obtain ⟨before, c, t, after, links', s₁, rfl, hfirst, hasks⟩ := ha
  exact locateAll_halts hfirst (hasks.halts hr)

theorem locateAll_follow {n m : Nat} {l : List (Connection × Track)}
    (h : p.locateAll (p.resolveRoot m) links l s = .ok links' s₁) :
    p.locateAll (p.resolveRoot n) links l s = .ok links' s₁ ∨
      n < m ∧ (p.locateAll (p.resolveRoot n) links l).Hangs s :=
  follow (x := fun n => p.locateAll (p.resolveRoot n) links l)
    (fun hnm => locateAll_below (fuel_below p hnm).1 links l) h n

theorem Asks.follow {m : Nat} (ha : p.Asks (p.resolveRoot m) t s r s') (n : Nat) :
    p.Asks (p.resolveRoot n) t s r s' ∨ n < m ∧ (p.locate (p.resolveRoot n) t).Hangs s := by
  induction ha with
  | root free => exact .inl (.root free)
  | parent free first _ ih =>
    rcases locateAll_follow (n := n) first with first' | ⟨hlt, hang⟩
    · rcases ih with asks | ⟨hlt, hang⟩
      · exact .inl (.parent free first' asks)
      · exact .inr ⟨hlt, locate_halts free (locateAll_halts first' hang)⟩
    · exact .inr ⟨hlt, locate_halts free (locateAll_append_halts hang)⟩

theorem AsksAll.follow {m : Nat} {l : List (Connection × Track)} (ha : p.AsksAll (p.resolveRoot m) links l s r s')
    (n : Nat) : p.AsksAll (p.resolveRoot n) links l s r s' ∨
      n < m ∧ (p.locateAll (p.resolveRoot n) links l).Hangs s := by
  obtain ⟨before, c, t, after, links', s₁, rfl, hfirst, hasks⟩ := ha
  rcases locateAll_follow (n := n) hfirst with hfirst' | ⟨hlt, hang⟩
  · rcases hasks.follow n with hasks' | ⟨hlt, hang⟩
    · exact .inl ⟨before, c, t, after, links', s₁, rfl, hfirst', hasks'⟩
    · exact .inr ⟨hlt, locateAll_halts hfirst' hang⟩
  · exact .inr ⟨hlt, locateAll_append_halts hang⟩

/-! ## Pairing -/

theorem pairAll_halts (hb : p.pairAll resolve before s = .ok resolved s₁) (ht : (p.pair resolve t).HaltsWith s₁ h) :
    (p.pairAll resolve (before ++ (c, t) :: after)).HaltsWith s h := by
  induction before generalizing s resolved with
  | nil =>
    obtain ⟨rfl, rfl⟩ := EStateM.Result.ok.inj hb
    rw [List.nil_append, pairAll]
    exact ht.bind
  | cons x before ih =>
    obtain ⟨c', t'⟩ := x
    rw [pairAll] at hb
    obtain ⟨counterpart, s₂, hc, hrest⟩ := bind_ok_iff.1 hb
    obtain ⟨out, s₃, hout, hpure⟩ := bind_ok_iff.1 hrest
    obtain ⟨-, rfl⟩ := EStateM.Result.ok.inj hpure
    rw [List.cons_append, pairAll]
    exact .after hc (ih hout).bind

theorem pairAll_append_halts (hb : (p.pairAll resolve before).HaltsWith s h) :
    (p.pairAll resolve (before ++ after)).HaltsWith s h := by
  induction before generalizing s with
  | nil =>
    obtain ⟨s', hb⟩ := hb
    cases hb
  | cons x before ih =>
    obtain ⟨c', t'⟩ := x
    obtain ⟨s', hb⟩ := hb
    rw [pairAll] at hb
    rw [List.cons_append, pairAll]
    rcases bind_error_iff.1 hb with hq | ⟨q, s₂, hq, hrest⟩
    · exact .bind ⟨s', hq⟩
    · rcases bind_error_iff.1 hrest with hout | ⟨out, s₃, _, hpure⟩
      · exact .after hq (ih ⟨s', hout⟩).bind
      · cases hpure

theorem pair_halts {id : EntityId} {l : List (Connection × Track)} (hl : (p.pairAll resolve l).HaltsWith s h) :
    (p.pair resolve (.node id l)).HaltsWith s h := by
  rw [pair]
  exact hl.bind

theorem Pairs.halts (hp : p.Pairs resolve t s u parents s') (hu : (p.pairUnder resolve u parents).HaltsWith s' h) :
    (p.pair resolve t).HaltsWith s h := by
  induction hp with
  | @here id l s s' resolved some first free =>
    rw [pair]
    refine .after first (.after (x := get) rfl ?_)
    rw [free]
    cases l with
    | nil => exact absurd rfl some
    | cons x rest => exact hu
  | above first _ ih => exact pair_halts (pairAll_halts first (ih hu))

theorem pairAll_follow {n m : Nat} {l : List (Connection × Track)}
    (h : p.pairAll (p.resolveRoot m) l s = .ok resolved s₁) :
    p.pairAll (p.resolveRoot n) l s = .ok resolved s₁ ∨ n < m ∧ (p.pairAll (p.resolveRoot n) l).Hangs s :=
  follow (x := fun n => p.pairAll (p.resolveRoot n) l) (fun hnm => pairAll_below (fuel_below p hnm).1 l) h n

theorem Pairs.follow {m : Nat} (hp : p.Pairs (p.resolveRoot m) t s u parents s') (n : Nat) :
    p.Pairs (p.resolveRoot n) t s u parents s' ∨ n < m ∧ (p.pair (p.resolveRoot n) t).Hangs s := by
  induction hp with
  | here some first free =>
    rcases pairAll_follow (n := n) first with first' | ⟨hlt, hang⟩
    · exact .inl (.here some first' free)
    · exact .inr ⟨hlt, pair_halts hang⟩
  | above first _ ih =>
    rcases pairAll_follow (n := n) first with first' | ⟨hlt, hang⟩
    · rcases ih with pairs | ⟨hlt, hang⟩
      · exact .inl (.above first' pairs)
      · exact .inr ⟨hlt, pair_halts (pairAll_halts first' hang)⟩
    · exact .inr ⟨hlt, pair_halts (pairAll_append_halts hang)⟩

theorem classifyTarget_halts (free : s.targetFates.get? i = none) (track : Track.ofGraph p.target i = .ok t)
    (ht : (p.pair resolve t).HaltsWith s h) : (p.classifyTarget resolve i).HaltsWith s h := by
  refine .after (x := get) rfl ?_
  rw [if_neg (by rw [SortedMap.contains_eq_false_iff.2 free]; simp)]
  exact .after (track_ok_iff.2 ⟨track, rfl⟩) ht.bind

theorem pairUnder_halts {data : Entity} {later : List ResolvedParent} {parent : ResolvedParent}
    (entity : p.target.entity u = .ok data) (hit : p.firstHit data parents s = .ok (some (i, parent, later)) s)
    (linked : p.linkLater i (PlannedLinks.link [] parent.connection (.target parent.target)) later s = .ok links s)
    (track : Track.ofGraph p.incoming i = .ok t) (hl : (p.locateAll resolve links t.parents).HaltsWith s h) :
    (p.pairUnder resolve u parents).HaltsWith s h := by
  have hfind : (p.findPair resolve data parents).HaltsWith s h :=
    .after hit (.after linked (.after (track_ok_iff.2 ⟨track, rfl⟩) hl.bind))
  exact .after (lookup_run entity s) hfind.bind

/-! ## Adding -/

theorem addChild_halts {l : Link} (free : s.incomingFates.get? l.2 = none) (accepted : p.IncomingIs true l.2)
    (track : Track.ofGraph p.incoming l.2 = .ok t) (ht : (p.locate resolve t).HaltsWith s h) :
    (p.addChild resolve addSubtree i l).HaltsWith s h := by
  refine .after (x := get) rfl ?_
  rw [if_neg (by rw [SortedMap.contains_eq_false_iff.2 free]; simp)]
  exact .after (acceptsIncoming_run accepted s) (.after (track_ok_iff.2 ⟨track, rfl⟩) ht.bind)

theorem copyChild_halts {l : Link} {parents : List (Connection × Track)} (free : s.incomingFates.get? l.2 = none)
    (others : p.locateAll resolve (PlannedLinks.link [] l.1 (.added i)) (parents.filter fun x => x.2.entity ≠ i) s =
      .ok links s₁) (hl : (addSubtree (some links) l.2).HaltsWith s₁ h) :
    (p.copyChild resolve addSubtree i l parents).HaltsWith s h := by
  refine .after (x := get) rfl ?_
  rw [if_neg (by rw [SortedMap.contains_eq_false_iff.2 free]; simp)]
  exact .after others hl

/-- An accepted child that has no fate and no counterpart in the target is added. -/
theorem addChild_copy_halts {l : Link} {place : Option PlannedParent} (free : s.incomingFates.get? l.2 = none)
    (accepted : p.IncomingIs true l.2) (track : Track.ofGraph p.incoming l.2 = .ok t)
    (located : p.locate resolve t s = .ok place s₁) (noTarget : ∀ u, place ≠ some (.target u))
    (hl : (p.copyChild resolve addSubtree i l t.parents).HaltsWith s₁ h) :
    (p.addChild resolve addSubtree i l).HaltsWith s h := by
  refine .after (x := get) rfl ?_
  rw [if_neg (by rw [SortedMap.contains_eq_false_iff.2 free]; simp)]
  refine .after (acceptsIncoming_run accepted s) (.after (track_ok_iff.2 ⟨track, rfl⟩) (.after located ?_))
  split
  · next u => exact absurd rfl (noTarget u)
  · exact hl

theorem addSubtreeWith_halts {links : Option PlannedLinks} {children : List Link} (free : s.incomingFates.get? i = none)
    (hchildren : p.incoming.children i = .ok children)
    (hl : (children.forM (p.addChild resolve addSubtree i)).HaltsWith
      ((s.addition ⟨links, i⟩).setIncoming i .added) h) : (p.addSubtreeWith resolve addSubtree links i).HaltsWith s h := by
  refine .after (x := get) rfl ?_
  rw [free]
  exact .after (a := ()) (add_ok_iff.2 ⟨free, rfl⟩) (.after (lookup_run hchildren _) hl)

theorem resolveRootWith_copy_halts {data : Entity} (entity : p.incoming.entity r = .ok data)
    (found : p.findRoot data s = .ok none s₁) (accepted : p.IncomingIs true r)
    (hl : (addSubtree none r).HaltsWith s₁ h) : (p.resolveRootWith resolve addSubtree r).HaltsWith s h :=
  .after (lookup_run entity s) (.after found (.after (acceptsIncoming_run accepted s₁) hl.bind))

theorem resolveRootWith_target_halts {data : Entity} (entity : p.incoming.entity r = .ok data)
    (found : p.findRoot data s = .ok (some u) s₁) (free : s₁.targetFates.get? u = none)
    (accepted : p.TargetIs true u) (hl : (p.classifyTarget resolve u).HaltsWith s₁ h) :
    (p.resolveRootWith resolve addSubtree r).HaltsWith s h := by
  refine .after (lookup_run entity s) (.after found (.after (x := get) rfl (.after (acceptsTarget_run accepted s₁) ?_)))
  simp only [SortedMap.contains_eq_false_iff.2 free, Bool.not_false, Bool.and_self, if_true]
  exact hl.bind

end Pass

/-! ## Calls -/

variable {p : Pass} {s s' : Progress} {h : Halt} {x y : Call}

open Pass

/-- **When a call that is entered halts, so does the call that entered it.** -/
theorem Pass.Enters.halts {n : Nat} (he : p.Enters (p.resolveRoot n) (p.addSubtree n) x s y s')
    (hy : y.HaltsIn p n s' h) : x.HaltsIn p (n + x.cost) s h := by
  cases he with
  | pairing free track pairs => exact classifyTarget_halts free track (pairs.halts hy)
  | place entity hit linked track asks => exact pairUnder_halts entity hit linked track (asks.halts hy)
  | copy entity found accepted => exact resolveRootWith_copy_halts entity found accepted hy
  | target entity found free accepted => exact resolveRootWith_target_halts entity found free accepted hy
  | child free children first enters =>
    refine addSubtreeWith_halts free children (forM_halts first ?_)
    cases enters with
    | root free accepted track asks => exact addChild_halts free accepted track (asks.halts hy)
    | copy free accepted track located noTarget stillFree others =>
      exact addChild_copy_halts free accepted track located noTarget (copyChild_halts stillFree others hy)

theorem Pass.EntersChild.follow {i : EntityId} {l : Link} {m : Nat} (he : p.EntersChild (p.resolveRoot m) i l s y s')
    (n : Nat) : p.EntersChild (p.resolveRoot n) i l s y s' ∨
      n < m ∧ (p.addChild (p.resolveRoot n) (p.addSubtree n) i l).Hangs s := by
  cases he with
  | root free accepted track asks =>
    rcases asks.follow n with asks' | ⟨hlt, hang⟩
    · exact .inl (.root free accepted track asks')
    · exact .inr ⟨hlt, addChild_halts free accepted track hang⟩
  | copy free accepted track located noTarget stillFree others =>
    rcases follow (x := fun n => p.locate (p.resolveRoot n) _) (fun hnm => locate_below (fuel_below p hnm).1 _) located n
      with located' | ⟨hlt, hang⟩
    · rcases locateAll_follow (n := n) others with others' | ⟨hlt, hang⟩
      · exact .inl (.copy free accepted track located' noTarget stillFree others')
      · refine .inr ⟨hlt, addChild_copy_halts free accepted track located' noTarget ?_⟩
        refine .after (x := get) rfl ?_
        rw [if_neg (by rw [SortedMap.contains_eq_false_iff.2 stillFree]; simp)]
        exact hang.bind
    · exact .inr ⟨hlt, addChild_halts free accepted track hang⟩

theorem Pass.Enters.follow {m : Nat} (he : p.Enters (p.resolveRoot m) (p.addSubtree m) x s y s') (n : Nat) :
    p.Enters (p.resolveRoot n) (p.addSubtree n) x s y s' ∨ n < m ∧ x.HaltsIn p (n + x.cost) s .outOfFuel := by
  cases he with
  | pairing free track pairs =>
    rcases pairs.follow n with pairs' | ⟨hlt, hang⟩
    · exact .inl (.pairing free track pairs')
    · exact .inr ⟨hlt, classifyTarget_halts free track hang⟩
  | place entity hit linked track asks =>
    rcases asks.follow n with asks' | ⟨hlt, hang⟩
    · exact .inl (.place entity hit linked track asks')
    · exact .inr ⟨hlt, pairUnder_halts entity hit linked track hang⟩
  | copy entity found accepted => exact .inl (.copy entity found accepted)
  | target entity found free accepted => exact .inl (.target entity found free accepted)
  | @child i links before after l y s s₁ s' free children first enters =>
    rcases Planning.follow (x := fun n => before.forM (p.addChild (p.resolveRoot n) (p.addSubtree n) i))
      (fun hnm => Below.forM fun l => addChild_below (fuel_below p hnm).1 (fuel_below p hnm).2 i l) first n
      with first' | ⟨hlt, hang⟩
    · rcases enters.follow n with enters' | ⟨hlt, hang⟩
      · exact .inl (.child free children first' enters')
      · exact .inr ⟨hlt, addSubtreeWith_halts free children (forM_halts first' hang)⟩
    · exact .inr ⟨hlt, addSubtreeWith_halts free children (forM_append_halts hang)⟩

end Reconciliation
