import Reconciliation.Proofs.Calls
/-!
# Why a call halts

Every function of planning ends by steps, or halts because of a call that it enters.  For pairing there is one more way
to halt: the entity was overtaken, and the decision about it is refused (`Taken`).  Since roots and additions are made
of these functions, they keep what they promise with every amount of fuel (`trusted`), and what halts a call with some
fuel halts a call that it enters with what is left (`Call.HaltsIn.culprit`).
-/
namespace Reconciliation

open Progress Planning Pass

namespace Planning

variable {p : Pass} {s : Progress} {t i : EntityId} {links : Option PlannedLinks} {α : Type}

theorem setTargetFate_taken {f : TargetFate} {k : PUnit → Planning α} (ht : s.targetFates.contains t = true) :
    Ends p (setTargetFate t f >>= k) s (fun _ _ => False) (Taken t) := by
  obtain ⟨f', hf'⟩ := SortedMap.contains_iff.1 ht
  have hrun : setTargetFate t f s = .error (.failed (.targetClassifiedTwice t f' f)) s := by
    simp only [setTargetFate, get_bind, hf']
    rfl
  refine ⟨fun hok => ?_, fun herr => ?_⟩
  · rw [bind_of_error hrun] at hok
    cases hok
  · rw [bind_of_error hrun] at herr
    exact .inr ⟨f', f, (EStateM.Result.error.inj herr).1.symm⟩

theorem schedule_taken {o : Operation} {f : TargetFate} {k : PUnit → Planning α}
    (ht : s.targetFates.contains t = true) :
    Ends p (schedule t o >>= fun _ => setTargetFate t f >>= k) s (fun _ _ => False) (Taken t) := by
  cases ho : s.plan.operations.contains t with
  | true =>
    have hrun : schedule t o s = .error (.failed (.scheduledTwice t)) s := by
      simp only [schedule, get_bind, ho]
      rfl
    refine ⟨fun hok => ?_, fun herr => ?_⟩
    · rw [bind_of_error hrun] at hok
      cases hok
    · rw [bind_of_error hrun] at herr
      exact .inl (EStateM.Result.error.inj herr).1.symm
  | false =>
    have hrun := (schedule_ok_iff (o := o) (u := ())).2 ⟨SortedMap.contains_eq_false_iff.1 ho, rfl⟩
    have hends := setTargetFate_taken (p := p) (f := f) (k := k) (s := s.schedule t o) ht
    refine ⟨fun hok => ?_, fun herr => ?_⟩
    · rw [bind_of_ok hrun] at hok
      exact (hends.ok hok).2.elim
    · rw [bind_of_ok hrun] at herr
      exact hends.error herr

end Planning

namespace Pass

variable {p : Pass} {resolve : Resolver} {addSubtree : Adder} {s : Progress} {t i : EntityId}
  {links : Option PlannedLinks} {data : Entity} {parents : List ResolvedParent}

theorem unpaired_taken (hs : s.Sound p) (ht : s.targetFates.contains t = true) :
    Ends p (p.unpaired t) s (fun _ _ => False) (Taken t) := by
  obtain ⟨f, hf⟩ := SortedMap.contains_iff.1 ht
  obtain ⟨accepted, hacc⟩ := exists_targetIs (hs.contains_target hf)
  refine .bind_look (acceptsTarget_run hacc s) ?_
  cases accepted with
  | true => exact (schedule_taken ht).bind fun _ _ _ _ h => h.elim
  | false => exact (setTargetFate_taken ht).bind fun _ _ _ _ h => h.elim

theorem settlePair_taken (hs : s.Sound p) (ht : s.targetFates.contains t = true) (hc : p.incoming.contains i = true) :
    Ends p (p.settlePair t i links) s (fun _ _ => False) (Taken t) := by
  obtain ⟨f, hf⟩ := SortedMap.contains_iff.1 ht
  obtain ⟨targetAccepted, htacc⟩ := exists_targetIs (hs.contains_target hf)
  obtain ⟨accepted, hacc⟩ := exists_incomingIs hc
  refine .bind_look (acceptsTarget_run htacc s) (.bind_look (acceptsIncoming_run hacc s) ?_)
  cases accepted with
  | true => exact (schedule_taken ht).bind fun _ _ _ _ h => h.elim
  | false =>
    cases targetAccepted with
    | true => exact (schedule_taken ht).bind fun _ _ _ _ h => h.elim
    | false => exact (setTargetFate_taken ht).bind fun _ _ _ _ h => h.elim

/-! ## Pairing -/

theorem findPair_ends (hp : p.Consistent) (hT : Trusted p resolve addSubtree) (hs : s.Sound p)
    (hd : p.target.entity t = .ok data) (hr : ∀ r ∈ parents, r.There p) :
    Ends p (p.findPair resolve data parents) s (fun found _ => ∀ i links, found = some (i, links) →
      p.incoming.contains i = true ∧ ThereAll p (some links)) (Culprit p resolve addSubtree s (Enters p resolve addSubtree (.pairing t parents) s)) := by
  obtain ⟨hit, hhit, hpost⟩ := firstHit_look data s hr
  refine .bind_look hhit ?_
  cases hit with
  | none => exact .pure fun _ _ h => by cases h
  | some hit =>
    obtain ⟨i, parent, later⟩ := hit
    obtain ⟨hc, -, hparent, hlater⟩ := hpost i parent later rfl
    have hfirst : ∀ l ∈ PlannedLinks.link [] parent.connection (.target parent.target), l.2.There p :=
      there_link (fun _ h => by cases h) (hr parent hparent).1
    obtain ⟨links, hlinks, hthere⟩ := linkLater_look (i := i) (s := s) (fun r h => hr r (hlater h)) hfirst
    obtain ⟨track, htrack⟩ := Track.ofGraph_total hp.incoming hc
    obtain ⟨hof, -⟩ := Track.ofGraph_of htrack
    have hlocate : Ends p (p.locateAll resolve links track.parents) s (fun links' _ => ThereAll p (some links'))
        (Culprit p resolve addSubtree s (Enters p resolve addSubtree (.pairing t parents) s)) :=
      (locateAll_ends hT hof.above hthere hs).mono (fun _ _ h => h.2) fun h hc =>
        hc.after (.refl s) fun ⟨r, hr, hasks⟩ => hr ▸ .place hd hhit hlinks htrack hasks
    refine .bind_look hlinks (.bind_look (track_ok_iff.2 ⟨htrack, rfl⟩) (hlocate.bind fun links' s₁ _ _ h => .pure ?_))
    intro j l hfound
    obtain ⟨rfl, rfl⟩ := Prod.mk.inj (Option.some.inj hfound)
    exact ⟨hc, h⟩

/-- **Pairing an entity** decides about it, or halts because of a root, or because it was overtaken. -/
theorem pairUnder_ends (hp : p.Consistent) (hT : Trusted p resolve addSubtree) (hs : s.Sound p)
    (ho : (Call.pairing t parents).Open p s) :
    Ends p (p.pairUnder resolve t parents) s (p.Paired t) (Blame p resolve addSubtree (.pairing t parents) s) := by
  obtain ⟨hc, ht, hr⟩ := ho
  obtain ⟨data, hd⟩ := Graph.exists_entity hc
  refine .bind_look (lookup_run hd s) (.bind ((findPair_ends hp hT hs hd hr).mono (fun _ _ h => h) fun h => .inl) ?_)
  intro found s₁ hfound hs₁ hthere
  have hsound := hs₁.sound hs
  have htaken : ∀ {x : Planning (Option EntityId)}, s₁.targetFates.contains t = true →
      Ends p x s₁ (fun _ _ => False) (Taken t) →
      Ends p x s₁ (p.Paired t) (Blame p resolve addSubtree (.pairing t parents) s) := fun htk hx =>
    hx.mono (fun _ _ => False.elim) fun h hh => .inr ⟨t, parents, rfl, ⟨data, found, s₁, hd, hfound, htk⟩, hh⟩
  have hunpaired : Ends p (p.unpaired t) s₁ (p.Paired t) (Blame p resolve addSubtree (.pairing t parents) s) := by
    cases htk : s₁.targetFates.contains t with
    | true => exact htaken htk (unpaired_taken hsound htk)
    | false =>
      exact (unpaired_returns hsound hc (SortedMap.contains_eq_false_iff.1 htk)).ends
  cases found with
  | none => exact hunpaired
  | some found =>
    obtain ⟨i, links⟩ := found
    refine .get_bind ?_
    split
    · exact hunpaired
    · next hfree =>
      simp only [Bool.or_eq_true, not_or, Bool.not_eq_true] at hfree
      have hi := SortedMap.contains_eq_false_iff.1 hfree.2
      obtain ⟨hci, hlinks⟩ := hthere i links rfl
      cases htk : s₁.targetFates.contains t with
      | true => exact htaken htk (settlePair_taken hsound htk hci)
      | false =>
        exact (settlePair_returns hsound hc (SortedMap.contains_eq_false_iff.1 htk) hci hi hlinks).ends

mutual
theorem pair_ends (hp : p.Consistent) (hT : Trusted p resolve addSubtree) : ∀ {t : Track} {s : Progress},
    t.Of p.target → s.Sound p → Ends p (p.pair resolve t) s (p.Paired t.entity)
      (Culprit p resolve addSubtree s fun y s' => ∃ u parents, y = .pairing u parents ∧ p.Pairs resolve t s u parents s')
  | .node id parents, s, hof, hs => by
    rw [pair]
    refine .bind ((pairAll_ends hp hT hof.above hs).mono (fun _ _ h => h) fun h hc => ?_) ?_
    · refine hc.after (.refl s) fun ⟨u, ps, hy, before, c, t, after, out, s₁, heq, hfirst, hpairs⟩ => ⟨u, ps, hy, ?_⟩
      rw [show parents = before ++ (c, t) :: after from heq]
      exact .above hfirst hpairs
    · intro resolved s₁ hresolved hs₁ hthere
      have hsound := hs₁.sound hs
      refine .get_bind ?_
      cases hf : s₁.targetFates.get? id with
      | some f =>
        exact .pure ⟨SortedMap.contains_iff.2 ⟨f, hf⟩, fun j hj => hsound.contains_counterpart hf hj⟩
      | none =>
        cases parents with
        | nil => exact (pairRoot_returns hp hsound hof.contains hf).ends
        | cons l rest =>
          have hopen : (Call.pairing id resolved).Open p s₁ := ⟨hof.contains, hf, hthere⟩
          have hends := pairUnder_ends hp hT hsound hopen
          exact ⟨fun h => hends.ok h, fun h => ⟨.pairing id resolved, s₁,
            ⟨id, resolved, rfl, .here (List.cons_ne_nil _ _) hresolved hf⟩, hs₁, hopen, _, h⟩⟩
theorem pairAll_ends (hp : p.Consistent) (hT : Trusted p resolve addSubtree) : ∀ {l : List (Connection × Track)}
    {s : Progress}, (∀ x ∈ l, x.2.Of p.target) → s.Sound p →
    Ends p (p.pairAll resolve l) s (fun out _ => ∀ r ∈ out, r.There p)
      (Culprit p resolve addSubtree s fun y s' =>
        ∃ u parents, y = .pairing u parents ∧ p.PairsAll resolve l s u parents s')
  | [], s, _, _ => .pure fun _ h => by cases h
  | (c, t) :: rest, s, hof, hs => by
    have hoft : t.Of p.target := hof _ List.mem_cons_self
    rw [pairAll]
    refine .bind ((pair_ends hp hT hoft hs).mono (fun _ _ h => h) fun h hc => ?_) ?_
    · exact hc.after (.refl s) fun ⟨u, ps, hy, hpairs⟩ => ⟨u, ps, hy, [], c, t, rest, [], s, rfl, rfl, hpairs⟩
    · intro counterpart s₁ hcounter hs₁ ⟨_, hthere⟩
      have hof' : ∀ x ∈ rest, x.2.Of p.target := fun x hx => hof x (List.mem_cons_of_mem _ hx)
      refine .bind ((pairAll_ends hp hT hof' (hs₁.sound hs)).mono (fun _ _ h => h) fun h hc => ?_) ?_
      · refine hc.after hs₁ fun ⟨u, ps, hy, before, c', t', after, out, s₂, heq, hfirst, hpairs⟩ => ?_
        refine ⟨u, ps, hy, (c, t) :: before, c', t', after, ⟨c, t.entity, counterpart⟩ :: out, s₂, ?_, ?_, hpairs⟩
        · rw [heq]
          rfl
        · rw [pairAll, bind_of_ok hcounter, bind_of_ok hfirst]
          rfl
      · exact fun resolved s₂ _ _ hrest => .pure (List.forall_mem_cons.2 ⟨⟨hoft.contains, hthere⟩, hrest⟩)
end

theorem classifyTarget_ends (hp : p.Consistent) (hT : Trusted p resolve addSubtree) (hs : s.Sound p)
    (ho : (Call.target t).Open p s) : Ends p (p.classifyTarget resolve t) s
      (fun _ s' => s'.targetFates.contains t = true) (Blame p resolve addSubtree (.target t) s) := by
  obtain ⟨hacc, ht⟩ := ho
  obtain ⟨track, htrack⟩ := Track.ofGraph_total hp.target hacc.contains
  obtain ⟨hof, hentity⟩ := Track.ofGraph_of htrack
  refine .get_bind ?_
  simp only [SortedMap.contains_eq_false_iff.2 ht, Bool.false_eq_true, if_false]
  refine .bind_look (track_ok_iff.2 ⟨htrack, rfl⟩) (.bind ((pair_ends hp hT hof hs).mono (fun _ _ h => h) fun h hc => ?_)
    fun _ _ _ _ hpaired => .pure (hentity ▸ hpaired.1))
  exact .inl (hc.after (.refl s) fun ⟨u, ps, hy, hpairs⟩ => hy ▸ .pairing ht htrack hpairs)

/-! ## Roots and additions -/

theorem resolveRootWith_ends (hp : p.Consistent) (hT : Trusted p resolve addSubtree) (hs : s.Sound p)
    (ho : (Call.root i).Open p s) : Ends p (p.resolveRootWith resolve addSubtree i) s (p.Placed i)
      (Blame p resolve addSubtree (.root i) s) := by
  obtain ⟨hc, hi⟩ := ho
  obtain ⟨data, hd⟩ := Graph.exists_entity hc
  refine .bind_look (lookup_run hd s) (.bind (findRoot_returns hp hs hd).ends ?_)
  intro found s₁ hfound hs₁ ⟨hft, hfi, hthere⟩
  have hsound := hs₁.sound hs
  have hi₁ : s₁.incomingFates.get? i = none := by rw [hfi, hi]
  cases found with
  | none =>
    obtain ⟨accepted, hacc⟩ := exists_incomingIs hc
    refine .bind_look (acceptsIncoming_run hacc s₁) ?_
    cases accepted with
    | true =>
      have hopen : (Call.add none i).Open p s₁ := ⟨hacc, hi₁, thereAll_none⟩
      have hadd : Ends p (addSubtree none i) s₁ (fun _ s' => s'.incomingFates.contains i = true)
          (Blame p resolve addSubtree (.root i) s) :=
        ⟨fun h => hT.add hsound hopen h, fun h => .inl ⟨.add none i, s₁, .copy hd hfound hacc, hs₁, hopen, _, h⟩⟩
      exact hadd.bind fun _ _ _ _ hcl => .pure ⟨hcl, fun q hq => Option.some.inj hq ▸ hc⟩
    | false =>
      exact (lose_returns hc hi₁).ends.bind fun _ _ _ _ hcl => .pure ⟨hcl, fun q hq => by cases hq⟩
  | some t =>
    have hct := hthere t rfl
    obtain ⟨accepted, hacc⟩ := exists_targetIs hct
    refine .get_bind (.bind_look (acceptsTarget_run hacc s₁) ?_)
    dsimp only
    split
    · next hcond =>
      obtain ⟨hfree, rfl⟩ : s₁.targetFates.contains t = false ∧ accepted = true := by simpa using hcond
      have ht := SortedMap.contains_eq_false_iff.1 hfree
      have hopen : (Call.target t).Open p s₁ := ⟨hacc, ht⟩
      have hends := classifyTarget_ends hp hT hsound hopen
      -- the target entity is classified first, and may be to blame
      have hclassify : Ends p (p.classifyTarget resolve t) s₁ (fun _ s' => s'.targetFates.contains t = true)
          (Blame p resolve addSubtree (.root i) s) :=
        ⟨fun h => hends.ok h, fun h => .inl ⟨.target t, s₁, .target hd hfound ht hacc, hs₁, hopen, _, h⟩⟩
      exact hclassify.bind fun _ s₂ _ hs₂ hcl => (settleRoot_returns (hs₂.sound hsound) hc (.inl hcl)).ends
    · next hcond =>
      refine (settleRoot_returns hsound hc ?_).ends
      cases hcl : s₁.targetFates.contains t with
      | true => exact .inl rfl
      | false =>
        have hrej : accepted = false := by simpa [hcl] using hcond
        exact .inr ⟨hrej ▸ hacc, hi₁⟩

theorem addChild_ends (hp : p.Consistent) (hT : Trusted p resolve addSubtree) (hs : s.Sound p)
    (hc : p.incoming.contains i = true) {l : Link} (hl : p.incoming.contains l.2 = true) :
    Ends p (p.addChild resolve addSubtree i l) s (fun _ _ => True)
      (Culprit p resolve addSubtree s (p.EntersChild resolve i l s)) := by
  obtain ⟨accepted, hacc⟩ := exists_incomingIs hl
  obtain ⟨track, htrack⟩ := Track.ofGraph_total hp.incoming hl
  obtain ⟨hof, hentity⟩ := Track.ofGraph_of htrack
  refine .get_bind ?_
  split
  · exact .pure trivial
  next hfree =>
  have hi := SortedMap.contains_eq_false_iff.1 (Bool.eq_false_iff.2 hfree)
  refine .bind_look (acceptsIncoming_run hacc s) ?_
  cases accepted with
  | false => exact (lose_returns hl hi).ends.mono (fun _ _ _ => trivial) fun _ h => h
  | true =>
    refine .bind_look (track_ok_iff.2 ⟨htrack, rfl⟩) (.bind ((locate_ends hT hof hs).mono (fun _ _ h => h) ?_) ?_)
    · exact fun h hc => hc.after (.refl s) fun ⟨r, hr, hasks⟩ => hr ▸ .root hi hacc htrack hasks
    intro place s₁ hplace hs₁ ⟨hset, _⟩
    have hsound := hs₁.sound hs
    -- after the other parents are located, locating them for their links decides nothing
    have hcopy : (∀ u, place ≠ some (.target u)) →
        Ends p (p.copyChild resolve addSubtree i l track.parents) s₁ (fun _ _ => True)
          (Culprit p resolve addSubtree s (p.EntersChild resolve i l s)) := by
      intro hplace'
      refine .get_bind ?_
      split
      · exact .pure trivial
      next hfree₁ =>
      have hi₁ := SortedMap.contains_eq_false_iff.1 (Bool.eq_false_iff.2 hfree₁)
      have hset' : ∀ x ∈ track.parents, Settled s₁ x.2 := by
        cases hset with
        | fate hcl =>
          simp only [Track.entity] at hentity
          rw [hentity] at hcl
          exact absurd hcl hfree₁
        | parents _ hset => exact hset
      have hfirst : ∀ x ∈ PlannedLinks.link [] l.1 (.added i), x.2.There p := there_link (fun _ h => by cases h) hc
      obtain ⟨links, hlinks, hthere⟩ := locateAll_look
        (fun x hx => hset' x (List.mem_of_mem_filter hx)) (fun x hx => hof.above x (List.mem_of_mem_filter hx)) hfirst
        hsound
      have hopen : (Call.add (some links) l.2).Open p s₁ := ⟨hacc, hi₁, hthere⟩
      exact .bind_look hlinks ⟨fun h => ⟨(hT.add hsound hopen h).1, trivial⟩, fun h =>
        ⟨.add (some links) l.2, s₁, .copy hi hacc htrack hplace hplace' hi₁ hlinks, hs₁, hopen, _, h⟩⟩
    cases place with
    | none => exact hcopy fun u h => by cases h
    | some q =>
      cases q with
      | target u => exact .pure trivial
      | added j => exact hcopy fun u h => by cases h

theorem addSubtreeWith_ends (hp : p.Consistent) (hT : Trusted p resolve addSubtree) (hs : s.Sound p)
    (ho : (Call.add links i).Open p s) : Ends p (p.addSubtreeWith resolve addSubtree links i) s
      (fun _ s' => s'.incomingFates.contains i = true) (Blame p resolve addSubtree (.add links i) s) := by
  have hadded : Steps p s ((s.addition ⟨links, i⟩).setIncoming i .added) := ho.begun
  obtain ⟨hacc, hi, -⟩ := ho
  have hc := hacc.contains
  refine .get_bind ?_
  rw [hi]
  refine .bind_ok (a := ()) (add_ok_iff.2 ⟨hi, rfl⟩) hadded ?_
  refine .bind_look (lookup_run (Graph.children_eq hc) _) ?_
  have hloop := Ends.forM (I := Sound p) (D := fun _ _ => True) Steps.sound (fun _ h => h) (hadded.sound hs)
    fun l (hl : l ∈ p.incoming.childLinks i) s hs => addChild_ends hp hT hs hc (Graph.contains_of_mem_childLinks hl)
  refine ⟨fun hok => ?_, fun herr => ?_⟩
  · obtain ⟨hsteps, -⟩ := hloop.ok hok
    exact ⟨hsteps, hsteps.incomingClassified classified_setIncoming⟩
  · obtain ⟨before, l, after, s₁, heq, hfirst, hs₁, -, hc'⟩ := hloop.error herr
    have hchildren := Graph.children_eq hc
    rw [heq] at hchildren
    exact .inl (hc'.after hs₁ fun henters => .child hi hchildren hfirst henters)

/-! ## With fuel -/

/-- **With every amount of fuel roots and additions keep what they promise.** -/
theorem trusted (hp : p.Consistent) : ∀ fuel : Nat, Trusted p (p.resolveRoot fuel) (p.addSubtree fuel)
  | 0 => ⟨fun _ _ h => (by cases h), fun _ _ h => (by cases h)⟩
  | fuel + 1 =>
    ⟨fun hs ho h => (resolveRootWith_ends hp (trusted hp fuel) hs ho).ok h,
     fun hs ho h => (addSubtreeWith_ends hp (trusted hp fuel) hs ho).ok h⟩

end Pass

/-- A call halts when it is given some fuel. -/
def Call.HaltsIn (p : Pass) (fuel : Nat) (s : Progress) (h : Halt) (x : Call) : Prop :=
  x.Halts p (p.resolveRoot fuel) (p.addSubtree fuel) s h

/-- The fuel that a call takes for itself. -/
def Call.cost : Call → Nat
  | .target _ | .pairing _ _ => 0
  | .root _ | .add _ _ => 1

/-- **A call halts for a reason**: a call that it enters halts with the fuel that is left, or it is a pairing whose entity
was overtaken. -/
theorem Call.HaltsIn.blame {p : Pass} {fuel : Nat} {s : Progress} {h : Halt} {x : Call} (hp : p.Consistent)
    (hs : s.Sound p) (ho : x.Open p s) (hx : x.HaltsIn p (fuel + x.cost) s h) :
    Blame p (p.resolveRoot fuel) (p.addSubtree fuel) x s h := by
  have hT := trusted hp fuel
  cases x with
  | target t =>
    obtain ⟨s', herr⟩ := hx
    exact (classifyTarget_ends hp hT hs ho).error herr
  | pairing t parents =>
    obtain ⟨s', herr⟩ := hx
    exact (pairUnder_ends hp hT hs ho).error herr
  | root r =>
    obtain ⟨s', herr⟩ := hx
    exact (resolveRootWith_ends hp hT hs ho).error herr
  | add links i =>
    obtain ⟨s', herr⟩ := hx
    exact (addSubtreeWith_ends hp hT hs ho).error herr

end Reconciliation
