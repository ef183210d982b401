import Reconciliation.Proofs.Outcomes
/-!
# The calls inside a call

Four kinds of calls make up the recursion of planning: a target entity is classified, a target entity with parents is
paired once those are decided about, an incoming root is resolved, an incoming entity is added.  This module says which
calls a call enters, and in which state (`Enters`).  Roots and additions come in as arguments `resolve` and `addSubtree`
again, so that it says so for every amount of fuel.

A call that halts does so because of a call that it enters, with one exception (`Overtaken`): a target entity that was
classified while its own pairing looked for places.
-/
namespace Reconciliation

open Progress Planning

/-- **A call of the recursion.** -/
inductive Call
  | target (id : EntityId)
  | pairing (id : EntityId) (parents : List ResolvedParent)
  | root (id : EntityId)
  | add (links : Option PlannedLinks) (id : EntityId)

/-- What holds when a call is made: it is about an entity that is there and has no fate. -/
def Call.Open (p : Pass) (s : Progress) : Call → Prop
  | .target id => p.TargetIs true id ∧ s.targetFates.get? id = none
  | .pairing id parents => p.target.contains id = true ∧ s.targetFates.get? id = none ∧ ∀ r ∈ parents, r.There p
  | .root id => p.incoming.contains id = true ∧ s.incomingFates.get? id = none
  | .add links id => p.IncomingIs true id ∧ s.incomingFates.get? id = none ∧ ThereAll p links

/-- The state in which a call makes the calls it enters: an addition is written down before. -/
def Call.begun (s : Progress) : Call → Progress
  | .target _ | .pairing _ _ | .root _ => s
  | .add links id => (s.addition ⟨links, id⟩).setIncoming id .added

theorem Call.Open.begun {p : Pass} {s : Progress} {x : Call} (ho : x.Open p s) : Steps p s (x.begun s) := by
  cases x with
  | add links i => exact (Step.add ho.2.1 ho.1 ho.2.2).steps
  | target | pairing | root => exact .refl s

/-- An addition writes something down before it makes calls. -/
theorem Call.Open.weight_begun {p : Pass} {s : Progress} {links : Option PlannedLinks} {i : EntityId}
    (ho : (Call.add links i).Open p s) : s.weight < ((Call.add links i).begun s).weight := by
  rcases ho.begun.weight with heq | hlt
  · have hi : ((Call.add links i).begun s).incomingFates.get? i = some .added := SortedMap.get?_insert_self _ _ _
    rw [heq, ho.2.1] at hi
    cases hi
  · exact hlt

def Call.Halts (p : Pass) (resolve : Resolver) (addSubtree : Adder) (s : Progress) (h : Halt) : Call → Prop
  | .target id => ∃ s', p.classifyTarget resolve id s = .error h s'
  | .pairing id parents => ∃ s', p.pairUnder resolve id parents s = .error h s'
  | .root id => ∃ s', resolve id s = .error h s'
  | .add links id => ∃ s', addSubtree links id s = .error h s'

namespace Pass

/-! ## Which calls are entered -/

/-- Locating an entity resolves a root. -/
inductive Asks (p : Pass) (resolve : Resolver) : Track → Progress → EntityId → Progress → Prop
  | root {id : EntityId} {s : Progress} (free : s.incomingFates.get? id = none) : Asks p resolve (.node id []) s id s
  | parent {id r : EntityId} {before after : List (Connection × Track)} {c : Connection} {t : Track} {s s₁ s' : Progress}
    {links : PlannedLinks} (free : s.incomingFates.get? id = none)
    (first : p.locateAll resolve [] before s = .ok links s₁) (asks : Asks p resolve t s₁ r s') :
    Asks p resolve (.node id (before ++ (c, t) :: after)) s r s'

/-- Locating some parents resolves a root. -/
def AsksAll (p : Pass) (resolve : Resolver) (links : PlannedLinks) (parents : List (Connection × Track)) (s : Progress)
    (r : EntityId) (s' : Progress) : Prop :=
  ∃ before c t after links' s₁, parents = before ++ (c, t) :: after ∧
    p.locateAll resolve links before s = .ok links' s₁ ∧ p.Asks resolve t s₁ r s'

/-- Pairing an entity pairs an ancestor, or the entity itself after its ancestors. -/
inductive Pairs (p : Pass) (resolve : Resolver) : Track → Progress → EntityId → List ResolvedParent → Progress → Prop
  | here {id : EntityId} {parents : List (Connection × Track)} {s s' : Progress} {resolved : List ResolvedParent}
    (some : parents ≠ []) (first : p.pairAll resolve parents s = .ok resolved s')
    (free : s'.targetFates.get? id = none) : Pairs p resolve (.node id parents) s id resolved s'
  | above {id u : EntityId} {before after : List (Connection × Track)} {c : Connection} {t : Track}
    {s s₁ s' : Progress} {resolved parents : List ResolvedParent}
    (first : p.pairAll resolve before s = .ok resolved s₁) (pairs : Pairs p resolve t s₁ u parents s') :
    Pairs p resolve (.node id (before ++ (c, t) :: after)) s u parents s'

/-- Pairing some parents pairs one of them or an ancestor. -/
def PairsAll (p : Pass) (resolve : Resolver) (l : List (Connection × Track)) (s : Progress) (u : EntityId)
    (parents : List ResolvedParent) (s' : Progress) : Prop :=
  ∃ before c t after resolved s₁, l = before ++ (c, t) :: after ∧ p.pairAll resolve before s = .ok resolved s₁ ∧
    p.Pairs resolve t s₁ u parents s'

/-- Deciding about the child `l` of the added entity `i` resolves a root, or adds the child. -/
inductive EntersChild (p : Pass) (resolve : Resolver) (i : EntityId) (l : Link) : Progress → Call → Progress → Prop
  | root {r : EntityId} {t : Track} {s s' : Progress} (free : s.incomingFates.get? l.2 = none)
    (accepted : p.IncomingIs true l.2) (track : Track.ofGraph p.incoming l.2 = .ok t)
    (asks : p.Asks resolve t s r s') : EntersChild p resolve i l s (.root r) s'
  | copy {links : PlannedLinks} {t : Track} {place : Option PlannedParent} {s s₁ s' : Progress}
    (free : s.incomingFates.get? l.2 = none) (accepted : p.IncomingIs true l.2)
    (track : Track.ofGraph p.incoming l.2 = .ok t) (located : p.locate resolve t s = .ok place s₁)
    (noTarget : ∀ u, place ≠ some (.target u)) (stillFree : s₁.incomingFates.get? l.2 = none)
    (others : p.locateAll resolve (PlannedLinks.link [] l.1 (.added i)) (t.parents.filter fun x => x.2.entity ≠ i) s₁ =
      .ok links s') : EntersChild p resolve i l s (.add (some links) l.2) s'

/-- **A call enters another one**, the first in the state `s` and the other in the state `s'`. -/
inductive Enters (p : Pass) (resolve : Resolver) (addSubtree : Adder) : Call → Progress → Call → Progress → Prop
  | pairing {id u : EntityId} {t : Track} {parents : List ResolvedParent} {s s' : Progress}
    (free : s.targetFates.get? id = none) (track : Track.ofGraph p.target id = .ok t)
    (pairs : p.Pairs resolve t s u parents s') : Enters p resolve addSubtree (.target id) s (.pairing u parents) s'
  | place {id i r : EntityId} {data : Entity} {parents later : List ResolvedParent} {parent : ResolvedParent}
    {links : PlannedLinks} {t : Track} {s s' : Progress} (entity : p.target.entity id = .ok data)
    (hit : p.firstHit data parents s = .ok (some (i, parent, later)) s)
    (linked : p.linkLater i (PlannedLinks.link [] parent.connection (.target parent.target)) later s = .ok links s)
    (track : Track.ofGraph p.incoming i = .ok t) (asks : p.AsksAll resolve links t.parents s r s') :
    Enters p resolve addSubtree (.pairing id parents) s (.root r) s'
  | copy {r : EntityId} {data : Entity} {s s' : Progress} (entity : p.incoming.entity r = .ok data)
    (found : p.findRoot data s = .ok none s') (accepted : p.IncomingIs true r) :
    Enters p resolve addSubtree (.root r) s (.add none r) s'
  | target {r t : EntityId} {data : Entity} {s s' : Progress} (entity : p.incoming.entity r = .ok data)
    (found : p.findRoot data s = .ok (some t) s') (free : s'.targetFates.get? t = none)
    (accepted : p.TargetIs true t) : Enters p resolve addSubtree (.root r) s (.target t) s'
  | child {i : EntityId} {links : Option PlannedLinks} {before after : List Link} {l : Link} {y : Call}
    {s s₁ s' : Progress} (free : s.incomingFates.get? i = none)
    (children : p.incoming.children i = .ok (before ++ l :: after))
    (first : before.forM (p.addChild resolve addSubtree i) ((s.addition ⟨links, i⟩).setIncoming i .added) = .ok () s₁)
    (enters : p.EntersChild resolve i l s₁ y s') : Enters p resolve addSubtree (.add links i) s y s'

/-- A target entity is classified while its own pairing looks for the places of its counterpart. -/
def Overtaken (p : Pass) (resolve : Resolver) (id : EntityId) (parents : List ResolvedParent) (s : Progress) : Prop :=
  ∃ data found s', p.target.entity id = .ok data ∧ p.findPair resolve data parents s = .ok found s' ∧
    s'.targetFates.contains id = true

/-! ## Who is to blame when a call halts -/

/-- A call made on the way halts. -/
def Culprit (p : Pass) (resolve : Resolver) (addSubtree : Adder) (s : Progress) (made : Call → Progress → Prop)
    (h : Halt) : Prop :=
  ∃ y s', made y s' ∧ Steps p s s' ∧ y.Open p s' ∧ y.Halts p resolve addSubtree s' h

/-- **Roots and additions keep what they promise**: they lead by steps to a state in which their entity has a fate. -/
structure Trusted (p : Pass) (resolve : Resolver) (addSubtree : Adder) : Prop where
  root : ∀ {r s q s'}, s.Sound p → (Call.root r).Open p s → resolve r s = .ok q s' →
    Steps p s s' ∧ p.Placed r q s'
  add : ∀ {links i s u s'}, s.Sound p → (Call.add links i).Open p s → addSubtree links i s = .ok u s' →
    Steps p s s' ∧ s'.incomingFates.contains i = true

/-- A decision about a target entity that has a fate is refused. -/
def Taken (t : EntityId) (h : Halt) : Prop :=
  h = .failed (.scheduledTwice t) ∨ ∃ f g, h = .failed (.targetClassifiedTwice t f g)

/-- **Why a call halts**: because of a call that it enters, or because its entity was overtaken. -/
def Blame (p : Pass) (resolve : Resolver) (addSubtree : Adder) (x : Call) (s : Progress) (h : Halt) : Prop :=
  Culprit p resolve addSubtree (x.begun s) (Enters p resolve addSubtree x s) h ∨
    ∃ t parents, x = .pairing t parents ∧ Overtaken p resolve t parents s ∧ Taken t h

variable {p : Pass} {resolve : Resolver} {addSubtree : Adder} {s s₁ s' : Progress} {h : Halt}
  {made made₁ : Call → Progress → Prop}

theorem Culprit.after (hs : Steps p s s₁) (hm : ∀ {y s'}, made₁ y s' → made y s')
    (hc : Culprit p resolve addSubtree s₁ made₁ h) : Culprit p resolve addSubtree s made h :=
  let ⟨y, s', hy, hs', ho, hh⟩ := hc
  ⟨y, s', hm hy, hs.trans hs', ho, hh⟩

/-- A track whose roots all have fates, as far as one has to go up. -/
inductive Settled (s : Progress) : Track → Prop
  | fate {id : EntityId} {parents : List (Connection × Track)} (classified : s.incomingFates.contains id = true) :
    Settled s (.node id parents)
  | parents {id : EntityId} {parents : List (Connection × Track)} (some : parents ≠ [])
    (settled : ∀ l ∈ parents, Settled s l.2) : Settled s (.node id parents)

theorem Settled.after {t : Track} (h : Settled s t) (hs : Steps p s s') : Settled s' t := by
  induction h with
  | fate hcl => exact .fate (hs.incomingClassified hcl)
  | parents hne _ ih => exact .parents hne ih

/-! ## Locating -/

mutual
/-- Locating an entity halts only when a root does. -/
theorem locate_ends (hT : Trusted p resolve addSubtree) : ∀ {t : Track} {s : Progress}, t.Of p.incoming → s.Sound p →
    Ends p (p.locate resolve t) s (fun q s' => Settled s' t ∧ ∀ q', q = some q' → q'.There p)
      (Culprit p resolve addSubtree s fun y s' => ∃ r, y = .root r ∧ p.Asks resolve t s r s')
  | .node id parents, s, hof, hs => by
    rw [locate]
    refine .get_bind ?_
    cases hf : s.incomingFates.get? id with
    | some f => exact .pure ⟨.fate (SortedMap.contains_iff.2 ⟨f, hf⟩), there_asParent hs hf⟩
    | none =>
      cases parents with
      | nil =>
        have hopen : (Call.root id).Open p s := ⟨hof.contains, hf⟩
        exact {
          ok := fun h =>
            let ⟨hs', hcl, hq⟩ := hT.root hs hopen h
            ⟨hs', .fate hcl, hq⟩
          error := fun h => ⟨.root id, s, ⟨id, rfl, .root hf⟩, .refl s, hopen, _, h⟩ }
      | cons l rest =>
        refine .bind ((locateAll_ends hT hof.above (fun _ h => by cases h) hs).mono (fun _ _ h => h) ?_) ?_
        · intro h hc
          refine hc.after (.refl s) fun ⟨r, hr, before, c, t, after, links, s₁, heq, hfirst, hasks⟩ => ⟨r, hr, ?_⟩
          rw [show l :: rest = before ++ (c, t) :: after from heq]
          exact .parent hf hfirst hasks
        · intro links s₁ _ hs₁ ⟨hset, hlinks⟩
          refine .get_bind ?_
          cases hf₁ : s₁.incomingFates.get? id with
          | some f => exact .pure ⟨.fate (SortedMap.contains_iff.2 ⟨f, hf₁⟩), there_asParent (hs₁.sound hs) hf₁⟩
          | none =>
            obtain ⟨q, hq, hthere⟩ := locateUnder_look hof.contains hlinks
            exact .of_ok hq (.refl s₁) ⟨.parents (List.cons_ne_nil _ _) hset, hthere⟩
theorem locateAll_ends (hT : Trusted p resolve addSubtree) : ∀ {l : List (Connection × Track)} {links : PlannedLinks}
    {s : Progress}, (∀ x ∈ l, x.2.Of p.incoming) → (∀ x ∈ links, x.2.There p) → s.Sound p →
    Ends p (p.locateAll resolve links l) s
      (fun links' s' => (∀ x ∈ l, Settled s' x.2) ∧ ∀ x ∈ links', x.2.There p)
      (Culprit p resolve addSubtree s fun y s' => ∃ r, y = .root r ∧ p.AsksAll resolve links l s r s')
  | [], links, s, _, hl, _ => .pure ⟨fun _ h => (by cases h), hl⟩
  | (c, t) :: rest, links, s, hof, hl, hs => by
    rw [locateAll]
    refine .bind ((locate_ends hT (hof _ List.mem_cons_self) hs).mono (fun _ _ h => h) ?_) ?_
    · exact fun h hc => hc.after (.refl s) fun ⟨r, hr, hasks⟩ => ⟨r, hr, [], c, t, rest, links, s, rfl, rfl, hasks⟩
    · intro q s₁ hq hs₁ ⟨hset, hthere⟩
      have hrest : ∀ {links' : PlannedLinks}, (∀ x ∈ links', x.2.There p) →
          (∀ before, p.locateAll resolve links ((c, t) :: before) s = p.locateAll resolve links' before s₁) →
          Ends p (p.locateAll resolve links' rest) s₁
            (fun links' s' => (∀ x ∈ (c, t) :: rest, Settled s' x.2) ∧ ∀ x ∈ links', x.2.There p)
            (Culprit p resolve addSubtree s
              fun y s' => ∃ r, y = .root r ∧ p.AsksAll resolve links ((c, t) :: rest) s r s') := by
        intro links' hl' hrun
        have hends := locateAll_ends hT (fun x hx => hof x (List.mem_cons_of_mem _ hx)) hl' (hs₁.sound hs)
        refine ⟨fun hok => ?_, fun herr => ?_⟩
        · obtain ⟨hs₂, hset', hthere'⟩ := hends.ok hok
          exact ⟨hs₂, List.forall_mem_cons.2 ⟨hset.after hs₂, hset'⟩, hthere'⟩
        · refine (hends.error herr).after hs₁ fun ⟨r, hr, before, c', t', after, out, s₂, heq, hfirst, hasks⟩ => ?_
          exact ⟨r, hr, (c, t) :: before, c', t', after, out, s₂, by rw [heq]; rfl, by rw [hrun, hfirst], hasks⟩
      cases q with
      | none => exact hrest hl fun before => by rw [locateAll, bind_of_ok hq]
      | some q =>
        exact hrest (there_link hl (hthere q rfl)) fun before => by rw [locateAll, bind_of_ok hq]
end

mutual
theorem locate_look : ∀ {t : Track}, Settled s t → t.Of p.incoming → s.Sound p →
    ∃ q, p.locate resolve t s = .ok q s ∧ ∀ q', q = some q' → q'.There p
  | .node id parents, hset, hof, hs => by
    rw [locate, get_bind]
    cases hf : s.incomingFates.get? id with
    | some f => exact ⟨_, rfl, there_asParent hs hf⟩
    | none =>
      cases hset with
      | fate hcl =>
        rw [SortedMap.contains_eq_false_iff.2 hf] at hcl
        cases hcl
      | parents hne hset =>
        have hnone : ∀ x ∈ ([] : PlannedLinks), x.2.There p := fun _ h => by cases h
        obtain ⟨links, hlinks, hthere⟩ := locateAll_look hset hof.above hnone hs
        obtain ⟨q, hq, hqthere⟩ := locateUnder_look (s := s) hof.contains hthere
        refine ⟨q, ?_, hqthere⟩
        cases parents with
        | nil => exact absurd rfl hne
        | cons l rest =>
          simp only [List.isEmpty_cons, Bool.false_eq_true, if_false]
          rw [bind_of_ok hlinks, get_bind, hf]
          exact hq
theorem locateAll_look : ∀ {l : List (Connection × Track)} {links : PlannedLinks}, (∀ x ∈ l, Settled s x.2) →
    (∀ x ∈ l, x.2.Of p.incoming) → (∀ x ∈ links, x.2.There p) → s.Sound p →
    ∃ links', p.locateAll resolve links l s = .ok links' s ∧ ∀ x ∈ links', x.2.There p
  | [], links, _, _, hl, _ => ⟨links, rfl, hl⟩
  | (c, t) :: rest, links, hset, hof, hl, hs => by
    obtain ⟨q, hq, hthere⟩ := locate_look (hset _ List.mem_cons_self) (hof _ List.mem_cons_self) hs
    have hset' : ∀ x ∈ rest, Settled s x.2 := fun x hx => hset x (List.mem_cons_of_mem _ hx)
    have hof' : ∀ x ∈ rest, x.2.Of p.incoming := fun x hx => hof x (List.mem_cons_of_mem _ hx)
    rw [locateAll, bind_of_ok hq]
    cases q with
    | none => exact locateAll_look hset' hof' hl hs
    | some q => exact locateAll_look hset' hof' (there_link hl (hthere q rfl)) hs
end

end Pass
end Reconciliation
