import Reconciliation.Proofs.Blame
/-!
# More fuel

A computation is below another one when it does the same or runs out of fuel (`Below`).  Roots and additions with less
fuel are below those with more, and so is everything made of them.  Hence what comes out with some amount of fuel comes
out with any other amount, or that amount is smaller and runs out (`follow`).
-/
namespace Reconciliation

open Progress Planning Pass

/-- A computation stops without a result. -/
def Planning.HaltsWith {α : Type} (x : Planning α) (s : Progress) (h : Halt) : Prop := ∃ s', x s = .error h s'

/-- A computation runs out of fuel. -/
abbrev Planning.Hangs {α : Type} (x : Planning α) (s : Progress) : Prop := x.HaltsWith s .outOfFuel

/-- **One computation does the same as another, unless it runs out of fuel.** -/
def Planning.Below {α : Type} (x y : Planning α) : Prop := ∀ s, x.Hangs s ∨ x s = y s

namespace Planning

variable {α β : Type} {x y : Planning α} {f g : α → Planning β}

theorem HaltsWith.bind {s : Progress} {h : Halt} (hx : x.HaltsWith s h) : (x >>= f).HaltsWith s h := by
  obtain ⟨s', hx⟩ := hx
  exact ⟨s', bind_of_error hx⟩

theorem HaltsWith.after {s s₁ : Progress} {h : Halt} {a : α} (hx : x s = .ok a s₁) (hf : (f a).HaltsWith s₁ h) :
    (x >>= f).HaltsWith s h := by
  obtain ⟨s', hf⟩ := hf
  exact ⟨s', by rw [bind_of_ok hx, hf]⟩

theorem forM_halts {γ : Type} {l after : List γ} {a : γ} {f : γ → Planning PUnit} {s s₁ : Progress} {h : Halt}
    (hl : l.forM f s = .ok () s₁) (ha : (f a).HaltsWith s₁ h) : ((l ++ a :: after).forM f).HaltsWith s h := by
  have hrest : ((a :: after).forM f).HaltsWith s₁ h := ha.bind
  obtain ⟨s', hrest⟩ := hrest
  exact ⟨s', by rw [forM_append_of_ok hl, hrest]⟩

theorem forM_append_halts {γ : Type} {l after : List γ} {f : γ → Planning PUnit} {s : Progress} {h : Halt}
    (hl : (l.forM f).HaltsWith s h) : ((l ++ after).forM f).HaltsWith s h := by
  obtain ⟨s', hl⟩ := hl
  obtain ⟨l₁, a, l₂, s₁, rfl, hfirst, ha⟩ := forM_error hl
  rw [List.append_assoc]
  exact forM_halts hfirst ⟨s', ha⟩

theorem Below.refl (x : Planning α) : Below x x := fun _ => .inr rfl

theorem Below.bind (hx : Below x y) (hf : ∀ a, Below (f a) (g a)) : Below (x >>= f) (y >>= g) := by
  intro s
  rcases hx s with hang | heq
  · exact .inl hang.bind
  cases hy : y s with
  | error e s' =>
    right
    rw [bind_of_error hy, bind_of_error (heq.trans hy)]
  | ok a s' =>
    rcases hf a s' with ⟨s₁, hang⟩ | heq'
    · exact .inl ⟨s₁, by rw [bind_of_ok (heq.trans hy), hang]⟩
    · right
      rw [bind_of_ok hy, bind_of_ok (heq.trans hy), heq']

theorem Below.after (x : Planning α) (hf : ∀ a, Below (f a) (g a)) : Below (x >>= f) (x >>= g) := (Below.refl x).bind hf

theorem Below.forM {γ : Type} {f g : γ → Planning PUnit} : ∀ {l : List γ}, (∀ a, Below (f a) (g a)) →
    Below (l.forM f) (l.forM g)
  | [], _ => .refl _
  | a :: l, h => (h a).bind fun _ => Below.forM (l := l) h

end Planning

namespace Pass

variable {p : Pass} {resolve resolve' : Resolver} {addSubtree addSubtree' : Adder}

mutual
theorem locate_below (hR : ∀ i, Below (resolve i) (resolve' i)) : ∀ t : Track,
    Below (p.locate resolve t) (p.locate resolve' t)
  | .node id parents => by
    rw [locate, locate]
    refine .after _ fun s => ?_
    split
    · exact .refl _
    split
    · exact hR id
    · exact (locateAll_below hR _ parents).bind fun _ => .refl _
theorem locateAll_below (hR : ∀ i, Below (resolve i) (resolve' i)) : ∀ (links : PlannedLinks)
    (l : List (Connection × Track)), Below (p.locateAll resolve links l) (p.locateAll resolve' links l)
  | links, [] => by
    rw [locateAll, locateAll]
    exact .refl _
  | links, (c, t) :: rest => by
    rw [locateAll, locateAll]
    refine (locate_below hR t).bind fun q => ?_
    cases q with
    | none => exact locateAll_below hR links rest
    | some q => exact locateAll_below hR (links.link c q) rest
end

theorem findPair_below (hR : ∀ i, Below (resolve i) (resolve' i)) (data : Entity) (parents : List ResolvedParent) :
    Below (p.findPair resolve data parents) (p.findPair resolve' data parents) := by
  refine .after _ fun hit => ?_
  cases hit with
  | none => exact .refl _
  | some hit =>
    refine .after _ fun links => .after _ fun track => ?_
    exact (locateAll_below hR links track.parents).bind fun _ => .refl _

theorem pairUnder_below (hR : ∀ i, Below (resolve i) (resolve' i)) (t : EntityId) (parents : List ResolvedParent) :
    Below (p.pairUnder resolve t parents) (p.pairUnder resolve' t parents) :=
  .after _ fun data => (findPair_below hR data parents).bind fun _ => .refl _

mutual
theorem pair_below (hR : ∀ i, Below (resolve i) (resolve' i)) : ∀ t : Track,
    Below (p.pair resolve t) (p.pair resolve' t)
  | .node id parents => by
    rw [pair, pair]
    refine (pairAll_below hR parents).bind fun resolved => .after _ fun s => ?_
    split
    · exact .refl _
    split
    · exact .refl _
    · exact pairUnder_below hR id resolved
theorem pairAll_below (hR : ∀ i, Below (resolve i) (resolve' i)) : ∀ l : List (Connection × Track),
    Below (p.pairAll resolve l) (p.pairAll resolve' l)
  | [] => by
    rw [pairAll, pairAll]
    exact .refl _
  | (c, t) :: rest => by
    rw [pairAll, pairAll]
    exact (pair_below hR t).bind fun _ => (pairAll_below hR rest).bind fun _ => .refl _
end

theorem classifyTarget_below (hR : ∀ i, Below (resolve i) (resolve' i)) (t : EntityId) :
    Below (p.classifyTarget resolve t) (p.classifyTarget resolve' t) := by
  refine .after _ fun s => ?_
  split
  · exact .refl _
  · exact .after _ fun track => (pair_below hR track).bind fun _ => .refl _

theorem resolveRootWith_below (hR : ∀ i, Below (resolve i) (resolve' i))
    (hA : ∀ links i, Below (addSubtree links i) (addSubtree' links i)) (i : EntityId) :
    Below (p.resolveRootWith resolve addSubtree i) (p.resolveRootWith resolve' addSubtree' i) := by
  refine .after _ fun data => .after _ fun found => ?_
  cases found with
  | none =>
    refine .after _ fun accepted => ?_
    cases accepted with
    | true => exact (hA none i).bind fun _ => .refl _
    | false => exact .refl _
  | some t =>
    refine .after _ fun s => .after _ fun accepted => ?_
    dsimp only
    split
    · exact (classifyTarget_below hR t).bind fun _ => .refl _
    · exact .refl _

theorem copyChild_below (hR : ∀ i, Below (resolve i) (resolve' i))
    (hA : ∀ links i, Below (addSubtree links i) (addSubtree' links i)) (i : EntityId) (l : Link)
    (parents : List (Connection × Track)) :
    Below (p.copyChild resolve addSubtree i l parents) (p.copyChild resolve' addSubtree' i l parents) := by
  refine .after _ fun s => ?_
  split
  · exact .refl _
  · exact (locateAll_below hR _ _).bind fun links => hA (some links) l.2

theorem addChild_below (hR : ∀ i, Below (resolve i) (resolve' i))
    (hA : ∀ links i, Below (addSubtree links i) (addSubtree' links i)) (i : EntityId) (l : Link) :
    Below (p.addChild resolve addSubtree i l) (p.addChild resolve' addSubtree' i l) := by
  refine .after _ fun s => ?_
  split
  · exact .refl _
  refine .after _ fun accepted => ?_
  cases accepted with
  | false => exact .refl _
  | true =>
    refine .after _ fun track => (locate_below hR track).bind fun place => ?_
    split
    · exact .refl _
    · exact copyChild_below hR hA i l track.parents

theorem addSubtreeWith_below (hR : ∀ i, Below (resolve i) (resolve' i))
    (hA : ∀ links i, Below (addSubtree links i) (addSubtree' links i)) (links : Option PlannedLinks) (i : EntityId) :
    Below (p.addSubtreeWith resolve addSubtree links i) (p.addSubtreeWith resolve' addSubtree' links i) := by
  refine .after _ fun s => ?_
  split
  · exact .refl _
  · exact .refl _
  · exact .after _ fun _ => .after _ fun children => Below.forM fun l => addChild_below hR hA i l

theorem fuel_below (p : Pass) : ∀ {n m : Nat}, n ≤ m → (∀ i, Below (p.resolveRoot n i) (p.resolveRoot m i)) ∧
    ∀ links i, Below (p.addSubtree n links i) (p.addSubtree m links i)
  | 0, m, _ => ⟨fun i s => .inl ⟨s, rfl⟩, fun links i s => .inl ⟨s, rfl⟩⟩
  | n + 1, 0, h => by cases h
  | n + 1, m + 1, h =>
    have ⟨hR, hA⟩ := fuel_below p (Nat.le_of_succ_le_succ h)
    ⟨fun i => resolveRootWith_below hR hA i, fun links i => addSubtreeWith_below hR hA links i⟩

end Pass

/-- **What comes out with some fuel comes out with any other amount, or that amount is smaller and runs out.** -/
theorem Planning.follow {α : Type} {x : Nat → Planning α} (hx : ∀ {n m}, n ≤ m → Below (x n) (x m)) {m : Nat}
    {s s' : Progress} {a : α} (h : x m s = .ok a s') (n : Nat) : x n s = .ok a s' ∨ n < m ∧ (x n).Hangs s := by
  rcases Nat.lt_or_ge n m with hlt | hge
  · rcases hx (Nat.le_of_lt hlt) s with hang | heq
    · exact .inr ⟨hlt, hang⟩
    · exact .inl (heq.trans h)
  · rcases hx hge s with ⟨s₁, hang⟩ | heq
    · rw [h] at hang
      cases hang
    · exact .inl (heq.symm.trans h)

end Reconciliation
