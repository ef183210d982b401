import Reconciliation.Plan.Planner
/-!
# Results of stateful steps

Planning and edits are steps that read and write a state and may stop with an error.  What a sequence of steps comes to
is read off its first step: `bind_ok_iff` when it succeeds, `bind_error_iff` when it stops, and a step that only looks
at the state disappears (`get_bind`).
-/
namespace Reconciliation

section
variable {ε σ α β : Type}

theorem bind_ok_iff {x : EStateM ε σ α} {f : α → EStateM ε σ β} {s s' : σ} {b : β} :
    (x >>= f) s = .ok b s' ↔ ∃ a s₁, x s = .ok a s₁ ∧ f a s₁ = .ok b s' := by
  show EStateM.bind x f s = .ok b s' ↔ _
  unfold EStateM.bind
  cases x s with
  | ok a s₁ => simp only [EStateM.Result.ok.injEq, and_assoc, exists_and_left, exists_eq_left']
  | error e s₁ => simp

theorem bind_error_iff {x : EStateM ε σ α} {f : α → EStateM ε σ β} {s s' : σ} {e : ε} :
    (x >>= f) s = .error e s' ↔ x s = .error e s' ∨ ∃ a s₁, x s = .ok a s₁ ∧ f a s₁ = .error e s' := by
  show EStateM.bind x f s = .error e s' ↔ _
  unfold EStateM.bind
  cases x s with
  | ok a s₁ => simp only [EStateM.Result.ok.injEq, and_assoc, exists_and_left, exists_eq_left', reduceCtorEq, false_or]
  | error e s₁ => simp

theorem bind_of_ok {x : EStateM ε σ α} {f : α → EStateM ε σ β} {s s₁ : σ} {a : α} (h : x s = .ok a s₁) :
    (x >>= f) s = f a s₁ := by
  show EStateM.bind x f s = f a s₁
  unfold EStateM.bind
  rw [h]

theorem bind_of_error {x : EStateM ε σ α} {f : α → EStateM ε σ β} {s s₁ : σ} {e : ε} (h : x s = .error e s₁) :
    (x >>= f) s = .error e s₁ :=
  bind_error_iff.2 (.inl h)

/-- A step succeeds, and its result passes a test. -/
def succeedsWith (r : EStateM.Result ε σ α) (test : α → σ → Bool) : Bool :=
  match r with
  | .ok a s => test a s
  | .error _ _ => false

theorem exists_of_succeedsWith {r : EStateM.Result ε σ α} {test : α → σ → Bool} (h : succeedsWith r test = true) :
    ∃ a s, r = .ok a s ∧ test a s = true := by
  cases r with
  | ok a s => exact ⟨a, s, rfl, h⟩
  | error e s => cases h

/-- A step fails, and its error passes a test. -/
def failsWith (r : EStateM.Result ε σ α) (test : ε → Bool) : Bool :=
  match r with
  | .ok _ _ => false
  | .error e _ => test e

theorem exists_of_failsWith {r : EStateM.Result ε σ α} {test : ε → Bool} (h : failsWith r test = true) :
    ∃ e s, r = .error e s ∧ test e = true := by
  cases r with
  | ok a s => cases h
  | error e s => exact ⟨e, s, rfl, h⟩

theorem pure_run (a : α) (s : σ) : (pure a : EStateM ε σ α) s = .ok a s := rfl

theorem throw_run (e : ε) (s : σ) : (throw e : EStateM ε σ α) s = .error e s := rfl

theorem modify_run (f : σ → σ) (s : σ) : (modify f : EStateM ε σ PUnit) s = .ok () (f s) := rfl

theorem get_bind (f : σ → EStateM ε σ β) (s : σ) : ((get : EStateM ε σ σ) >>= f) s = f s s := rfl

theorem modify_bind (g : σ → σ) (f : PUnit → EStateM ε σ β) (s : σ) :
    ((modify g : EStateM ε σ PUnit) >>= f) s = f () (g s) := rfl

theorem except_bind_ok_iff {x : Except ε α} {f : α → Except ε β} {b : β} :
    x >>= f = .ok b ↔ ∃ a, x = .ok a ∧ f a = .ok b := by
  cases x with
  | error e => exact ⟨fun h => (by cases h), fun ⟨_, h, _⟩ => (by cases h)⟩
  | ok a => simp only [Except.ok.injEq, exists_eq_left']; rfl

theorem except_bind_error_iff {x : Except ε α} {f : α → Except ε β} {e : ε} :
    x >>= f = .error e ↔ x = .error e ∨ ∃ a, x = .ok a ∧ f a = .error e := by
  cases x with
  | error e' =>
    show Except.error e' = .error e ↔ _
    simp
  | ok a => simp only [Except.ok.injEq, exists_eq_left', reduceCtorEq, false_or]; rfl

theorem ofExcept_ok_iff {x : Except ε α} {s s' : σ} {a : α} :
    (MonadExcept.ofExcept x : EStateM ε σ α) s = .ok a s' ↔ x = .ok a ∧ s' = s := by
  cases x with
  | error e => exact ⟨fun h => (by cases h), fun h => (by cases h.1)⟩
  | ok b =>
    show EStateM.Result.ok b s = .ok a s' ↔ _
    rw [EStateM.Result.ok.injEq, Except.ok.injEq, eq_comm (a := s)]

theorem ofExcept_error_iff {x : Except ε α} {s s' : σ} {e : ε} :
    (MonadExcept.ofExcept x : EStateM ε σ α) s = .error e s' ↔ x = .error e ∧ s' = s := by
  cases x with
  | ok b => exact ⟨fun h => (by cases h), fun h => (by cases h.1)⟩
  | error e' =>
    show EStateM.Result.error e' s = .error e s' ↔ _
    rw [EStateM.Result.error.injEq, Except.error.injEq, eq_comm (a := s)]

theorem ofExcept_bind_ok_iff {x : Except ε α} {f : α → EStateM ε σ β} {s s' : σ} {b : β} :
    ((MonadExcept.ofExcept x : EStateM ε σ α) >>= f) s = .ok b s' ↔ ∃ a, x = .ok a ∧ f a s = .ok b s' := by
  simp only [bind_ok_iff, ofExcept_ok_iff, and_assoc, exists_and_left, exists_eq_left]

theorem ofExcept_bind_error_iff {x : Except ε α} {f : α → EStateM ε σ β} {s s' : σ} {e : ε} :
    ((MonadExcept.ofExcept x : EStateM ε σ α) >>= f) s = .error e s' ↔
      x = .error e ∧ s' = s ∨ ∃ a, x = .ok a ∧ f a s = .error e s' := by
  simp only [bind_error_iff, ofExcept_error_iff, ofExcept_ok_iff]
  constructor
  · rintro (h | ⟨a, _, ⟨ha, rfl⟩, h⟩)
    · exact .inl h
    · exact .inr ⟨a, ha, h⟩
  · rintro (h | ⟨a, ha, h⟩)
    · exact .inl h
    · exact .inr ⟨a, s, ⟨ha, rfl⟩, h⟩

/-- What follows a check matters only when the check passes. -/
theorem ofExcept_bind_congr {x : Except ε α} {f f' : α → EStateM ε σ β} {s : σ} (h : ∀ a, x = .ok a → f a s = f' a s) :
    ((MonadExcept.ofExcept x : EStateM ε σ α) >>= f) s = ((MonadExcept.ofExcept x : EStateM ε σ α) >>= f') s := by
  cases x with
  | ok a => exact h a rfl
  | error e => rfl

/-! ## Lists of steps -/

theorem forM_cons_ok {f : α → EStateM ε σ PUnit} {a : α} {l : List α} {s s' : σ} {u : PUnit} :
    (a :: l).forM f s = .ok u s' ↔ ∃ s₁, f a s = .ok () s₁ ∧ l.forM f s₁ = .ok u s' := by
  show (f a >>= fun _ => l.forM f) s = _ ↔ _
  rw [bind_ok_iff]
  exact ⟨fun ⟨_, s₁, h⟩ => ⟨s₁, h⟩, fun ⟨s₁, h⟩ => ⟨(), s₁, h⟩⟩

theorem forM_append_of_ok {f : α → EStateM ε σ PUnit} {l r : List α} {s s₁ : σ} {u : PUnit}
    (h : l.forM f s = .ok u s₁) : (l ++ r).forM f s = r.forM f s₁ := by
  induction l generalizing s with
  | nil =>
    obtain ⟨-, rfl⟩ := EStateM.Result.ok.inj h
    rfl
  | cons a l ih =>
    obtain ⟨s₂, ha, hl⟩ := forM_cons_ok.1 h
    show (f a >>= fun _ => (l ++ r).forM f) s = _
    rw [bind_of_ok ha, ih hl]

/-- **A list of steps stops at its first step that stops**, and all steps before it succeed. -/
theorem forM_error {f : α → EStateM ε σ PUnit} {l : List α} {s s' : σ} {e : ε} (h : l.forM f s = .error e s') :
    ∃ before a after s₁, l = before ++ a :: after ∧ before.forM f s = .ok () s₁ ∧ f a s₁ = .error e s' := by
  induction l generalizing s with
  | nil => cases h
  | cons a l ih =>
    rcases bind_error_iff.1 (show (f a >>= fun _ => l.forM f) s = .error e s' from h) with ha | ⟨u, s₂, ha, hl⟩
    · exact ⟨[], a, l, s, rfl, rfl, ha⟩
    · obtain ⟨before, b, after, s₁, rfl, hb, hs⟩ := ih hl
      exact ⟨a :: before, b, after, s₁, rfl, forM_cons_ok.2 ⟨s₂, ha, hb⟩, hs⟩

/-- A relation between states that each successful step of a list keeps holds between its first and its last state. -/
theorem forM_ok_induct {f : α → EStateM ε σ PUnit} {r : σ → σ → Prop} (hrefl : ∀ s, r s s)
    (htrans : ∀ {a b c}, r a b → r b c → r a c) : ∀ {l : List α} {s s' : σ} {u : PUnit},
    (∀ a ∈ l, ∀ {s s' u}, f a s = .ok u s' → r s s') → l.forM f s = .ok u s' → r s s'
  | [], s, s', _, _, h => by
    obtain ⟨-, rfl⟩ := EStateM.Result.ok.inj h
    exact hrefl s
  | a :: l, s, s', u, hf, h => by
    obtain ⟨s₁, ha, hl⟩ := forM_cons_ok.1 h
    exact htrans (hf a List.mem_cons_self ha)
      (forM_ok_induct hrefl htrans (fun b hb => hf b (List.mem_cons_of_mem _ hb)) hl)

/-- What each of a list of computations keeps, when it comes after the ones before it, all of them keep. -/
theorem forM_ok_along {f : α → EStateM ε σ PUnit} {I : σ → Prop} : ∀ {l : List α} {s s' : σ} {u : PUnit},
    (∀ {before a after s₁ s₂}, l = before ++ a :: after → before.forM f s = .ok () s₁ → f a s₁ = .ok () s₂ → I s₁ → I s₂) →
    l.forM f s = .ok u s' → I s → I s'
  | [], _, _, _, _, h, hs => by
    obtain ⟨-, rfl⟩ := EStateM.Result.ok.inj h
    exact hs
  | a :: l, s, s', u, hf, h, hs => by
    obtain ⟨s₁, ha, hl⟩ := forM_cons_ok.1 h
    refine forM_ok_along (fun {before b after s₂ s₃} heq hbefore hb => ?_) hl (@hf [] a l _ _ rfl rfl ha hs)
    exact @hf (a :: before) _ _ _ _ (by rw [heq]; rfl) (forM_cons_ok.2 ⟨s₁, ha, hbefore⟩) hb

end
end Reconciliation
