import Mathlib.Order.Defs.Unbundled
import Reconciliation.Proofs.Runs
/-!
# Where a computation leads

A computation that succeeds leads from one state to another, and what lies between them is a relation that holds of
doing nothing and of doing one thing after another (`Leads`).  One that stops does so with an error that `blame` knows.
The rules follow the code: what comes first leads to where the rest starts (`bind`), and a list of computations that each
do what they are for does all of it (`forM`).
-/
namespace Reconciliation

variable {ε σ α β γ : Type}

/-- **A computation leads along `r` to an end with `post`, or stops with an error that `blame` knows.** -/
structure Leads (r : σ → σ → Prop) (x : EStateM ε σ α) (s : σ) (post : α → σ → Prop) (blame : ε → Prop) : Prop where
  ok : ∀ {a s'}, x s = .ok a s' → r s s' ∧ post a s'
  error : ∀ {e s'}, x s = .error e s' → blame e

namespace Leads

variable {r : σ → σ → Prop} {x : EStateM ε σ α} {f : α → EStateM ε σ β} {s s₁ : σ} {a : α}
  {post P : α → σ → Prop} {Q : β → σ → Prop} {blame B : ε → Prop}

theorem of_ok (h : x s = .ok a s₁) (hr : r s s₁) (ha : post a s₁) : Leads r x s post blame where
  ok h' := by
    rw [h] at h'
    obtain ⟨rfl, rfl⟩ := EStateM.Result.ok.inj h'
    exact ⟨hr, ha⟩
  error h' := by
    rw [h] at h'
    cases h'

theorem of_error {e : ε} (h : x s = .error e s₁) (he : blame e) : Leads r x s post blame where
  ok h' := by
    rw [h] at h'
    cases h'
  error h' := by
    rw [h] at h'
    exact (EStateM.Result.error.inj h').1 ▸ he

theorem pure [Std.Refl r] (ha : post a s) : Leads r (pure a) s post blame := of_ok (pure_run a s) (refl_of r s) ha

theorem mono (h : Leads r x s P B) (hpost : ∀ a s', r s s' → P a s' → post a s') (hblame : ∀ e, B e → blame e) :
    Leads r x s post blame where
  ok h' :=
    let ⟨hr, ha⟩ := h.ok h'
    ⟨hr, hpost _ _ hr ha⟩
  error h' := hblame _ (h.error h')

/-- What follows starts where the first part ends, and knows how it went. -/
theorem bind_run [IsTrans σ r] (hx : Leads r x s P blame)
    (hf : ∀ a s₁, x s = .ok a s₁ → r s s₁ → P a s₁ → Leads r (f a) s₁ Q blame) : Leads r (x >>= f) s Q blame where
  ok h := by
    obtain ⟨a, s₁, ha, hb⟩ := bind_ok_iff.1 h
    obtain ⟨hr, hp⟩ := hx.ok ha
    obtain ⟨hr', hq⟩ := (hf a s₁ ha hr hp).ok hb
    exact ⟨trans_of r hr hr', hq⟩
  error h := by
    rcases bind_error_iff.1 h with ha | ⟨a, s₁, ha, hb⟩
    · exact hx.error ha
    · obtain ⟨hr, hp⟩ := hx.ok ha
      exact (hf a s₁ ha hr hp).error hb

theorem bind [IsTrans σ r] (hx : Leads r x s P blame) (hf : ∀ a s₁, r s s₁ → P a s₁ → Leads r (f a) s₁ Q blame) :
    Leads r (x >>= f) s Q blame := hx.bind_run fun a s₁ _ => hf a s₁

theorem bind_look (hx : x s = .ok a s) (hf : Leads r (f a) s Q blame) : Leads r (x >>= f) s Q blame where
  ok h := hf.ok (by rwa [bind_of_ok hx] at h)
  error h := hf.error (by rwa [bind_of_ok hx] at h)

theorem get_bind {f : σ → EStateM ε σ β} (hf : Leads r (f s) s Q blame) : Leads r (get >>= f) s Q blame :=
  bind_look (x := get) rfl hf

theorem look {P : α → Prop} (hx : ∀ {a s'}, x s = .ok a s' → P a ∧ s' = s) (herr : ∀ {e s'}, x s = .error e s' → blame e)
    (hf : ∀ a, P a → Leads r (f a) s Q blame) : Leads r (x >>= f) s Q blame where
  ok h := by
    obtain ⟨a, s₁, ha, hb⟩ := bind_ok_iff.1 h
    obtain ⟨hp, rfl⟩ := hx ha
    exact (hf a hp).ok hb
  error h := by
    rcases bind_error_iff.1 h with ha | ⟨a, s₁, ha, hb⟩
    · exact herr ha
    · obtain ⟨hp, rfl⟩ := hx ha
      exact (hf a hp).error hb

/-- **A list of computations** does what each of them is for, when what is done stays done.  Each may start in a state
that the ones before it leave. -/
theorem forM_run [Std.Refl r] [IsTrans σ r] {f : γ → EStateM ε σ PUnit} {I : σ → Prop} {D : γ → σ → Prop}
    (hD : ∀ {c s s'}, r s s' → D c s → D c s') : ∀ {l : List γ} {s : σ},
    (∀ c ∈ l, ∀ {s s'}, f c s = .ok () s' → r s s' → I s → I s') → I s →
    (∀ c ∈ l, ∀ s, I s → Leads r (f c) s (fun _ s' => D c s') blame) →
    Leads r (l.forM f) s (fun _ s' => ∀ c ∈ l, D c s') blame
  | [], _, _, _, _ => .pure fun _ h => by cases h
  | c :: l, s, hI, hs, hf => by
    refine .bind_run (x := f c) (hf c List.mem_cons_self s hs) fun _ s₁ hrun hr hc => ?_
    have ih := forM_run (l := l) (D := D) hD (fun b hb => hI b (List.mem_cons_of_mem _ hb))
      (hI c List.mem_cons_self hrun hr hs) fun b hb => hf b (List.mem_cons_of_mem _ hb)
    exact ih.mono (fun _ s' hr' hall => List.forall_mem_cons.2 ⟨hD hr' hc, hall⟩) fun _ h => h

theorem forM [Std.Refl r] [IsTrans σ r] {f : γ → EStateM ε σ PUnit} {I : σ → Prop} {D : γ → σ → Prop}
    (hI : ∀ {s s'}, r s s' → I s → I s') (hD : ∀ {c s s'}, r s s' → D c s → D c s') {l : List γ} {s : σ} (hs : I s)
    (hf : ∀ c ∈ l, ∀ s, I s → Leads r (f c) s (fun _ s' => D c s') blame) :
    Leads r (l.forM f) s (fun _ s' => ∀ c ∈ l, D c s') blame :=
  forM_run (I := I) (D := D) hD (fun _ _ {_ _} _ hr hs => hI hr hs) hs hf

/-- Nothing needs to be known of what each of them is for. -/
theorem forM_keeping [Std.Refl r] [IsTrans σ r] {f : γ → EStateM ε σ PUnit} {I : σ → Prop}
    (hI : ∀ {s s'}, r s s' → I s → I s') {l : List γ} {s : σ} (hs : I s)
    (hf : ∀ c ∈ l, ∀ s, I s → Leads r (f c) s (fun _ _ => True) blame) : Leads r (l.forM f) s (fun _ _ => True) blame :=
  (forM (I := I) (D := fun _ _ => True) hI (fun _ h => h) hs hf).mono (fun _ _ _ _ => trivial) fun _ h => h

/-! ## When only success matters -/

theorem of_success (h : ∀ {a s'}, x s = .ok a s' → r s s' ∧ post a s') : Leads r x s post fun _ => True :=
  ⟨h, fun _ => trivial⟩

theorem looking {P : α → Prop} (hx : ∀ {a s'}, x s = .ok a s' → P a ∧ s' = s)
    (hf : ∀ a, P a → Leads r (f a) s Q fun _ => True) : Leads r (x >>= f) s Q fun _ => True :=
  look hx (fun _ => trivial) hf

end Leads
end Reconciliation
