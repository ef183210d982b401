import Reconciliation.Proofs.Decisions
/-!
# How steps of planning end

A computation ends with a result and a state that its steps lead to, or with a halt for which there is someone to blame
(`Ends`).  One for which nobody is to blame returns (`Returns`).  Whatever calls neither a root nor an addition returns:
in consistent graphs every look-up finds what it looks for, and every decision is about entities without a fate.
-/
namespace Reconciliation

/-- Both graphs of a pass are consistent, over one schema. -/
structure Pass.Consistent (p : Pass) : Prop where
  target : p.target.Consistent
  incoming : p.incoming.Consistent
  schema : p.target.schema = p.incoming.schema

/-- **A computation leads by steps to an end with `post`, or halts for a reason that `blame` knows.** -/
structure Planning.Ends {α : Type} (p : Pass) (x : Planning α) (s : Progress) (post : α → Progress → Prop)
    (blame : Halt → Prop) : Prop where
  ok : ∀ {a s'}, x s = .ok a s' → Progress.Steps p s s' ∧ post a s'
  error : ∀ {h s'}, x s = .error h s' → blame h

/-- A computation leads by steps to an end with `post`. -/
abbrev Planning.Returns {α : Type} (p : Pass) (x : Planning α) (s : Progress) (post : α → Progress → Prop) : Prop :=
  Planning.Ends p x s post fun _ => False

namespace Planning

open Progress

variable {p : Pass} {s s₁ s' : Progress} {α β : Type} {x : Planning α} {f : α → Planning β} {a : α}
  {post P : α → Progress → Prop} {Q : β → Progress → Prop} {blame B : Halt → Prop}

namespace Ends

theorem of_ok (h : x s = .ok a s') (hs : Steps p s s') (ha : post a s') : Ends p x s post blame where
  ok h' := by
    rw [h] at h'
    obtain ⟨rfl, rfl⟩ := EStateM.Result.ok.inj h'
    exact ⟨hs, ha⟩
  error h' := by
    rw [h] at h'
    cases h'

theorem pure (ha : post a s) : Ends p (pure a) s post blame := of_ok (pure_run a s) (.refl s) ha

theorem mono (h : Ends p x s P B) (hpost : ∀ a s', P a s' → post a s') (hblame : ∀ h, B h → blame h) :
    Ends p x s post blame where
  ok h' := (h.ok h').imp id (hpost _ _)
  error h' := hblame _ (h.error h')

theorem bind (hx : Ends p x s P blame)
    (hf : ∀ a s₁, x s = .ok a s₁ → Steps p s s₁ → P a s₁ → Ends p (f a) s₁ Q blame) :
    Ends p (x >>= f) s Q blame where
  ok h := by
    obtain ⟨a, s₁, ha, hb⟩ := bind_ok_iff.1 h
    obtain ⟨hs, hp⟩ := hx.ok ha
    obtain ⟨hs', hq⟩ := (hf a s₁ ha hs hp).ok hb
    exact ⟨hs.trans hs', hq⟩
  error h := by
    rcases bind_error_iff.1 h with ha | ⟨a, s₁, ha, hb⟩
    · exact hx.error ha
    · obtain ⟨hs, hp⟩ := hx.ok ha
      exact (hf a s₁ ha hs hp).error hb

theorem bind_ok (hx : x s = .ok a s₁) (hs : Steps p s s₁) (hf : Ends p (f a) s₁ Q blame) :
    Ends p (x >>= f) s Q blame where
  ok h := (hf.ok (by rwa [bind_of_ok hx] at h)).imp hs.trans id
  error h := hf.error (by rwa [bind_of_ok hx] at h)

theorem bind_look (hx : x s = .ok a s) (hf : Ends p (f a) s Q blame) : Ends p (x >>= f) s Q blame :=
  bind_ok hx (.refl s) hf

theorem get_bind {f : Progress → Planning β} (hf : Ends p (f s) s Q blame) : Ends p (get >>= f) s Q blame :=
  bind_look (x := get) rfl hf

end Ends

/-- **A list of computations** leads by steps to an end at which each of them has done what it is for, or one of them is
to blame. -/
theorem Ends.forM {f : α → Planning PUnit} {I : Progress → Prop} {D : α → Progress → Prop}
    {B : α → Progress → Halt → Prop} (hI : ∀ {s s'}, Steps p s s' → I s → I s')
    (hD : ∀ {a s s'}, Steps p s s' → D a s → D a s') : ∀ {l : List α} {s : Progress}, I s →
    (∀ a ∈ l, ∀ s, I s → Ends p (f a) s (fun _ s' => D a s') (B a s)) →
    Ends p (l.forM f) s (fun _ s' => ∀ a ∈ l, D a s') fun h => ∃ before a after s₁, l = before ++ a :: after ∧
      before.forM f s = .ok () s₁ ∧ Steps p s s₁ ∧ I s₁ ∧ B a s₁ h
  | [], s, _, _ => .pure fun _ h => by cases h
  | a :: l, s, hs, hf => by
    refine .bind (x := f a) ((hf a List.mem_cons_self s hs).mono (fun _ _ h => h) fun h hb => ?_) ?_
    · exact ⟨[], a, l, s, rfl, rfl, .refl s, hs, hb⟩
    · intro _ s₁ ha hs₁ hd
      have ih := Ends.forM (D := D) hI hD (hI hs₁ hs) fun b hb => hf b (List.mem_cons_of_mem _ hb)
      refine ⟨fun hok => ?_, fun herr => ?_⟩
      · obtain ⟨hs₂, hd'⟩ := ih.ok hok
        exact ⟨hs₂, List.forall_mem_cons.2 ⟨hD hs₂ hd, hd'⟩⟩
      · obtain ⟨before, b, after, s₂, rfl, hfirst, hs₂, hi, hb⟩ := ih.error herr
        exact ⟨a :: before, b, after, s₂, rfl, forM_cons_ok.2 ⟨s₁, ha, hfirst⟩, hs₁.trans hs₂, hi, hb⟩

theorem Returns.ends (h : Returns p x s post) : Ends p x s post blame := h.mono (fun _ _ ha => ha) fun _ => False.elim

theorem lookup_run {y : Except StoreError α} (h : y = .ok a) (s : Progress) : lookup y s = .ok a s :=
  lookup_ok_iff.2 ⟨h, rfl⟩

end Planning

/-! ## Decisions about target entities -/

/-- A target entity is decided about, and its counterpart, if it has one, is there. -/
def Pass.Paired (p : Pass) (t : EntityId) (r : Option EntityId) (s : Progress) : Prop :=
  s.targetFates.contains t = true ∧ ∀ j, r = some j → p.incoming.contains j = true

/-- An incoming entity is decided about, and its place, if it has one, is there. -/
def Pass.Placed (p : Pass) (i : EntityId) (q : Option PlannedParent) (s : Progress) : Prop :=
  s.incomingFates.contains i = true ∧ ∀ q', q = some q' → q'.There p

/-- A parent whose counterpart, if it has one, is there. -/
def ResolvedParent.There (p : Pass) (r : ResolvedParent) : Prop :=
  p.target.contains r.target = true ∧ ∀ j, r.counterpart = some j → p.incoming.contains j = true

namespace Pass

open Progress Planning

variable {p : Pass} {s : Progress} {t i : EntityId} {links : Option PlannedLinks} {data : Entity}

theorem unpaired_returns (hs : s.Sound p) (hc : p.target.contains t = true) (ht : s.targetFates.get? t = none) :
    Returns p (p.unpaired t) s (p.Paired t) := by
  have hnone : ∀ j, (none : Option EntityId) = some j → p.incoming.contains j = true := fun j hj => by cases hj
  obtain ⟨accepted, hacc⟩ := exists_targetIs hc
  refine .bind_look (acceptsTarget_run hacc s) ?_
  cases accepted with
  | true =>
    exact .bind_ok (a := ()) (remove_none_ok_iff.2 ⟨hs.free ht, ht, rfl⟩) (Step.remove ht (hs.free ht) hacc).steps
      (.pure ⟨SortedMap.contains_insert_self, hnone⟩)
  | false =>
    exact .bind_ok (a := ()) (keep_none_ok_iff.2 ⟨ht, rfl⟩) (Step.keep ht hacc).steps (.pure ⟨SortedMap.contains_insert_self, hnone⟩)

theorem settlePair_returns (hs : s.Sound p) (hc : p.target.contains t = true) (ht : s.targetFates.get? t = none)
    (hc' : p.incoming.contains i = true) (hi : s.incomingFates.get? i = none) (hl : ThereAll p links) :
    Returns p (p.settlePair t i links) s (p.Paired t) := by
  have hthere : ∀ j, some i = some j → p.incoming.contains j = true := fun j hj => Option.some.inj hj ▸ hc'
  obtain ⟨targetAccepted, htacc⟩ := exists_targetIs hc
  obtain ⟨accepted, hacc⟩ := exists_incomingIs hc'
  refine .bind_look (acceptsTarget_run htacc s) (.bind_look (acceptsIncoming_run hacc s) ?_)
  cases accepted with
  | true =>
    exact .bind_ok (a := ()) (relabel_ok_iff.2 ⟨hs.free ht, ht, hi, rfl⟩)
      (Step.relabel ht (hs.free ht) hi hc hacc hl).steps (.pure ⟨SortedMap.contains_insert_self, hthere⟩)
  | false =>
    cases targetAccepted with
    | true =>
      exact .bind_ok (a := ()) (remove_some_ok_iff.2 ⟨hs.free ht, ht, hi, rfl⟩)
        (Step.removePair ht (hs.free ht) hi htacc hacc).steps (.pure ⟨SortedMap.contains_insert_self, fun j hj => by cases hj⟩)
    | false =>
      exact .bind_ok (a := ()) (keep_some_ok_iff.2 ⟨ht, hi, rfl⟩) (Step.keepPair ht hi htacc hacc).steps
        (.pure ⟨SortedMap.contains_insert_self, hthere⟩)

theorem findInIncoming_returns (hs : s.Sound p) (hd : p.target.entity t = .ok data) (skip : EntityId → Bool) :
    Returns p (p.findInIncoming data skip) s fun r s' => s'.targetFates = s.targetFates ∧
      s'.incomingFates = s.incomingFates ∧ ∀ i, r = some i → p.incoming.contains i = true ∧ skip i = false := by
  obtain ⟨found, hfound⟩ : ∃ r, p.incoming.firstMatch data skip
      (((ContentIndex.bucketsOf Entity.digest p.incoming data.kind).get? data.digest).getD []) = .ok r :=
    Graph.firstMatch_total fun id hid => ContentIndex.contains_of_mem_bucket hid
  refine .of_ok (a := found) ?_ (Step.lookInIncoming hd).steps ⟨rfl, rfl, fun i hi => ?_⟩
  · simp only [findInIncoming, get_bind, modify_bind, hs.incomingIndex.findByContent_eq, hfound,
      ContentIndex.findByContent_snd]
    rfl
  · subst hi
    obtain ⟨hmem, hskip, -⟩ := Graph.firstMatch_some hfound
    exact ⟨ContentIndex.contains_of_mem_bucket hmem, hskip⟩

theorem findInTarget_returns (hs : s.Sound p) (hd : p.incoming.entity i = .ok data) (skip : EntityId → Bool) :
    Returns p (p.findInTarget data skip) s fun r s' => s'.targetFates = s.targetFates ∧
      s'.incomingFates = s.incomingFates ∧ ∀ t, r = some t → p.target.contains t = true := by
  obtain ⟨found, hfound⟩ : ∃ r, p.target.firstMatch data skip
      (((ContentIndex.bucketsOf Entity.digest p.target data.kind).get? data.digest).getD []) = .ok r :=
    Graph.firstMatch_total fun id hid => ContentIndex.contains_of_mem_bucket hid
  refine .of_ok (a := found) ?_ (Step.lookInTarget hd).steps ⟨rfl, rfl, fun t ht => ?_⟩
  · simp only [findInTarget, get_bind, modify_bind, hs.targetIndex.findByContent_eq, hfound,
      ContentIndex.findByContent_snd]
    rfl
  · subst ht
    exact ContentIndex.contains_of_mem_bucket (Graph.firstMatch_some hfound).1

/-- What becomes of a root once its counterpart is looked up. -/
def settleRootPair (p : Pass) (t : EntityId) (found : Option EntityId) : Planning (Option EntityId) :=
  match found with
  | some incoming => p.settlePair t incoming none
  | none => p.unpaired t

theorem settleRootPair_returns (hs : s.Sound p) (hc : p.target.contains t = true) (ht : s.targetFates.get? t = none)
    {found : Option EntityId}
    (hfound : ∀ i, found = some i → p.incoming.contains i = true ∧ s.incomingFates.contains i = false) :
    Returns p (p.settleRootPair t found) s (p.Paired t) := by
  cases found with
  | none => exact unpaired_returns hs hc ht
  | some i =>
    obtain ⟨hc', hi⟩ := hfound i rfl
    exact settlePair_returns hs hc ht hc' (SortedMap.contains_eq_false_iff.1 hi) thereAll_none

theorem pairRoot_returns (hp : p.Consistent) (hs : s.Sound p) (hc : p.target.contains t = true)
    (ht : s.targetFates.get? t = none) :
    Returns p (p.pairRoot t) s (p.Paired t) := by
  obtain ⟨data, hd⟩ := Graph.exists_entity hc
  refine .bind_look (lookup_run hd s) (.get_bind ?_)
  cases hk : p.target.schema.naturalKey? data with
  | none =>
    refine (findInIncoming_returns hs hd _).bind ?_
    rintro found s₁ - hs₁ ⟨hft, hfi, hfound⟩
    refine settleRootPair_returns (hs₁.sound hs) hc (by rw [hft, ht]) fun i hi => ?_
    rw [hfi]
    exact hfound i hi
  | some key =>
    refine .bind_look (pure_run _ s) (settleRootPair_returns hs hc ht fun i hi => ?_)
    obtain ⟨hr, hnot⟩ := Option.filter_eq_some_iff.1 hi
    exact ⟨hp.incoming.contains_of_resolve hr, by simpa using hnot⟩

/-! ## Looking for counterparts and places -/

theorem mem_link {links : PlannedLinks} {c : Connection} {q : PlannedParent} {l : Connection × PlannedParent}
    (h : l ∈ links.link c q) : l ∈ links ∨ l = (c, q) := by
  rw [PlannedLinks.link] at h
  split at h
  · exact .inl h
  · exact (List.mem_append.1 h).imp id List.mem_singleton.1

theorem there_link {links : PlannedLinks} {c : Connection} {q : PlannedParent} (hl : ∀ l ∈ links, l.2.There p)
    (hq : q.There p) : ∀ l ∈ links.link c q, l.2.There p := by
  intro l h
  rcases mem_link h with h | rfl
  · exact hl l h
  · exact hq

theorem firstHit_look (data : Entity) (s : Progress) : ∀ {parents : List ResolvedParent}, (∀ r ∈ parents, r.There p) →
    ∃ r, p.firstHit data parents s = .ok r s ∧ ∀ i q later, r = some (i, q, later) →
      p.incoming.contains i = true ∧ s.incomingFates.get? i = none ∧ q ∈ parents ∧ later ⊆ parents
  | [], _ => ⟨none, rfl, fun _ _ _ h => by cases h⟩
  | r :: rest, hr => by
    obtain ⟨hrt, hrc⟩ := hr r List.mem_cons_self
    have hrest : ∀ q ∈ rest, q.There p := fun q hq => hr q (List.mem_cons_of_mem _ hq)
    obtain ⟨res, hres, hpost⟩ := firstHit_look data s hrest
    have hlater : ∀ i q later, res = some (i, q, later) → p.incoming.contains i = true ∧
        s.incomingFates.get? i = none ∧ q ∈ r :: rest ∧ later ⊆ r :: rest := fun i q later h =>
      let ⟨hc, hi, hq, hl⟩ := hpost i q later h
      ⟨hc, hi, List.mem_cons_of_mem _ hq, fun x hx => List.mem_cons_of_mem _ (hl hx)⟩
    obtain ⟨c, t, counterpart⟩ := r
    cases counterpart with
    | none => exact ⟨res, hres, hlater⟩
    | some parent =>
      obtain ⟨found, hfound⟩ : ∃ found, p.incoming.findChild parent c data s.incomingFates.contains = .ok found :=
        Graph.findChild_total (hrc parent rfl)
      simp only [firstHit, get_bind, bind_of_ok (lookup_run hfound s)]
      cases found with
      | none => exact ⟨res, hres, hlater⟩
      | some i =>
        refine ⟨_, rfl, fun j q later h => ?_⟩
        obtain ⟨rfl, rfl, rfl⟩ : i = j ∧ _ = q ∧ rest = later := by simpa using h
        obtain ⟨hmem, hskip, -⟩ := Graph.findChild_some hfound
        exact ⟨Graph.contains_of_mem_childIds hmem, SortedMap.contains_eq_false_iff.1 hskip, List.mem_cons_self,
          List.subset_cons_self _ _⟩

theorem linkLater_look : ∀ {later : List ResolvedParent} {links : PlannedLinks}, (∀ r ∈ later, r.There p) →
    (∀ l ∈ links, l.2.There p) →
    ∃ links', p.linkLater i links later s = .ok links' s ∧ ∀ l ∈ links', l.2.There p
  | [], links, _, hl => ⟨links, rfl, hl⟩
  | r :: rest, links, hr, hl => by
    obtain ⟨hrt, hrc⟩ := hr r List.mem_cons_self
    have hrest : ∀ q ∈ rest, q.There p := fun q hq => hr q (List.mem_cons_of_mem _ hq)
    obtain ⟨c, t, counterpart⟩ := r
    cases counterpart with
    | none =>
      simp only [linkLater]
      exact linkLater_look hrest hl
    | some parent =>
      simp only [linkLater, bind_of_ok (lookup_run (Graph.childrenOf_eq (hrc parent rfl)) s)]
      split
      · exact linkLater_look hrest (there_link hl hrt)
      · exact linkLater_look hrest hl

theorem firstTargetChild_look (data : Entity) (s : Progress) : ∀ {links : PlannedLinks}, (∀ l ∈ links, l.2.There p) →
    ∃ r, p.firstTargetChild data links s = .ok r s ∧ ∀ t, r = some t →
      p.target.contains t = true ∧ s.targetFates.get? t = none
  | [], _ => ⟨none, rfl, fun _ h => by cases h⟩
  | (c, .added _) :: rest, hl => by
    have hrest : ∀ l ∈ rest, l.2.There p := fun l h => hl l (List.mem_cons_of_mem _ h)
    simp only [firstTargetChild]
    exact firstTargetChild_look data s hrest
  | (c, .target parent) :: rest, hl => by
    have hrest : ∀ l ∈ rest, l.2.There p := fun l h => hl l (List.mem_cons_of_mem _ h)
    obtain ⟨found, hfound⟩ : ∃ found, p.target.findChild parent c data s.targetFates.contains = .ok found :=
      Graph.findChild_total (hl _ List.mem_cons_self)
    simp only [firstTargetChild, get_bind, bind_of_ok (lookup_run hfound s)]
    cases found with
    | none => exact firstTargetChild_look data s hrest
    | some t =>
      refine ⟨_, rfl, fun u h => ?_⟩
      obtain rfl := Option.some.inj h
      obtain ⟨hmem, hskip, -⟩ := Graph.findChild_some hfound
      exact ⟨Graph.contains_of_mem_childIds hmem, SortedMap.contains_eq_false_iff.1 hskip⟩

theorem locateUnder_look {links : PlannedLinks} (hc : p.incoming.contains i = true) (hl : ∀ l ∈ links, l.2.There p) :
    ∃ r, p.locateUnder i links s = .ok r s ∧ ∀ q, r = some q → q.There p := by
  obtain ⟨data, hd⟩ := Graph.exists_entity hc
  obtain ⟨accepted, hacc⟩ := exists_incomingIs hc
  obtain ⟨found, hfound, hpost⟩ := firstTargetChild_look data s hl
  simp only [locateUnder, bind_of_ok (lookup_run hd s), bind_of_ok hfound]
  cases found with
  | some t => exact ⟨_, rfl, fun q h => Option.some.inj h ▸ (hpost t rfl).1⟩
  | none =>
    simp only [bind_of_ok (acceptsIncoming_run hacc s)]
    split
    · exact ⟨_, rfl, fun q h => Option.some.inj h ▸ hc⟩
    · exact ⟨_, rfl, fun q h => by cases h⟩

/-! ## Decisions about incoming entities -/

theorem there_asParent (hs : s.Sound p) {f : IncomingFate} (hi : s.incomingFates.get? i = some f) :
    ∀ q, f.asParent i = some q → q.There p := by
  intro q hq
  cases f with
  | kept t =>
    obtain ⟨-, f, hf, -⟩ := hs.keeps hi
    exact Option.some.inj hq ▸ hs.contains_target hf
  | relabels t =>
    obtain ⟨-, links, hf⟩ := hs.relabels hi
    exact Option.some.inj hq ▸ hs.contains_target hf
  | added => exact Option.some.inj hq ▸ (hs.added hi).contains
  | lost => cases hq

theorem findRoot_returns (hp : p.Consistent) (hs : s.Sound p) (hd : p.incoming.entity i = .ok data) :
    Returns p (p.findRoot data) s fun r s' => s'.targetFates = s.targetFates ∧ s'.incomingFates = s.incomingFates ∧
      ∀ t, r = some t → p.target.contains t = true := by
  rw [findRoot]
  cases hk : p.target.schema.naturalKey? data with
  | some key => exact .pure ⟨rfl, rfl, fun t ht => hp.target.contains_of_resolve ht⟩
  | none =>
    refine .get_bind ((findInTarget_returns hs hd _).bind fun found s₁ _ hs₁ ⟨hft, hfi, hfound⟩ => ?_)
    cases found with
    | some t => exact .pure ⟨hft, hfi, hfound⟩
    | none =>
      exact (findInTarget_returns (hs₁.sound hs) hd _).mono
        (fun r s' ⟨hft', hfi', hr⟩ => ⟨hft'.trans hft, hfi'.trans hfi, hr⟩) fun _ h => h

theorem classified_setIncoming {f : IncomingFate} : (s.setIncoming i f).incomingFates.contains i = true :=
  SortedMap.contains_insert_self

theorem settleIncoming_returns (hs : s.Sound p) (hacc : p.TargetIs false t) (ht : s.targetFates.get? t = none)
    (hc : p.incoming.contains i = true) (hi : s.incomingFates.get? i = none) (hl : ThereAll p links) :
    Returns p (p.settleIncoming i t links) s fun r s' => s'.incomingFates.contains i = true ∧ r = some (.target t) := by
  obtain ⟨accepted, hacc'⟩ := exists_incomingIs hc
  refine .bind_look (acceptsTarget_run hacc s) ?_
  simp only [Bool.false_eq_true, if_false]
  refine .bind_look (acceptsIncoming_run hacc' s) ?_
  cases accepted with
  | true =>
    exact .bind_ok (a := ()) (relabel_ok_iff.2 ⟨hs.free ht, ht, hi, rfl⟩)
      (Step.relabel ht (hs.free ht) hi hacc.contains hacc' hl).steps (.pure ⟨classified_setIncoming, rfl⟩)
  | false =>
    exact .bind_ok (a := ()) (keep_some_ok_iff.2 ⟨ht, hi, rfl⟩) (Step.keepPair ht hi hacc hacc').steps
      (.pure ⟨classified_setIncoming, rfl⟩)

theorem lose_returns (hc : p.incoming.contains i = true) (hi : s.incomingFates.get? i = none) :
    Returns p (Planning.lose i) s fun _ s' => s'.incomingFates.contains i = true :=
  .of_ok (a := ()) (lose_ok_iff.2 ⟨hi, rfl⟩) (Step.lose hi hc).steps classified_setIncoming

theorem setIfUnclassified_returns {f : IncomingFate} (hstep : s.incomingFates.get? i = none → Step p s (s.setIncoming i f)) :
    Returns p (setIfUnclassified i f) s fun _ s' => s'.incomingFates.contains i = true := by
  refine .get_bind ?_
  split
  · next h => exact .pure h
  · next h =>
    have hi := SortedMap.contains_eq_false_iff.1 (Bool.eq_false_iff.2 h)
    exact .of_ok (a := ()) (setIncomingFate_ok_iff.2 ⟨hi, rfl⟩) (hstep hi).steps classified_setIncoming

/-- A root takes over what was decided about its counterpart; if that is undecided still, both are decided about. -/
theorem settleRoot_returns (hs : s.Sound p) (hc : p.incoming.contains i = true)
    (h : s.targetFates.contains t = true ∨ p.TargetIs false t ∧ s.incomingFates.get? i = none) :
    Returns p (p.settleRoot i t) s (p.Placed i) := by
  refine .get_bind ?_
  cases hf : s.targetFates.get? t with
  | none =>
    rcases h with ht | ⟨hacc, hi⟩
    · rw [SortedMap.contains_eq_false_iff.2 hf] at ht
      cases ht
    · exact (settleIncoming_returns hs hacc hf hc hi thereAll_none).mono
        (fun r s' ⟨hcl, hr⟩ => ⟨hcl, fun q hq => by rw [hr] at hq; exact Option.some.inj hq ▸ hacc.contains⟩)
        fun _ h => h
  | some f =>
    have hthere := hs.contains_target hf
    cases f with
    | removed =>
      exact (setIfUnclassified_returns fun hi => .lose hi hc).bind fun _ _ _ _ hcl =>
        .pure ⟨hcl, fun q hq => by cases hq⟩
    | kept c =>
      exact (setIfUnclassified_returns fun hi => .settle hf (by simp) hi hc).bind fun _ _ _ _ hcl =>
        .pure ⟨hcl, fun q hq => Option.some.inj hq ▸ hthere⟩
    | relabelled j links =>
      exact (setIfUnclassified_returns fun hi => .settle hf (by simp) hi hc).bind fun _ _ _ _ hcl =>
        .pure ⟨hcl, fun q hq => Option.some.inj hq ▸ hthere⟩

end Pass
end Reconciliation
