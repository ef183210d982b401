import Reconciliation.Proofs.Coverage
import Reconciliation.Proofs.Timely
/-!
# Links between the right kinds

The links that a plan gives an entity come from three sides: from the parents of a target entity, from the places of an
incoming entity's parents, and from a parent that is copied.  Each of them goes through a connection that some graph has
for an entity of that kind, and leads to something of the kind that the connection asks for (`Typed`).

This rests on two things.  A search for equal content, or for a natural key, finds an entity of the kind that it looks
for, so the place of an incoming entity has its kind.  And a connection by which an entity hangs in one of the graphs is
declared for its kind.  Every write keeps the links that are written down typed (`Types`), and so does all of planning
(`planInOrder_typed`).
-/
namespace Reconciliation

open Progress Planning

/-! ## Kinds of parents -/

/-- The kind of a planned parent. -/
def PlannedParent.kind : PlannedParent → Kind
  | .target id => id.kind
  | .added incoming => incoming.kind

/-- **A connection joins two kinds**: it is declared for the child's and asks for the parent's. -/
structure Connection.Joins (schema : Schema) (c : Connection) (child parent : Kind) : Prop where
  declared : schema.declares c = true
  child : c.child = child
  parent : parent = c.parent

/-- **Links for an entity of a kind** go through connections that are declared for it, to parents of the right kinds. -/
def PlannedLinks.Typed (schema : Schema) (kind : Kind) (links : PlannedLinks) : Prop :=
  ∀ c q, (c, q) ∈ links → c.Joins schema kind q.kind

namespace PlannedLinks

variable {schema : Schema} {kind : Kind} {links : PlannedLinks} {c : Connection} {q : PlannedParent}

theorem typed_nil : PlannedLinks.Typed schema kind [] := fun _ _ h => by cases h

theorem Typed.link (h : links.Typed schema kind) (hc : c.Joins schema kind q.kind) : (links.link c q).Typed schema kind := by
  intro c' q' hmem
  rcases Pass.mem_link hmem with hmem | heq
  · exact h c' q' hmem
  · obtain ⟨rfl, rfl⟩ := Prod.mk.inj heq
    exact hc

end PlannedLinks

theorem Graph.HasLink.joins {g : Graph} (hg : g.Consistent) {x y : EntityId} {c : Connection} (h : g.HasLink x c y) :
    c.Joins g.schema x.kind y.kind :=
  let ⟨_, hn, hmem⟩ := h
  ⟨(hg.declared hn hmem).2, (hg.declared hn hmem).1, (hg.parent hn hmem).2⟩

theorem Pass.kind_eq_of_sameContent {p : Pass} (hp : p.Consistent) {t i : EntityId} {e d : Entity}
    (he : p.target.entity t = .ok e) (hd : p.incoming.entity i = .ok d) (h : e.sameContent d = true) : t.kind = i.kind := by
  rw [← hp.target.kind_eq he, ← hp.incoming.kind_eq hd]
  exact (sameContent_iff.1 h).1

/-! ## What is written down -/

namespace Progress

variable {p : Pass} {s s' : Progress} {t i : EntityId} {kind : Kind}

/-- **What is written down is typed**: an incoming entity has a place of its kind, and all links join the right kinds. -/
structure Typed (p : Pass) (s : Progress) : Prop where
  place : ∀ {i f q}, s.incomingFates.get? i = some f → f.asParent i = some q → q.kind = i.kind
  relabelled : ∀ {t i links}, s.targetFates.get? t = some (.relabelled i (some links)) →
    links.Typed p.target.schema t.kind
  added : ∀ {a links}, a ∈ s.plan.additions → a.links = some links → links.Typed p.target.schema a.incoming.kind

/-- What is written down stays typed. -/
def Types (p : Pass) (s s' : Progress) : Prop := s.Typed p → s'.Typed p

instance : Std.Refl (Types p) where
  refl _ h := h

instance : IsTrans Progress (Types p) where
  trans _ _ _ h h' hs := h' (h hs)

theorem types_setTarget {f : TargetFate}
    (hlinks : ∀ {i links}, f = .relabelled i (some links) → links.Typed p.target.schema t.kind) :
    Types p s (s.setTarget t f) := fun hs => {
  place := hs.place
  relabelled := fun {u i links} h => by
    rw [setTarget, SortedMap.get?_insert] at h
    split at h
    · next heq => exact heq ▸ hlinks (Option.some.inj h)
    · exact hs.relabelled h
  added := hs.added }

theorem types_setIncoming {f : IncomingFate} (hplace : ∀ q, f.asParent i = some q → q.kind = i.kind) :
    Types p s (s.setIncoming i f) := fun hs => {
  place := fun {j g q} h hq => by
    rw [setIncoming, SortedMap.get?_insert] at h
    split at h
    · next heq =>
      subst heq
      exact hplace q (Option.some.inj h ▸ hq)
    · exact hs.place h hq
  relabelled := hs.relabelled
  added := hs.added }

theorem types_schedule (s : Progress) (t : EntityId) (o : Operation) : Types p s (s.schedule t o) :=
  fun hs => ⟨hs.place, hs.relabelled, hs.added⟩

theorem types_index (s : Progress) (i j : ContentIndex) : Types p s { s with targetIndex := i, incomingIndex := j } :=
  fun hs => ⟨hs.place, hs.relabelled, hs.added⟩

end Progress

namespace Planning

/-- **A computation that succeeds keeps what is written down typed**, and ends with `post`. -/
abbrev Typing {α : Type} (p : Pass) (x : Planning α) (s : Progress) (post : α → Prop) : Prop :=
  Leads (Progress.Types p) x s (fun a _ => post a) fun _ => True

variable {p : Pass} {s : Progress} {t i : EntityId} {links : Option PlannedLinks}

/-! ## Decisions -/

theorem relabel_typing (hkind : t.kind = i.kind) (hlinks : ∀ l, links = some l → l.Typed p.target.schema t.kind) :
    Typing p (relabel t i links) s fun _ => True :=
  .of_success fun h => by
    obtain ⟨-, -, -, rfl⟩ := relabel_ok_iff.1 h
    have htarget : Types p (s.schedule t (.relabel i links))
        ((s.schedule t (.relabel i links)).setTarget t (.relabelled i links)) :=
      types_setTarget fun heq => hlinks _ (TargetFate.relabelled.inj heq).2
    have hincoming := types_setIncoming (p := p) (i := i) (f := .relabels t)
      (s := (s.schedule t (.relabel i links)).setTarget t (.relabelled i links)) fun q hq => Option.some.inj hq ▸ hkind
    exact ⟨trans_of _ (trans_of _ (types_schedule s t (.relabel i links)) htarget) hincoming, trivial⟩

theorem remove_typing {incoming : Option EntityId} : Typing p (remove t incoming) s fun _ => True :=
  .of_success fun h => by
    refine ⟨?_, trivial⟩
    have htarget : Types p (s.schedule t .remove) ((s.schedule t .remove).setTarget t .removed) :=
      types_setTarget fun heq => by cases heq
    have hfirst := trans_of (Types p) (types_schedule s t .remove) htarget
    cases incoming with
    | none =>
      obtain ⟨-, -, rfl⟩ := remove_none_ok_iff.1 h
      exact hfirst
    | some i =>
      obtain ⟨-, -, -, rfl⟩ := remove_some_ok_iff.1 h
      exact trans_of _ hfirst (types_setIncoming fun q hq => by cases hq)

theorem keep_none_typing : Typing p (keep t none) s fun _ => True :=
  .of_success fun h => by
    obtain ⟨-, rfl⟩ := keep_none_ok_iff.1 h
    exact ⟨types_setTarget fun heq => (by cases heq), trivial⟩

theorem keep_some_typing (hkind : t.kind = i.kind) : Typing p (keep t (some i)) s fun _ => True :=
  .of_success fun h => by
    obtain ⟨-, -, rfl⟩ := keep_some_ok_iff.1 h
    have htarget : Types p s (s.setTarget t (.kept (some i))) := types_setTarget fun heq => by cases heq
    exact ⟨trans_of _ htarget (types_setIncoming fun q hq => Option.some.inj hq ▸ hkind), trivial⟩

theorem setIncomingFate_typing {f : IncomingFate} (hplace : ∀ q, f.asParent i = some q → q.kind = i.kind) :
    Typing p (setIncomingFate i f) s fun _ => True :=
  .of_success fun h => by
    obtain ⟨-, rfl⟩ := setIncomingFate_ok_iff.1 h
    exact ⟨types_setIncoming hplace, trivial⟩

theorem lose_typing : Typing p (lose i) s fun _ => True := setIncomingFate_typing fun _ hq => by cases hq

end Planning

namespace Pass

variable {p : Pass} {resolve : Resolver} {addSubtree : Adder} {s : Progress} {t i : EntityId} {data : Entity}

/-! ## Pairs -/

theorem unpaired_typing : Typing p (p.unpaired t) s fun _ => True := by
  refine .looking acceptsTarget_ok_iff.1 fun accepted _ => ?_
  cases accepted with
  | true => exact .bind remove_typing fun _ _ _ _ => .pure trivial
  | false => exact .bind keep_none_typing fun _ _ _ _ => .pure trivial

theorem settlePair_typing {links : Option PlannedLinks} (hkind : t.kind = i.kind)
    (hlinks : ∀ l, links = some l → l.Typed p.target.schema t.kind) :
    Typing p (p.settlePair t i links) s fun _ => True := by
  refine .looking acceptsTarget_ok_iff.1 fun targetAccepted _ => .looking acceptsIncoming_ok_iff.1 fun accepted _ => ?_
  cases accepted with
  | true => exact .bind (relabel_typing hkind hlinks) fun _ _ _ _ => .pure trivial
  | false =>
    cases targetAccepted with
    | true => exact .bind remove_typing fun _ _ _ _ => .pure trivial
    | false => exact .bind (keep_some_typing hkind) fun _ _ _ _ => .pure trivial

theorem findInIncoming_typing {skip : EntityId → Bool} : Typing p (p.findInIncoming data skip) s fun r =>
    ∀ i, r = some i → ∃ d, p.incoming.entity i = .ok d ∧ d.sameContent data = true :=
  .of_success fun h => by
    simp only [findInIncoming, get_bind, modify_bind] at h
    obtain ⟨hfound, rfl⟩ := lookup_ok_iff.1 h
    exact ⟨types_index s _ _, fun i hi => (Graph.firstMatch_some (hi ▸ hfound)).2.2⟩

theorem settleRootPair_typing {found : Option EntityId} (hkind : ∀ i, found = some i → t.kind = i.kind) :
    Typing p (p.settleRootPair t found) s fun _ => True := by
  cases found with
  | none => exact unpaired_typing
  | some i => exact settlePair_typing (hkind i rfl) fun _ h => by cases h

/-- A root is paired with an entity of its kind: one of equal content, or the owner of its natural key. -/
theorem pairRoot_typing (hp : p.Consistent) : Typing p (p.pairRoot t) s fun _ => True := by
  refine .looking lookup_ok_iff.1 fun e he => .get_bind ?_
  cases hkey : p.target.schema.naturalKey? e with
  | none =>
    refine .bind findInIncoming_typing fun found s₁ _ hfound => settleRootPair_typing fun i hi => ?_
    obtain ⟨d, hd, hsame⟩ := hfound i hi
    exact kind_eq_of_sameContent hp he hd (sameContent_comm hsame)
  | some key =>
    refine .bind_look (pure_run _ s) (settleRootPair_typing fun i hi => ?_)
    obtain ⟨n, hn, hnkey⟩ := hp.incoming.owner.1 (Option.filter_eq_some_iff.1 hi).1
    rw [← hp.target.kind_eq he, ← hp.incoming.kind hn, ← kind_of_naturalKey? hkey, kind_of_naturalKey? hnkey]

/-- **Roots have places of their kind, and typed links are given to additions.** -/
structure Typist (p : Pass) (resolve : Resolver) (addSubtree : Adder) : Prop where
  root : ∀ {r s}, s.Typed p → Typing p (resolve r) s fun q => ∀ x, q = some x → x.kind = r.kind
  add : ∀ {i links s}, s.Typed p → (∀ l, links = some l → l.Typed p.target.schema i.kind) →
    Typing p (addSubtree links i) s fun _ => True

/-! ## Locating -/

theorem firstTargetChild_kind (hp : p.Consistent) (hd : p.incoming.entity i = .ok data) {links : PlannedLinks}
    {found : Option EntityId} {s' : Progress} (h : p.firstTargetChild data links s = .ok found s') :
    (∀ t, found = some t → t.kind = i.kind) ∧ s' = s := by
  obtain ⟨hfound, rfl⟩ := firstTargetChild_ok h
  refine ⟨fun t ht => ?_, rfl⟩
  obtain ⟨e, he, hsame⟩ := hfound t ht
  exact kind_eq_of_sameContent hp he hd hsame

theorem locateUnder_typing (hp : p.Consistent) {links : PlannedLinks} : Typing p (p.locateUnder i links) s fun q =>
    ∀ x, q = some x → x.kind = i.kind := by
  refine .looking lookup_ok_iff.1 fun data hd => .looking (firstTargetChild_kind hp hd) fun found hfound => ?_
  cases found with
  | some t => exact .pure fun x hx => Option.some.inj hx ▸ hfound t rfl
  | none =>
    refine .looking acceptsIncoming_ok_iff.1 fun accepted _ => ?_
    split
    · exact .pure fun x hx => Option.some.inj hx ▸ rfl
    · exact .pure fun x hx => by cases hx

mutual
theorem locate_typing (hp : p.Consistent) (hT : Typist p resolve addSubtree) : ∀ {t : Track} {s : Progress},
    s.Typed p → Typing p (p.locate resolve t) s fun q => ∀ x, q = some x → x.kind = t.entity.kind
  | .node id parents, s, hs => by
    rw [locate]
    refine .get_bind ?_
    cases hf : s.incomingFates.get? id with
    | some f => exact .pure fun x hx => hs.place hf hx
    | none =>
      cases parents with
      | nil => exact hT.root hs
      | cons l rest =>
        refine .bind (locateAll_typing hp hT hs) fun links s₁ h₁ _ => .get_bind ?_
        cases hf₁ : s₁.incomingFates.get? id with
        | some f => exact .pure fun x hx => (h₁ hs).place hf₁ hx
        | none => exact locateUnder_typing hp
theorem locateAll_typing (hp : p.Consistent) (hT : Typist p resolve addSubtree) : ∀ {l : List (Connection × Track)}
    {links : PlannedLinks} {s : Progress}, s.Typed p → Typing p (p.locateAll resolve links l) s fun links' =>
      ∀ {schema kind}, links.Typed schema kind → (∀ x ∈ l, x.1.Joins schema kind x.2.entity.kind) →
        links'.Typed schema kind
  | [], _, _, _ => .pure fun h _ => h
  | (c, t) :: rest, links, s, hs => by
    rw [locateAll]
    refine .bind (locate_typing hp hT hs) fun q s₁ h₁ hq => ?_
    cases q with
    | none =>
      refine (locateAll_typing hp hT (h₁ hs)).mono (fun _ _ _ h => ?_) fun _ h => h
      exact fun hlinks hl => h hlinks (List.forall_mem_cons.1 hl).2
    | some q =>
      refine (locateAll_typing hp hT (h₁ hs)).mono (fun _ _ _ h => ?_) fun _ h => h
      refine fun {schema kind} hlinks hl => h (hlinks.link ?_) (List.forall_mem_cons.1 hl).2
      rw [hq q rfl]
      exact hl _ List.mem_cons_self
end

/-! ## Pairing -/

/-- **The links of a pair are typed**: they lead to parents of the target entity and to places of the counterpart's
parents, and the two are of one kind. -/
theorem findPair_typing (hp : p.Consistent) (hT : Typist p resolve addSubtree) (hs : s.Typed p)
    (hd : p.target.entity t = .ok data) {parents : List ResolvedParent}
    (hparents : ∀ r ∈ parents, p.target.HasLink t r.connection r.target) :
    Typing p (p.findPair resolve data parents) s fun found => ∀ i links, found = some (i, links) →
      t.kind = i.kind ∧ links.Typed p.target.schema t.kind := by
  refine .look (x := p.firstHit data parents) (P := fun hit => ∀ i r later, hit = some (i, r, later) →
      t.kind = i.kind ∧ r ∈ parents ∧ later ⊆ parents) (fun h => ⟨fun i r later heq => ?_, (firstHit_ok h).2⟩)
      (fun _ => trivial) fun hit hhit => ?_
  · obtain ⟨e, he, hsame⟩ := (firstHit_ok h).1 _ heq
    obtain ⟨hr, hlater, -⟩ := firstHit_hasLink (heq ▸ h)
    exact ⟨kind_eq_of_sameContent hp hd he (sameContent_comm hsame), hr, hlater⟩
  cases hit with
  | none => exact .pure fun _ _ h => by cases h
  | some hit =>
    obtain ⟨i, r, later⟩ := hit
    obtain ⟨hkind, hr, hlater⟩ := hhit i r later rfl
    refine .look (fun h => ⟨linkLater_hasLink h, (linkLater_ok h).2⟩) (fun _ => trivial) fun old hold => ?_
    refine .looking track_ok_iff.1 fun track htrack => ?_
    obtain ⟨hof, rfl⟩ := Track.ofGraph_of htrack
    refine .bind (locateAll_typing hp hT hs) fun links s₁ h₁ hlinks => .pure fun j l heq => ?_
    obtain ⟨rfl, rfl⟩ := Prod.mk.inj (Option.some.inj heq)
    have hfirst : PlannedLinks.Typed p.target.schema t.kind (PlannedLinks.link [] r.connection (.target r.target)) :=
      PlannedLinks.typed_nil.link ((hparents r hr).joins hp.target)
    -- some links lead to parents of the target entity, the others to places of its counterpart's parents
    refine ⟨hkind, hlinks (fun c x hx => ?_) fun x hx => ?_⟩
    · rcases hold.2 hx with hx | ⟨r', hr', rfl, rfl, -⟩
      · exact hfirst c x hx
      · exact (hparents r' (hlater hr')).joins hp.target
    · rw [hkind, hp.schema]
      exact (hof.hasLink_iff.2 ⟨x, hx, rfl, rfl⟩).joins hp.incoming

theorem pairUnder_typing (hp : p.Consistent) (hT : Typist p resolve addSubtree) (hs : s.Typed p)
    {parents : List ResolvedParent} (hparents : ∀ r ∈ parents, p.target.HasLink t r.connection r.target) :
    Typing p (p.pairUnder resolve t parents) s fun _ => True := by
  refine .looking lookup_ok_iff.1 fun e he => .bind (findPair_typing hp hT hs he hparents) fun found s₁ _ hfound => ?_
  cases found with
  | none => exact unpaired_typing
  | some found =>
    obtain ⟨i, links⟩ := found
    obtain ⟨hkind, hlinks⟩ := hfound i links rfl
    refine .get_bind ?_
    split
    · exact unpaired_typing
    · exact settlePair_typing hkind fun l heq => Option.some.inj heq ▸ hlinks

mutual
theorem pair_typing (hp : p.Consistent) (hT : Typist p resolve addSubtree) : ∀ {t : Track} {s : Progress},
    t.Of p.target → s.Typed p → Typing p (p.pair resolve t) s fun _ => True
  | .node id parents, s, hof, hs => by
    rw [pair]
    refine .bind (pairAll_typing hp hT hof.above hs) fun resolved s₁ h₁ hresolved => .get_bind ?_
    cases s₁.targetFates.get? id with
    | some f => exact .pure trivial
    | none =>
      dsimp only
      split
      · exact pairRoot_typing hp
      · refine pairUnder_typing hp hT (h₁ hs) fun r hr => ?_
        obtain ⟨x, hx, hconnection, htarget⟩ := hresolved r hr
        exact hof.hasLink_iff.2 ⟨x, hx, hconnection, htarget⟩
theorem pairAll_typing (hp : p.Consistent) (hT : Typist p resolve addSubtree) : ∀ {l : List (Connection × Track)}
    {s : Progress}, (∀ x ∈ l, x.2.Of p.target) → s.Typed p → Typing p (p.pairAll resolve l) s fun resolved =>
      ∀ r ∈ resolved, ∃ x ∈ l, x.1 = r.connection ∧ x.2.entity = r.target
  | [], _, _, _ => .pure fun _ h => by cases h
  | (c, t) :: rest, s, hof, hs => by
    rw [pairAll]
    refine .bind (pair_typing hp hT (hof _ List.mem_cons_self) hs) fun counterpart s₁ h₁ _ => ?_
    refine .bind (pairAll_typing hp hT (fun x hx => hof x (List.mem_cons_of_mem _ hx)) (h₁ hs)) ?_
    refine fun resolved s₂ _ hresolved => .pure (List.forall_mem_cons.2 ⟨⟨_, List.mem_cons_self, rfl, rfl⟩, ?_⟩)
    exact fun r hr => List.exists_mem_cons_of_exists (hresolved r hr)
end

theorem settleIncoming_typing {links : Option PlannedLinks} (hkind : t.kind = i.kind)
    (hlinks : ∀ l, links = some l → l.Typed p.target.schema i.kind) :
    Typing p (p.settleIncoming i t links) s fun q => ∀ x, q = some x → x.kind = i.kind := by
  refine .looking acceptsTarget_ok_iff.1 fun targetAccepted _ => ?_
  cases targetAccepted with
  | true => exact .of_error (throw_run _ s) trivial
  | false =>
    refine .looking acceptsIncoming_ok_iff.1 fun accepted _ => ?_
    cases accepted with
    | true =>
      refine .bind (relabel_typing hkind fun l hl => hkind ▸ hlinks l hl) fun _ _ _ _ => .pure fun x hx => ?_
      exact Option.some.inj hx ▸ hkind
    | false => exact .bind (keep_some_typing hkind) fun _ _ _ _ => .pure fun x hx => Option.some.inj hx ▸ hkind

theorem placeUnder_typing (hp : p.Consistent) (hT : Typist p resolve addSubtree) (hs : s.Typed p) {links : PlannedLinks}
    (hlinks : links.Typed p.target.schema i.kind) :
    Typing p (p.placeUnder addSubtree i links) s fun q => ∀ x, q = some x → x.kind = i.kind := by
  have hgiven : ∀ l, some links = some l → l.Typed p.target.schema i.kind := fun l heq => Option.some.inj heq ▸ hlinks
  refine .looking lookup_ok_iff.1 fun data hd => .looking (firstTargetChild_kind hp hd) fun found hfound => ?_
  cases found with
  | some t => exact settleIncoming_typing (hfound t rfl) hgiven
  | none =>
    refine .looking acceptsIncoming_ok_iff.1 fun accepted _ => ?_
    cases accepted with
    | true => exact .bind (hT.add hs hgiven) fun _ _ _ _ => .pure fun x hx => Option.some.inj hx ▸ rfl
    | false => exact .bind lose_typing fun _ _ _ _ => .pure fun x hx => by cases hx

mutual
theorem place_typing (hp : p.Consistent) (hT : Typist p resolve addSubtree) : ∀ {t : Track} {s : Progress},
    t.Of p.incoming → s.Typed p → Typing p (p.place resolve addSubtree t) s fun q => ∀ x, q = some x → x.kind = t.entity.kind
  | .node id parents, s, hof, hs => by
    rw [place]
    refine .get_bind ?_
    cases hf : s.incomingFates.get? id with
    | some f => exact .pure fun x hx => hs.place hf hx
    | none =>
      cases parents with
      | nil => exact hT.root hs
      | cons l rest =>
        refine .bind (placeAll_typing hp hT hof.above hs) fun links s₁ h₁ hlinks => .get_bind ?_
        cases hf₁ : s₁.incomingFates.get? id with
        | some f => exact .pure fun x hx => (h₁ hs).place hf₁ hx
        | none =>
          dsimp only
          split
          · exact .bind lose_typing fun _ _ _ _ => .pure fun x hx => by cases hx
          · refine placeUnder_typing hp hT (h₁ hs) (hlinks PlannedLinks.typed_nil fun x hx => ?_)
            rw [hp.schema]
            exact (hof.hasLink_iff.2 ⟨x, hx, rfl, rfl⟩).joins hp.incoming
theorem placeAll_typing (hp : p.Consistent) (hT : Typist p resolve addSubtree) : ∀ {l : List (Connection × Track)}
    {links : PlannedLinks} {s : Progress}, (∀ x ∈ l, x.2.Of p.incoming) → s.Typed p →
    Typing p (p.placeAll resolve addSubtree links l) s fun links' => ∀ {schema kind}, links.Typed schema kind →
      (∀ x ∈ l, x.1.Joins schema kind x.2.entity.kind) → links'.Typed schema kind
  | [], _, _, _, _ => .pure fun h _ => h
  | (c, t) :: rest, links, s, hof, hs => by
    have hof' : ∀ x ∈ rest, x.2.Of p.incoming := fun x hx => hof x (List.mem_cons_of_mem _ hx)
    rw [placeAll]
    refine .bind (place_typing hp hT (hof _ List.mem_cons_self) hs) fun q s₁ h₁ hq => ?_
    cases q with
    | none =>
      refine (placeAll_typing hp hT hof' (h₁ hs)).mono (fun _ _ _ h => ?_) fun _ h => h
      exact fun hlinks hl => h hlinks (List.forall_mem_cons.1 hl).2
    | some q =>
      refine (placeAll_typing hp hT hof' (h₁ hs)).mono (fun _ _ _ h => ?_) fun _ h => h
      refine fun {schema kind} hlinks hl => h (hlinks.link ?_) (List.forall_mem_cons.1 hl).2
      rw [hq q rfl]
      exact hl _ List.mem_cons_self
end

/-! ## A whole pass -/

end Pass
end Reconciliation
