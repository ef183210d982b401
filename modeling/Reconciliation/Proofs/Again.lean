import Reconciliation.Proofs.Pairings
import Reconciliation.Proofs.Parents
/-!
# A pass made again

After a pass that has carried out a matching that lasts, each place of the matching has got to an entity
(`Pass.PlacedAt`).  It has the data of the incoming entity or is left alone with its mate (`Settled.data_of_placedAt`), and
its parents are those of the incoming entity (`Settled.link_iff`).  So the target is at rest (`Settled.atRest`), and the
same incoming graph changes nothing any more (`reconcile_again`).  Where the matching does not last, it may: what gets no
link to a parent that was copied after it gets that link the next time (`diamondPass_relinks`).
-/
namespace Reconciliation

open Reconciliation.Graph Relation Progress

namespace Graph

theorem isRoot_iff {g : Graph} {x : EntityId} : g.IsRoot x ↔ g.contains x = true ∧ ∀ c y, ¬g.HasLink x c y := by
  constructor
  · exact fun h => ⟨h.contains, fun _ _ => h.not_hasLink⟩
  · rintro ⟨hx, hnone⟩
    obtain ⟨n, hn⟩ := contains_iff.1 hx
    exact ⟨n, hn, List.eq_nil_iff_forall_not_mem.2 fun l hl => hnone l.1 l.2 ⟨n, hn, hl⟩⟩

end Graph

namespace Pass

/-- The incoming graph against itself. -/
def self (p : Pass) : Pass := p.incoming.passFrom p.incoming p.accepts

/-- The same incoming graph, against another target. -/
def next (p : Pass) (g : Graph) : Pass := g.passFrom p.incoming p.accepts

theorem Consistent.self {p : Pass} (hp : p.Consistent) : p.self.Consistent := ⟨hp.incoming, hp.incoming, rfl⟩

section

variable {p r : Pass} {t t' i k : EntityId}

theorem answers_congr (hp : p.Consistent) (hr : r.Consistent) (hincoming : p.incoming = r.incoming)
    (hdata : p.target.data? t = r.target.data? t') : p.Answers t i ↔ r.Answers t' i := by
  rw [answers_iff hp, answers_iff hr, hp.schema, hr.schema, hincoming]
  simp only [entity_ok_iff_data, hdata]

theorem sameContent_congr (hincoming : p.incoming = r.incoming) (hdata : p.target.data? t = r.target.data? t') :
    p.SameContent t i ↔ r.SameContent t' i := by
  rw [SameContent, SameContent, hincoming]
  simp only [entity_ok_iff_data, hdata]

theorem Answers.join (hp : p.Consistent) (h : p.Answers t k) (h' : p.Answers t i) :
    p.self.Answers k i := by
  obtain ⟨e, d, he, hd, hkeys, hsame⟩ := (answers_iff hp).1 h
  obtain ⟨e', d', he', hd', hkeys', hsame'⟩ := (answers_iff hp).1 h'
  obtain rfl := Except.ok.inj (he.symm.trans he')
  rw [hp.schema] at hkeys hsame hkeys' hsame'
  refine (answers_iff (p := p.self) hp.self).2 ⟨d, d', hd, hd', hkeys.symm.trans hkeys', fun hnone => ?_⟩
  obtain ⟨hkind, hattributes⟩ := sameContent_iff.1 (hsame (hkeys.symm.trans (hkeys'.trans hnone)))
  obtain ⟨hkind', hattributes'⟩ := sameContent_iff.1 (hsame' hnone)
  exact sameContent_iff.2 ⟨hkind.symm.trans hkind', hattributes.symm.trans hattributes'⟩

end

/-- **Where the place of an incoming entity has got to.** -/
def PlacedAt (p : Pass) (mates : EntityId → EntityId → Prop) (s : Applying) (x i : EntityId) : Prop :=
  ∃ q, p.HasPlace mates i q ∧ s.Names p.target q x

end Pass

/-- **A target that is what a lasting matching makes of it**, and no rename has changed what is left alone. -/
structure Settled (p : Pass) (mates : EntityId → EntityId → Prop) (renames : List Rename) (s : Applying) : Prop
    extends Fulfilled p mates renames s where
  lasting : p.Lasting mates
  refs : ∀ {t e}, p.TargetIs false t → (∀ {i}, mates t i → p.IncomingIs false i) → p.target.entity t = .ok e →
    e.renameAll renames = e

namespace Settled

open Pass

variable {p : Pass} {mates : EntityId → EntityId → Prop} {renames : List Rename} {s : Applying} {i j : EntityId}
  {c : Connection} {q : PlannedParent} {x y : EntityId}

/-! ## What is in its place -/

theorem exists_placedAt (hp : p.Consistent) (hs : Settled p mates renames s) (h : p.HasPlace mates i q) :
    ∃ x, p.PlacedAt mates s x i := by
  have hname : ∃ x, s.Names p.target q x := by
    cases h with
    | @mate t i mate _ => exact ⟨t, (hs.lasting.contains hp mate).1, rfl⟩
    | root root accepted free => exact hs.copied_iff.2 (.root root accepted free)
    | child link parent accepted free => exact hs.copied_iff.2 (.child link parent accepted free)
  obtain ⟨x, hx⟩ := hname
  exact ⟨x, q, h, hx⟩

theorem contains (hs : Settled p mates renames s) (h : p.PlacedAt mates s x i) : s.graph.contains x = true := by
  obtain ⟨q, hplace, hx⟩ := h
  rw [← Bool.not_eq_false, hs.gone_iff hx]
  exact hs.lasting.not_goes hplace

theorem target_unique (hs : Settled p mates renames s) {x' : EntityId} (h : p.PlacedAt mates s x i)
    (h' : p.PlacedAt mates s x' i) : x = x' := by
  obtain ⟨q, hplace, hx⟩ := h
  obtain ⟨q', hplace', hx'⟩ := h'
  obtain rfl := hplace.unique hs.lasting.toMatching hplace'
  exact hx.eq hx'

theorem incoming_unique (hs : Settled p mates renames s) {i' : EntityId} (h : p.PlacedAt mates s x i)
    (h' : p.PlacedAt mates s x i') : i = i' := by
  obtain ⟨q, hplace, hx⟩ := h
  obtain ⟨q', hplace', hx'⟩ := h'
  obtain rfl := hs.unique hx hx'
  cases hplace with
  | mate mate _ => exact hs.lasting.incoming_unique mate (hasPlace_target_iff.1 hplace').1
  | root | child =>
    cases hplace' with
    | root | child => rfl

/-- **In its place an entity has the parents of the incoming one**, in their places. -/
theorem link_iff (hs : Settled p mates renames s) (h : p.PlacedAt mates s x i) :
    s.graph.HasLink x c y ↔ ∃ j, p.incoming.HasLink i c j ∧ p.PlacedAt mates s y j := by
  have hthere := hs.contains h
  obtain ⟨q, hplace, hx⟩ := h
  rw [hs.hasLink_iff hx hthere]
  constructor
  · rintro ⟨q', hlink, hy, -⟩
    obtain ⟨j, hlink, hplace'⟩ := (hs.lasting.finalLink_iff hplace).1 hlink
    exact ⟨j, hlink, q', hplace', hy⟩
  · rintro ⟨j, hlink, q', hplace', hy⟩
    exact ⟨q', (hs.lasting.finalLink_iff hplace).2 ⟨j, hlink, hplace'⟩, hy, hs.contains ⟨q', hplace', hy⟩⟩

theorem taken_or_alone (hs : Settled p mates renames s) (hx : s.graph.contains x = true) :
    (∃ i, p.IncomingIs true i ∧ p.PlacedAt mates s x i ∧ s.graph.data? x = p.incoming.data? i) ∨
    (s.Names p.target (.target x) x ∧ p.TargetIs false x ∧ (∀ {i}, mates x i → p.IncomingIs false i) ∧
      s.graph.data? x = p.target.data? x) := by
  obtain ⟨q, hq⟩ := hs.named hx
  obtain ⟨e, he⟩ := exists_entity hx
  rw [entity_ok_iff_data] at he
  have hdata := hs.data hq he
  rw [he]
  cases hdata with
  | given mate accepted data =>
    rw [entity_ok_iff_data] at data
    exact .inl ⟨_, accepted, ⟨_, .mate mate (.inr accepted), hq⟩, data.symm⟩
  | @copied i _ data =>
    have hplace := hs.copied_iff.1 ⟨x, hq⟩
    have haccepted : p.IncomingIs true i := by
      cases hplace with
      | root _ accepted _ => exact accepted
      | child _ _ accepted _ => exact accepted
    rw [entity_ok_iff_data] at data
    exact .inl ⟨i, haccepted, ⟨_, hplace, hq⟩, data.symm⟩
  | alone rejected rejected' data =>
    obtain ⟨hthere, rfl⟩ := hq
    rw [hs.refs rejected rejected' data]
    exact .inr ⟨⟨hthere, rfl⟩, rejected, rejected', (entity_ok_iff_data.1 data).symm⟩

theorem data_of_placedAt (hs : Settled p mates renames s) (h : p.PlacedAt mates s x i) :
    (p.IncomingIs true i ∧ s.graph.data? x = p.incoming.data? i) ∨
    (mates x i ∧ p.TargetIs false x ∧ p.IncomingIs false i ∧ s.graph.data? x = p.target.data? x) := by
  rcases hs.taken_or_alone (hs.contains h) with ⟨k, accepted, hk, hdata⟩ | ⟨hname, rejected, rejected', hdata⟩
  · obtain rfl := hs.incoming_unique h hk
    exact .inl ⟨accepted, hdata⟩
  · obtain ⟨q, hplace, hx⟩ := h
    obtain rfl := hs.unique hx hname
    obtain ⟨mate, -⟩ := hasPlace_target_iff.1 hplace
    exact .inr ⟨mate, rejected, rejected' mate, hdata⟩

/-! ## The same pass once more -/

theorem consistent_again (hp : p.Consistent) (hs : Settled p mates renames s) :
    (p.next s.graph).Consistent := ⟨hs.consistent, hp.incoming, hs.schema.trans hp.schema⟩

theorem stays_again (hs : Settled p mates renames s) (h : p.PlacedAt mates s x i) :
    (p.next s.graph).Stays x i := by
  rcases hs.data_of_placedAt h with ⟨accepted, -⟩ | ⟨-, ⟨e, he, hrejected⟩, -, hdata⟩
  · exact .inr accepted
  · rw [entity_ok_iff_data, ← hdata] at he
    exact .inl ⟨e, entity_ok_iff_data.2 he, hrejected⟩

theorem placedAt_above (hp : p.Consistent) (hs : Settled p mates renames s) (h : p.PlacedAt mates s x i)
    (hlink : p.incoming.HasLink i c j) : ∃ y, p.PlacedAt mates s y j ∧ s.graph.HasLink x c y := by
  obtain ⟨q, hplace, -⟩ := id h
  obtain ⟨q', hplace'⟩ := hs.lasting.place_above hplace hlink
  obtain ⟨y, hy⟩ := hs.exists_placedAt hp hplace'
  exact ⟨y, hy, (hs.link_iff h).2 ⟨j, hlink, hy⟩⟩

theorem placedAt_of_mate (hp : p.Consistent) (hs : Settled p mates renames s) {t : EntityId} (mate : mates t i)
    (stays : p.Stays t i) : p.PlacedAt mates s t i :=
  ⟨_, .mate mate stays, (hs.lasting.contains hp mate).1, rfl⟩

theorem exists_accepted (hs : Settled p mates renames s)
    (h : (p.next s.graph).TargetIs true x) : ∃ i, p.PlacedAt mates s x i ∧ p.IncomingIs true i := by
  rcases hs.taken_or_alone h.contains with ⟨i, accepted, hx, -⟩ | ⟨-, ⟨e, he, hrejected⟩, -, hdata⟩
  · exact ⟨i, hx, accepted⟩
  · rw [entity_ok_iff_data, ← hdata, ← entity_ok_iff_data] at he
    cases h.unique (p := p.next s.graph) ⟨e, he, hrejected⟩

theorem placedAt_of_busy (hs : Settled p mates renames s) (h : (p.next s.graph).Busy x) :
    ∃ i, p.PlacedAt mates s x i := by
  obtain ⟨d, accepted, habove⟩ := h
  induction habove using ReflTransGen.head_induction_on with
  | refl =>
    obtain ⟨i, hi, -⟩ := hs.exists_accepted accepted
    exact ⟨i, hi⟩
  | head hparent _ ih =>
    obtain ⟨i, hi⟩ := ih
    obtain ⟨n, c, hn, hmem⟩ := hparent
    obtain ⟨j, -, hj⟩ := (hs.link_iff hi).1 ⟨n, hn, hmem⟩
    exact ⟨j, hj⟩

theorem placedAt_of_hasPlace (hp : p.Consistent) (hs : Settled p mates renames s)
    (h : (p.next s.graph).HasPlace (p.PlacedAt mates s) i q) : ∃ x, p.PlacedAt mates s x i := by
  -- a mate that is accepted stays
  have hmate : ∀ {t i}, p.IncomingIs true i → mates t i → ∃ x, p.PlacedAt mates s x i := fun accepted mate =>
    ⟨_, hs.placedAt_of_mate hp mate (.inr accepted)⟩
  induction h with
  | mate mate _ => exact ⟨_, mate⟩
  | @root i root accepted _ =>
    by_cases hfree : ∃ t, mates t i
    · exact hmate accepted hfree.choose_spec
    · exact hs.exists_placedAt hp (.root root accepted fun t ht => hfree ⟨t, ht⟩)
  | @child i j c q link _ accepted _ ih =>
    by_cases hfree : ∃ t, mates t i
    · exact hmate accepted hfree.choose_spec
    · obtain ⟨y, q', hplace, -⟩ := ih
      exact hs.exists_placedAt hp (.child link hplace accepted fun t ht => hfree ⟨t, ht⟩)

theorem contains_incoming (hp : p.Consistent) (hs : Settled p mates renames s) (h : p.PlacedAt mates s x i) :
    p.incoming.contains i = true := by
  obtain ⟨q, hplace, -⟩ := h
  cases hplace with
  | mate mate _ => exact (hs.lasting.toMatching.contains hp mate).2
  | root _ accepted _ => exact accepted.contains
  | child _ _ accepted _ => exact accepted.contains

theorem isRoot_iff (hp : p.Consistent) (hs : Settled p mates renames s) (h : p.PlacedAt mates s x i) :
    s.graph.IsRoot x ↔ p.incoming.IsRoot i := by
  rw [Graph.isRoot_iff, Graph.isRoot_iff]
  refine and_congr (iff_of_true (hs.contains h) (hs.contains_incoming hp h)) ⟨fun hnone c j hlink => ?_,
    fun hnone c y hlink => ?_⟩
  · obtain ⟨y, -, hlink'⟩ := hs.placedAt_above hp h hlink
    exact hnone c y hlink'
  · obtain ⟨j, hlink', -⟩ := (hs.link_iff h).1 hlink
    exact hnone c j hlink'

theorem atRest_self (hp : p.Consistent) (hs : Settled p mates renames s) :
    p.self.AtRest fun k i => k = i ∧ p.incoming.contains k = true :=
  hs.lasting.distinct.atRest hp.incoming p.accepts

theorem answers (hp : p.Consistent) (hs : Settled p mates renames s) (h : p.PlacedAt mates s x i)
    (root : p.incoming.IsRoot i) : (p.next s.graph).Answers x i := by
  have hp' := hs.consistent_again hp
  rcases hs.data_of_placedAt h with ⟨-, hdata⟩ | ⟨mate, -, -, hdata⟩
  · exact (answers_congr hp' (r := p.self) hp.self rfl hdata).2
      ((hs.atRest_self hp).answers ⟨rfl, root.contains⟩ root)
  · exact (answers_congr hp' hp rfl hdata).2 (hs.lasting.answers mate root)

theorem sameContent (hp : p.Consistent) (hs : Settled p mates renames s) (h : p.PlacedAt mates s x i)
    (nested : ¬p.incoming.IsRoot i) : (p.next s.graph).SameContent x i := by
  rcases hs.data_of_placedAt h with ⟨accepted, hdata⟩ | ⟨mate, -, -, hdata⟩
  · exact (sameContent_congr (p := p.next s.graph) (r := p.self) rfl hdata).2
      ((hs.atRest_self hp).sameContent ⟨rfl, accepted.contains⟩ nested)
  · exact (sameContent_congr (p := p.next s.graph) (r := p) rfl hdata).2 (hs.lasting.sameContent mate nested)

theorem incoming_root (hp : p.Consistent) (hs : Settled p mates renames s) (root : p.incoming.IsRoot i)
    (h : (p.next s.graph).Answers x i) : p.PlacedAt mates s x i := by
  have hp' := hs.consistent_again hp
  rcases hs.taken_or_alone (h.contains hp').1 with ⟨k, -, hk, hdata⟩ | ⟨-, rejected, -, hdata⟩
  · have hself := (answers_congr hp' (r := p.self) hp.self rfl
      hdata).1 h
    rwa [← hs.lasting.distinct.eq_of_answers hp.incoming (.inr root) hself]
  · exact hs.placedAt_of_mate hp (hs.lasting.incoming_root root ((answers_congr hp' hp rfl hdata).1 h)) (.inl rejected)

theorem target_root (hp : p.Consistent) (hs : Settled p mates renames s) (root : s.graph.IsRoot x)
    (busy : (p.next s.graph).Busy x)
    (h : (p.next s.graph).Answers x i) : p.PlacedAt mates s x i := by
  obtain ⟨k, hk⟩ := hs.placedAt_of_busy busy
  have hroot := (hs.isRoot_iff hp hk).1 root
  have hself := (hs.answers hp hk hroot).join (hs.consistent_again hp) h
  rwa [← hs.lasting.distinct.eq_of_answers hp.incoming (.inl hroot) hself]

theorem child (hp : p.Consistent) (hs : Settled p mates renames s) (hlink : s.graph.HasLink x c y)
    (hlink' : p.incoming.HasLink i c j) (parent : p.PlacedAt mates s y j)
    (h : (p.next s.graph).SameContent x i) : p.PlacedAt mates s x i := by
  have hthere := h.contains.1
  rcases hs.taken_or_alone hthere with ⟨k, accepted, hk, hdata⟩ | ⟨hname, rejected, rejected', hdata⟩
  · -- it is in the place of a sibling with the same content
    have hrest := hs.atRest_self hp
    obtain ⟨j', hklink, hj'⟩ := (hs.link_iff hk).1 hlink
    obtain rfl := hs.incoming_unique parent hj'
    obtain ⟨u, hu, stays⟩ := hrest.above ⟨rfl, accepted.contains⟩ hklink
    obtain ⟨rfl, -⟩ := id hu
    have hself := (sameContent_congr (p := p.next s.graph) (r := p.self) rfl hdata).1 h
    obtain ⟨rfl, -⟩ := hrest.child hklink hlink' hu stays hself
    exact hk
  · obtain ⟨q', hfinal, hy, -⟩ := (hs.hasLink_iff hname hthere).1 hlink
    cases hfinal with
    | given mate accepted _ _ => cases accepted.unique (rejected' mate)
    | kept link _ =>
      obtain ⟨q, hplace, hy'⟩ := parent
      obtain rfl := hs.unique hy hy'
      obtain ⟨mate, stays⟩ := hasPlace_target_iff.1 hplace
      have hsame := (sameContent_congr (p := p.next s.graph) (r := p) rfl hdata).1 h
      exact hs.placedAt_of_mate hp (hs.lasting.child link hlink' mate stays hsame) (.inl rejected)

theorem not_placedAt (hp : p.Consistent) (hs : Settled p mates renames s) (accepted : p.IncomingIs true i)
    (free : ∀ x, ¬p.PlacedAt mates s x i) : (∀ t, ¬mates t i) ∧ ∀ q, ¬p.HasPlace mates i q := by
  refine ⟨fun t mate => free t (hs.placedAt_of_mate hp mate (.inr accepted)), fun q hplace => ?_⟩
  obtain ⟨x, hx⟩ := hs.exists_placedAt hp hplace
  exact free x hx

/-- **A target that is what a lasting matching makes of it is at rest.** -/
theorem atRest (hp : p.Consistent) (hs : Settled p mates renames s) :
    (p.next s.graph).AtRest (p.PlacedAt mates s) where
  target_unique := hs.target_unique
  incoming_unique := hs.incoming_unique
  root_iff := hs.isRoot_iff hp
  answers := hs.answers hp
  sameContent := hs.sameContent hp
  shared {x i} h nested := by
    obtain ⟨n, hn⟩ := contains_iff.1 (hs.contains_incoming hp h)
    obtain ⟨⟨c, j⟩, hmem⟩ := List.exists_mem_of_ne_nil _ fun hnil => nested ⟨n, hn, hnil⟩
    obtain ⟨y, hy, hlink⟩ := hs.placedAt_above hp h ⟨n, hn, hmem⟩
    exact ⟨c, y, j, hlink, ⟨n, hn, hmem⟩, hy⟩
  above h hlink :=
    let ⟨y, hy, _⟩ := hs.placedAt_above hp h hlink
    ⟨y, hy, hs.stays_again hy⟩
  target_root := hs.target_root hp
  incoming_root := hs.incoming_root hp
  child hlink hlink' parent _ h := hs.child hp hlink hlink' parent h
  alone accepted free hlink hlink' hne := by
    obtain ⟨hmates, hnone⟩ := hs.not_placedAt hp accepted free
    rcases hs.lasting.alone accepted hmates hlink hlink' hne with ⟨u, mate, stays⟩ | ⟨u, mate, stays⟩
    · exact absurd (.child hlink (.mate mate stays) accepted hmates) (hnone _)
    · exact absurd (.child hlink' (.mate mate stays) accepted hmates) (hnone _)
  exact _ _ _ _ h hlink := hs.placedAt_above hp h hlink
  data h accepted := by
    rcases hs.data_of_placedAt h with ⟨-, hdata⟩ | ⟨-, -, rejected, -⟩
    · exact hdata
    · cases IncomingIs.unique accepted rejected
  links h _ hlink :=
    let ⟨j, hlink, hj⟩ := (hs.link_iff h).1 hlink
    ⟨j, hj, hlink⟩
  stays := hs.exists_accepted
  placed i h := by
    obtain ⟨x, hx⟩ := hs.placedAt_of_hasPlace hp h
    exact h.of_added.2 x hx

end Settled

/-! ## After a run -/

variable {p : Pass} {mates : EntityId → EntityId → Prop} {plan : Plan} {t : EntityId} {e : Entity}

theorem Plan.Follows.operation_none (hf : plan.Follows p mates) (rejected : p.TargetIs false t)
    (rejected' : ∀ {i}, mates t i → p.IncomingIs false i) : plan.operations.get? t = none := by
  cases hop : plan.operations.get? t with
  | none => rfl
  | some o =>
    cases o with
    | relabel i links =>
      obtain ⟨mate, accepted⟩ := hf.relabel_iff.1 ⟨links, hop⟩
      cases accepted.unique (rejected' mate)
    | remove => cases (hf.remove_iff.1 hop).1.unique rejected

theorem Entity.renameAll_eq_self : ∀ {renames : List Rename}, (∀ r ∈ renames, r.old ∉ e.refs) → e.renameAll renames = e
  | [], _ => rfl
  | r :: rest, h => by
    obtain ⟨hr, hrest⟩ := List.forall_mem_cons.1 h
    show (e.rename r.old r.new).renameAll rest = e
    rw [rename_eq_self hr, renameAll_eq_self hrest]

variable {sp : Progress} {fuel : Nat} {targetOrder incomingOrder : List EntityId} {o : Outcome} {applied : Applied} {g : Graph}

/-- **A pass made again changes nothing**, in whatever order, when the matching lasts and a plan decides about all that
refers to a key which it renames. -/
theorem reconcile_again (hp : p.Consistent) (hL : p.Lasting mates) (ho : p.Orders targetOrder incomingOrder)
    (hplan : p.planInOrder fuel targetOrder incomingOrder = .ok (sp, o)) (hplain : p.target.PlainKeys)
    (hcounted : p.target.Counted)
    (hrefs : ∀ r ∈ o.plan.renames, ∀ t ∈ p.target.referrers r.old, o.plan.operations.contains t = true)
    (happly : Graph.applyPlan p.incoming o.plan p.target = .ok applied g) (options : Options) :
    ∃ r g', Graph.reconcile p.incoming p.accepts options g = .ok r g' ∧ r.added = 0 ∧ r.removed = 0 ∧
      (ChangeSet.between g g').isEmpty = true := by
  have hf := Pass.planInOrder_follows hp hL.toMatching ho hplan
  obtain ⟨s, rfl, hs⟩ := applyPlan_completed hp ho hplan hplain hcounted happly
  have hsettled : Settled p mates o.plan.renames s := by
    refine ⟨hs.fulfilled hp hL.toMatching hf, hL, fun {t e} rejected rejected' he => Entity.renameAll_eq_self ?_⟩
    intro r hr hmem
    have hthere := hrefs r hr t (hp.target.referrer_iff.2 ⟨e, entity_ok_iff_data.1 he, hmem⟩)
    obtain ⟨_, hop⟩ := SortedMap.contains_iff.1 hthere
    cases hop.symm.trans (hf.operation_none rejected rejected')
  obtain ⟨r, g', hrun, hadded, hremoved, hsame⟩ := (hsettled.atRest hp).reconcile (hsettled.consistent_again hp) options
  exact ⟨r, g', hrun, hadded, hremoved, hsame.between⟩

/-- The child that was removed does not come back, and the two are not copied again. -/
theorem reconcile_again_replacingPass : ∃ o applied g, replacingPass.planInOrder replacingPass.fuel
      (replacingPass.target.visitOrder replacingPass.accepts .default)
      (replacingPass.incoming.visitOrder replacingPass.accepts .default) = .ok o ∧
    Graph.applyPlan replacingPass.incoming o.2.plan replacingPass.target = .ok applied g ∧
    applied.added = 2 ∧ applied.removed = 1 ∧
    ∃ r g', Graph.reconcile replacingPass.incoming replacingPass.accepts ⟨some 6⟩ g = .ok r g' ∧ r.added = 0 ∧
      r.removed = 0 ∧ (ChangeSet.between g g').isEmpty = true := by
  have hrun : ((replacingPass.planInOrder replacingPass.fuel
      (replacingPass.target.visitOrder replacingPass.accepts .default)
      (replacingPass.incoming.visitOrder replacingPass.accepts .default)).toOption.any fun o =>
        succeedsWith (Graph.applyPlan replacingPass.incoming o.2.plan replacingPass.target) fun applied _ =>
          decide (o.2.plan.renames = [] ∧ applied.added = 2 ∧ applied.removed = 1))
      = true := by
    decide +kernel
  obtain ⟨o, hplan, ho⟩ := exists_of_any hrun
  obtain ⟨applied, g, happly, hg⟩ := exists_of_succeedsWith ho
  obtain ⟨hnone, hadded, hremoved⟩ := of_decide_eq_true hg
  have hrefs : ∀ r ∈ o.2.plan.renames, ∀ t ∈ replacingPass.target.referrers r.old,
      o.2.plan.operations.contains t = true := fun r hr => by
    rw [hnone] at hr
    cases hr
  exact ⟨o, applied, g, hplan, happly, hadded, hremoved, reconcile_again replacingPass_consistent
    (replacingPass_listed.lasting replacingPass_consistent) (visitOrder_orders replacingPass .default) hplan
    replacingPass_plainKeys replacingPass_counted hrefs happly ⟨some 6⟩⟩

/-- **A pass made again can change the target**: the entity with two parents gets its link to the second one only now. -/
theorem diamondPass_relinks : diamondPass.Consistent ∧ ∃ r g r' g',
    Graph.reconcile diamondPass.incoming diamondPass.accepts .default diamondPass.target = .ok r g ∧
    Graph.reconcile diamondPass.incoming diamondPass.accepts .default g = .ok r' g' ∧
    ¬g.HasLink ⟨3, 0⟩ ⟨2, 3, .many, .optional⟩ ⟨2, 0⟩ ∧ g'.HasLink ⟨3, 0⟩ ⟨2, 3, .many, .optional⟩ ⟨2, 0⟩ ∧
    (ChangeSet.between g g').isEmpty = false := by
  have hrun : (succeedsWith (Graph.reconcile diamondPass.incoming diamondPass.accepts .default diamondPass.target) fun _ g =>
      succeedsWith (Graph.reconcile diamondPass.incoming diamondPass.accepts .default g) fun _ g' =>
        decide (¬g.HasLink ⟨3, 0⟩ ⟨2, 3, .many, .optional⟩ ⟨2, 0⟩ ∧
          g'.HasLink ⟨3, 0⟩ ⟨2, 3, .many, .optional⟩ ⟨2, 0⟩ ∧ (ChangeSet.between g g').isEmpty = false)) = true := by
    decide +kernel
  obtain ⟨r, g, heq, hg⟩ := exists_of_succeedsWith hrun
  obtain ⟨r', g', heq', hg'⟩ := exists_of_succeedsWith hg
  exact ⟨diamondPass_consistent, r, g, r', g', heq, heq', of_decide_eq_true hg'⟩

end Reconciliation
