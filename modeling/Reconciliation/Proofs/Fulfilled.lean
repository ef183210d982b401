import Reconciliation.Proofs.Completed
import Reconciliation.Proofs.Conformity
/-!
# What a matching makes of the target

A plan that goes by an unambiguous matching can be read off the matching, and so can the target in the end: which links
an entity has (`Pass.FinalLink`), what goes (`Pass.Goes`) and which data is left (`Pass.FinalData`).  `Fulfilled` says
that the target is what the matching makes of it, and every run that succeeds ends there (`Completed.fulfilled`).  It
mentions neither the plan nor an order of visits; only the renames are still those of the plan.
-/
namespace Reconciliation

open Reconciliation.Graph Progress

namespace Pass

/-- **The links that a matching gives an entity in the end.**  One that takes over data gets the links of its mate to the
places of the parents there, and so does a copy; any other keeps its own. -/
inductive FinalLink (p : Pass) (mates : EntityId → EntityId → Prop) : PlannedParent → Connection → PlannedParent → Prop
  | kept {t u : EntityId} {c : Connection} (link : p.target.HasLink t c u)
    (rejected : ∀ {i}, mates t i → p.IncomingIs false i) : FinalLink p mates (.target t) c (.target u)
  | given {t i j : EntityId} {c : Connection} {q : PlannedParent} (mate : mates t i) (accepted : p.IncomingIs true i)
    (link : p.incoming.HasLink i c j) (place : p.HasPlace mates j q) : FinalLink p mates (.target t) c q
  | copied {i j : EntityId} {c : Connection} {q : PlannedParent} (copy : p.HasPlace mates i (.added i))
    (link : p.incoming.HasLink i c j) (place : p.HasPlace mates j q) : FinalLink p mates (.added i) c q

/-- **What a matching makes go**: what is accepted without an accepted mate, and what then lacks a required parent. -/
inductive Goes (p : Pass) (mates : EntityId → EntityId → Prop) : PlannedParent → Prop
  | removed {t : EntityId} (accepted : p.TargetIs true t) (rejected : ∀ {i}, mates t i → p.IncomingIs false i) :
    Goes p mates (.target t)
  | requires {q q' : PlannedParent} {c : Connection} (link : p.FinalLink mates q c q') (required : c.isRequired = true)
    (goes : Goes p mates q') : Goes p mates q

/-- **The data that a matching leaves an entity**: what takes over data has its mate's, a copy has its original's, and
any other has its own, with its references where the renames lead. -/
inductive FinalData (p : Pass) (mates : EntityId → EntityId → Prop) (renames : List Rename) : PlannedParent → Entity → Prop
  | given {t i : EntityId} {e : Entity} (mate : mates t i) (accepted : p.IncomingIs true i)
    (data : p.incoming.entity i = .ok e) : FinalData p mates renames (.target t) e
  | copied {i : EntityId} {e : Entity} (data : p.incoming.entity i = .ok e) : FinalData p mates renames (.added i) e
  | alone {t : EntityId} {e : Entity} (rejected : p.TargetIs false t) (rejected' : ∀ {i}, mates t i → p.IncomingIs false i)
    (data : p.target.entity t = .ok e) : FinalData p mates renames (.target t) (e.renameAll renames)

variable {p : Pass} {mates : EntityId → EntityId → Prop} {renames : List Rename} {q q' : PlannedParent} {e e' : Entity}
  {c : Connection}

theorem FinalData.unique (hM : p.Matching mates) (h : p.FinalData mates renames q e) (h' : p.FinalData mates renames q e') :
    e = e' := by
  cases h with
  | given mate accepted data =>
    cases h' with
    | given mate' _ data' =>
      obtain rfl := hM.incoming_unique mate mate'
      exact Except.ok.inj (data.symm.trans data')
    | alone _ rejected => cases accepted.unique (rejected mate)
  | copied data =>
    cases h' with
    | copied data' => exact Except.ok.inj (data.symm.trans data')
  | alone _ rejected data =>
    cases h' with
    | given mate accepted _ => cases accepted.unique (rejected mate)
    | alone _ _ data' => rw [Except.ok.inj (data.symm.trans data')]

theorem Matching.not_linksFit_none (hp : p.Consistent) (hM : p.Matching mates) {t i : EntityId} (mate : mates t i)
    (nested : ¬p.incoming.IsRoot i) : ¬p.LinksFit mates i none := by
  intro hfit
  obtain ⟨n, hn⟩ := contains_iff.1 (hM.contains hp mate).2
  obtain ⟨⟨c, j⟩, hmem⟩ := List.exists_mem_of_ne_nil _ fun hnil => nested ⟨n, hn, hnil⟩
  obtain ⟨u, -, hplace⟩ := hM.place_above mate ⟨n, hn, hmem⟩
  cases (hfit c (.target u)).2 ⟨j, ⟨n, hn, hmem⟩, hplace⟩

end Pass

namespace Plan.Follows

variable {p : Pass} {mates : EntityId → EntityId → Prop} {plan : Plan} {q q' : PlannedParent} {c : Connection} {t : EntityId}

theorem linksFor?_none (hf : plan.Follows p mates)
    (rejected : ∀ {i}, mates t i → p.IncomingIs false i) : plan.linksFor? t = none := by
  rw [linksFor?]
  split
  · next i links hop =>
    obtain ⟨mate, accepted⟩ := hf.relabel_iff.1 ⟨links, hop⟩
    cases accepted.unique (rejected mate)
  · rfl

theorem link_iff (hp : p.Consistent) (hM : p.Matching mates) (hf : plan.Follows p mates) :
    plan.Link p.target [] q c q' ↔ p.FinalLink mates q c q' := by
  constructor
  · intro h
    cases h with
    | @own t links _ u there link stays =>
      have hnone := stays.resolve_left List.not_mem_nil
      have hlink : p.target.HasLink t c u := hasLink_iff_mem.2 (by rwa [there, Option.getD_some])
      refine .kept hlink fun {i} mate => ?_
      obtain ⟨b, hb⟩ := Pass.exists_incomingIs (hM.contains hp mate).2
      cases b with
      | false => exact hb
      | true =>
        -- it would be given the links of its mate, which has a parent as it has one
        obtain ⟨links', hop⟩ := hf.relabel_iff.2 ⟨mate, hb⟩
        rw [linksFor?_of_relabel hop] at hnone
        have hnested : ¬p.incoming.IsRoot i := fun hroot => ((hM.root_iff mate).2 hroot).not_hasLink hlink
        exact absurd (hnone ▸ hf.relabel_fit hop) (hM.not_linksFit_none hp mate hnested)
    | @given t links _ _ _ planned link =>
      obtain ⟨i, hop⟩ := linksFor?_eq_some_iff.1 planned
      obtain ⟨mate, accepted⟩ := hf.relabel_iff.1 ⟨_, hop⟩
      obtain ⟨j, hlink, hplace⟩ := (hf.relabel_fit hop c q').1 link
      exact .given mate accepted hlink hplace
    | added addition link =>
      obtain ⟨j, hlink, hplace⟩ := (hf.add_fit addition c q').1 link
      exact .copied (hf.add_iff.1 (List.mem_map_of_mem addition)) hlink hplace
  · intro h
    cases h with
    | kept link rejected =>
      obtain ⟨n, hn, hmem⟩ := link
      exact .own (links?_eq_some_iff.2 ⟨n, hn, rfl⟩) hmem (.inr (hf.linksFor?_none rejected))
    | given mate accepted link place =>
      obtain ⟨links, hop⟩ := hf.relabel_iff.2 ⟨mate, accepted⟩
      have hmem := (hf.relabel_fit hop c q').2 ⟨_, link, place⟩
      cases links with
      | none => cases hmem
      | some links => exact .given List.not_mem_nil (linksFor?_of_relabel hop) hmem
    | copied copy link place =>
      obtain ⟨a, ha, rfl⟩ := List.mem_map.1 (hf.add_iff.2 copy)
      exact .added ha ((hf.add_fit ha c q').2 ⟨_, link, place⟩)

theorem doomed_iff (hp : p.Consistent) (hM : p.Matching mates) (hf : plan.Follows p mates) :
    plan.Doomed p.target q ↔ p.Goes mates q := by
  constructor
  · intro h
    induction h with
    | removed operation =>
      obtain ⟨accepted, rejected⟩ := hf.remove_iff.1 operation
      exact .removed accepted rejected
    | requires link required _ ih => exact .requires ((hf.link_iff hp hM).1 link) required ih
  · intro h
    induction h with
    | removed accepted rejected => exact .removed (hf.remove_iff.2 ⟨accepted, rejected⟩)
    | requires link required _ ih => exact .requires ((hf.link_iff hp hM).2 link) required ih

end Plan.Follows

/-! ## The end of a run -/

/-- **The target is what the matching makes of it.** -/
structure Fulfilled (p : Pass) (mates : EntityId → EntityId → Prop) (renames : List Rename) (s : Applying) : Prop where
  consistent : s.graph.Consistent
  schema : s.graph.schema = p.target.schema
  named : ∀ {x}, s.graph.contains x = true → ∃ q, s.Names p.target q x
  unique : ∀ {q q' x}, s.Names p.target q x → s.Names p.target q' x → q = q'
  copied_iff : ∀ {i}, (∃ x, s.Names p.target (.added i) x) ↔ p.HasPlace mates i (.added i)
  gone_iff : ∀ {q x}, s.Names p.target q x → (s.graph.contains x = false ↔ p.Goes mates q)
  hasLink_iff : ∀ {q x c y}, s.Names p.target q x → s.graph.contains x = true →
    (s.graph.HasLink x c y ↔ ∃ q', p.FinalLink mates q c q' ∧ s.Names p.target q' y ∧ s.graph.contains y = true)
  data : ∀ {q x e}, s.Names p.target q x → s.graph.data? x = some e → p.FinalData mates renames q e

variable {p : Pass} {mates : EntityId → EntityId → Prop} {plan : Plan} {s : Applying} {q : PlannedParent} {x : EntityId}
  {e : Entity}

theorem Completed.finalData (hp : p.Consistent) (hM : p.Matching mates) (hf : plan.Follows p mates)
    (hs : Completed p plan s) (hq : s.Names p.target q x) (he : s.graph.data? x = some e) :
    p.FinalData mates plan.renames q e := by
  cases q with
  | added i =>
    cases hs.allowed hq he with
    | copied data => exact .copied data
  | target t =>
    obtain ⟨hthere, rfl⟩ := hq
    cases hop : plan.operations.get? x with
    | some o =>
      cases o with
      | relabel i links =>
        obtain ⟨mate, accepted⟩ := hf.relabel_iff.1 ⟨links, hop⟩
        exact .given mate accepted (hs.relabelled hop he)
      | remove =>
        have hgone := hs.removed hop
        rw [contains_of_data he] at hgone
        cases hgone
    | none =>
      obtain ⟨e₀, he₀⟩ := exists_entity hthere
      have halone := hs.alone ⟨hthere, hop⟩ (contains_of_data he) (entity_ok_iff_data.1 he₀)
      obtain rfl := Option.some.inj (he.symm.trans halone)
      have rejected : ∀ {i}, mates x i → p.IncomingIs false i := fun {i} mate => by
        obtain ⟨b, hb⟩ := Pass.exists_incomingIs (hM.contains hp mate).2
        cases b with
        | false => exact hb
        | true =>
          obtain ⟨links, hop'⟩ := hf.relabel_iff.2 ⟨mate, hb⟩
          cases hop.symm.trans hop'
      obtain ⟨b, hb⟩ := Pass.exists_targetIs hthere
      cases b with
      | false => exact .alone hb rejected he₀
      | true => cases hop.symm.trans (hf.remove_iff.2 ⟨hb, rejected⟩)

/-- **A run that succeeds makes of the target what the matching does.** -/
theorem Completed.fulfilled (hp : p.Consistent) (hM : p.Matching mates) (hf : plan.Follows p mates)
    (hs : Completed p plan s) : Fulfilled p mates plan.renames s where
  consistent := hs.consistent
  schema := hs.schema
  named := hs.named
  unique := hs.unique
  copied_iff {i} := by
    rw [← hf.add_iff]
    constructor
    · exact fun ⟨x, hx⟩ => hs.copied (SortedMap.contains_iff.2 ⟨x, hx⟩)
    · intro hmem
      obtain ⟨a, ha, rfl⟩ := List.mem_map.1 hmem
      exact SortedMap.contains_iff.1 (hs.added ha)
  gone_iff hx := (hs.gone_iff hx).trans (hf.doomed_iff hp hM)
  hasLink_iff hq hx := (hs.hasLink_iff hq hx).trans (exists_congr fun _ => and_congr_left' (hf.link_iff hp hM))
  data hq he := hs.finalData hp hM hf hq he

end Reconciliation
