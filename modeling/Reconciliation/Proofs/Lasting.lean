import Reconciliation.Proofs.Fulfilled
import Reconciliation.Proofs.Rest
/-!
# Matchings that last

A matching lasts when it still is one after a pass that has carried it out (`Pass.Lasting`): nothing in the incoming graph
can be taken for another entity there, mates that are left alone have corresponding parents, and whatever is copied has
all its parents.  Then whatever has a place gets there, with the links of the incoming entity (`Lasting.finalLink_iff`),
and does not go (`Lasting.not_goes`).
-/
namespace Reconciliation

open Reconciliation.Graph Relation Progress

namespace Pass

/-- **A matching that lasts.**  Nothing in the incoming graph can be taken for another entity there, mates that are left
alone have corresponding parents, and each parent of what is copied has a place. -/
structure Lasting (p : Pass) (mates : EntityId → EntityId → Prop) : Prop extends Matching p mates where
  distinct : p.incoming.Distinct
  alike : ∀ {t i c u}, mates t i → p.TargetIs false t → p.IncomingIs false i →
    (p.target.HasLink t c u ↔ ∃ j, mates u j ∧ p.incoming.HasLink i c j)
  full : ∀ {i c j}, p.HasPlace mates i (.added i) → p.incoming.HasLink i c j → ∃ q, p.HasPlace mates j q

variable {p : Pass} {mates : EntityId → EntityId → Prop} {i j : EntityId} {c : Connection} {q q' : PlannedParent}

theorem Lasting.place_above (hL : p.Lasting mates) (h : p.HasPlace mates i q) (hlink : p.incoming.HasLink i c j) :
    ∃ q', p.HasPlace mates j q' := by
  cases h with
  | mate mate _ =>
    obtain ⟨u, -, hplace⟩ := hL.toMatching.place_above mate hlink
    exact ⟨_, hplace⟩
  | root root _ _ => exact absurd hlink root.not_hasLink
  | child link parent accepted free => exact hL.full (.child link parent accepted free) hlink

theorem Lasting.finalLink_iff (hL : p.Lasting mates) (h : p.HasPlace mates i q) :
    p.FinalLink mates q c q' ↔ ∃ j, p.incoming.HasLink i c j ∧ p.HasPlace mates j q' := by
  have hM := hL.toMatching
  constructor
  · intro hlink
    cases hlink with
    | kept link rejected =>
      obtain ⟨mate, stays⟩ := hasPlace_target_iff.1 h
      have hself : p.TargetIs false _ := stays.resolve_right fun haccepted => by cases haccepted.unique (rejected mate)
      obtain ⟨j, hj, hlink⟩ := (hL.alike mate hself (rejected mate)).1 link
      obtain ⟨u, hu, hplace⟩ := hM.place_above mate hlink
      obtain rfl := hM.target_unique hu hj
      exact ⟨j, hlink, hplace⟩
    | given mate _ link place =>
      obtain rfl := hM.incoming_unique mate (hasPlace_target_iff.1 h).1
      exact ⟨_, link, place⟩
    | copied copy link place =>
      cases h with
      | root | child => exact ⟨_, link, place⟩
  · rintro ⟨j, hlink, hplace⟩
    cases h with
    | root root accepted free => exact absurd hlink root.not_hasLink
    | child link parent accepted free => exact .copied (.child link parent accepted free) hlink hplace
    | @mate t i mate stays =>
      obtain ⟨n, hn, hmem⟩ := hlink
      obtain ⟨b, hb⟩ := exists_incomingIs (contains_iff.2 ⟨n, hn⟩)
      have hlink : p.incoming.HasLink i c j := ⟨n, hn, hmem⟩
      cases b with
      | true => exact .given mate hb hlink hplace
      | false =>
        -- it is left alone, and its parent is the mate of the parent there
        have hself : p.TargetIs false t := stays.resolve_right fun haccepted => by cases haccepted.unique hb
        obtain ⟨u, hu, hplace'⟩ := hM.place_above mate hlink
        obtain rfl := hplace.unique hM hplace'
        refine .kept ((hL.alike mate hself hb).2 ⟨j, hu, hlink⟩) fun mate' => ?_
        rwa [hM.incoming_unique mate' mate]

theorem Lasting.not_goes (hL : p.Lasting mates) (h : p.HasPlace mates i q) : ¬p.Goes mates q := by
  intro hgoes
  induction hgoes generalizing i with
  | removed accepted rejected =>
    obtain ⟨mate, stays⟩ := hasPlace_target_iff.1 h
    rcases stays with hself | hincoming
    · cases hself.unique accepted
    · cases hincoming.unique (rejected mate)
  | requires link _ _ ih =>
    obtain ⟨j, -, hplace⟩ := (hL.finalLink_iff h).1 link
    exact ih hplace

end Pass
end Reconciliation
