import Reconciliation.Proofs.Matrix
import Reconciliation.Proofs.Pairings
import Reconciliation.Proofs.Parents
import Reconciliation.Proofs.Unchanged
import Reconciliation.Proofs.Visits
/-!
# Results that do not depend on the order of visits

Two graphs look the same when they describe the same entities equally often, whatever the ids (`Graph.descriptions`).  Two
targets that are what the same matching makes of them look the same (`Fulfilled.descriptions_perm`), and so two runs over
graphs that match unambiguously do, in whatever orders (`descriptions_perm_of_orders`): the plans differ in the order of
their additions alone, so their renames are the same.
-/
namespace Reconciliation

open Reconciliation.Graph Progress

theorem map_perm_of_rel {α β γ : Type} [DecidableEq β] {r : α → β → Prop} {f : α → γ} {g : β → γ}
    (left : ∀ {a a' b}, r a b → r a' b → a = a') (right : ∀ {a b b'}, r a b → r a b' → b = b') :
    ∀ {l : List α} {l' : List β}, l.Nodup → l'.Nodup → (∀ a ∈ l, ∃ b ∈ l', r a b) → (∀ b ∈ l', ∃ a ∈ l, r a b) →
    (∀ a ∈ l, ∀ b ∈ l', r a b → f a = g b) → (l.map f).Perm (l'.map g)
  | [], l', _, _, _, back, _ => by
    have hnil : l' = [] := List.eq_nil_iff_forall_not_mem.2 fun b hb => by
      obtain ⟨a, ha, -⟩ := back b hb
      cases ha
    rw [hnil]
    exact .refl _
  | a :: l, l', hl, hl', forth, back, heq => by
    obtain ⟨ha, hl⟩ := List.nodup_cons.1 hl
    obtain ⟨b, hb, hr⟩ := forth a List.mem_cons_self
    have hforth : ∀ a' ∈ l, ∃ b' ∈ l'.erase b, r a' b' := fun a' ha' => by
      obtain ⟨b', hb', hr'⟩ := forth a' (List.mem_cons_of_mem _ ha')
      refine ⟨b', (hl'.mem_erase_iff).2 ⟨?_, hb'⟩, hr'⟩
      rintro rfl
      exact ha (left hr hr' ▸ ha')
    have hback : ∀ b' ∈ l'.erase b, ∃ a' ∈ l, r a' b' := fun b' hb' => by
      obtain ⟨hne, hmem⟩ := (hl'.mem_erase_iff).1 hb'
      obtain ⟨a', ha', hr'⟩ := back b' hmem
      refine ⟨a', (List.mem_cons.1 ha').resolve_left ?_, hr'⟩
      rintro rfl
      exact hne (right hr' hr)
    have hrest : (l.map f).Perm ((l'.erase b).map g) := map_perm_of_rel (r := r) left right hl (hl'.erase b)
      hforth hback fun a' ha' b' hb' => heq a' (List.mem_cons_of_mem _ ha') b' (List.mem_of_mem_erase hb')
    rw [List.map_cons, heq a List.mem_cons_self b hb hr]
    exact (hrest.cons (g b)).trans ((List.perm_cons_erase hb).map g).symm

/-! ## Descriptions -/

/-- **What an entity looks like without its id**: its data, and that of its parents in the order of declaration. -/
structure Description where
  data : Entity
  parents : List (Connection × Option Entity)
deriving DecidableEq

namespace Graph

def description (g : Graph) (n : Node) : Description := ⟨n.data, n.parents.map fun l => (l.1, g.data? l.2)⟩

/-- **The descriptions of all entities.** -/
def descriptions (g : Graph) : List Description := g.nodes.toList.map fun b => g.description b.2

theorem Consistent.parents_ascending {g : Graph} (hg : g.Consistent) {x : EntityId} {n : Node} (hn : g.nodes.get? x = some n) :
    n.parents.Pairwise fun a b => g.schema.rankOf x.kind a.1 < g.schema.rankOf x.kind b.1 := by
  have hne : n.parents.Pairwise fun a b => a.1 ≠ b.1 := List.pairwise_map.1 (hg.connections hn)
  have hordered : InOrder g.schema x.kind n.parents := ordered_iff.1 (hg.ordered hn)
  refine (hordered.and hne).imp_of_mem fun {a b} ha _ ⟨hle, hab⟩ => ?_
  have hmem : (a.1, a.2) ∈ n.parents := ha
  obtain ⟨hchild, hdecl⟩ := hg.declared hn hmem
  rw [Schema.declares, hchild, List.contains_iff_mem] at hdecl
  refine Nat.lt_of_le_of_ne ?_ fun heq => hab ((List.idxOf_inj hdecl).1 heq)
  exact Nat.isLE_compare.1 (Ordering.isLE_then_iff_and.1 hle).1

theorem description_eq {g g' : Graph} (hg : g.Consistent) (hg' : g'.Consistent) (hschema : g.schema = g'.schema) {x x' : EntityId}
    {n n' : Node} (hn : g.nodes.get? x = some n) (hn' : g'.nodes.get? x' = some n') (hdata : n.data = n'.data)
    (hlinks : ∀ {c y}, g.HasLink x c y → ∃ y', g'.HasLink x' c y' ∧ g.data? y = g'.data? y')
    (hlinks' : ∀ {c y'}, g'.HasLink x' c y' → ∃ y, g.HasLink x c y ∧ g.data? y = g'.data? y') :
    g.description n = g'.description n' := by
  have hkind : x.kind = x'.kind := by rw [← hg.kind hn, ← hg'.kind hn', hdata]
  let earlier (a b : Connection × Option Entity) : Prop := g.schema.rankOf x.kind a.1 < g.schema.rankOf x.kind b.1
  have hsorted : (g.description n).parents.Pairwise earlier := List.pairwise_map.2 (hg.parents_ascending hn)
  have hsorted' : (g'.description n').parents.Pairwise earlier := List.pairwise_map.2 (by
    show n'.parents.Pairwise fun a b => g.schema.rankOf x.kind a.1 < g.schema.rankOf x.kind b.1
    rw [hschema, hkind]
    exact hg'.parents_ascending hn')
  have hne : ∀ {a b}, earlier a b → a ≠ b := fun hlt heq => Nat.lt_irrefl _ (heq ▸ hlt)
  have hperm : (g.description n).parents.Perm (g'.description n').parents := by
    refine (List.perm_ext_iff_of_nodup (hsorted.imp hne) (hsorted'.imp hne)).2 fun d => ?_
    simp only [description, List.mem_map]
    constructor
    · rintro ⟨⟨c, y⟩, hmem, rfl⟩
      obtain ⟨y', ⟨m, hm, hmem'⟩, heq⟩ := hlinks ⟨n, hn, hmem⟩
      obtain rfl := Option.some.inj (hm.symm.trans hn')
      exact ⟨(c, y'), hmem', by rw [heq]⟩
    · rintro ⟨⟨c, y'⟩, hmem, rfl⟩
      obtain ⟨y, ⟨m, hm, hmem'⟩, heq⟩ := hlinks' ⟨n', hn', hmem⟩
      obtain rfl := Option.some.inj (hm.symm.trans hn)
      exact ⟨(c, y), hmem', by rw [heq]⟩
  have hparents : (g.description n).parents = (g'.description n').parents :=
    hperm.eq_of_pairwise (fun _ _ _ _ hab hba => absurd (Nat.lt_trans hab hba) (Nat.lt_irrefl _)) hsorted hsorted'
  show (⟨n.data, (g.description n).parents⟩ : Description) = ⟨n'.data, (g'.description n').parents⟩
  rw [hdata, hparents]

end Graph

/-! ## Two targets that are what a matching makes of them -/

variable {p : Pass} {mates : EntityId → EntityId → Prop} {renames : List Rename} {s s' : Applying} {q : PlannedParent}
  {x x' y : EntityId}

/-- Entities of two states that are called the same. -/
def Applying.Corresponds (s s' : Applying) (target : Graph) (x x' : EntityId) : Prop :=
  ∃ q, s.Names target q x ∧ s'.Names target q x'

namespace Fulfilled

theorem exists_name (hs : Fulfilled p mates renames s) (hs' : Fulfilled p mates renames s') (hq : s.Names p.target q x)
    (hx : s.graph.contains x = true) : ∃ x', s'.Names p.target q x' ∧ s'.graph.contains x' = true := by
  obtain ⟨x', hx'⟩ : ∃ x', s'.Names p.target q x' := by
    cases q with
    | target t => exact ⟨t, hq.1, rfl⟩
    | added i => exact hs'.copied_iff.2 (hs.copied_iff.1 ⟨x, hq⟩)
  refine ⟨x', hx', ?_⟩
  rw [← Bool.not_eq_false, hs'.gone_iff hx', ← hs.gone_iff hq, Bool.not_eq_false]
  exact hx

theorem data_eq (hM : p.Matching mates) (hs : Fulfilled p mates renames s) (hs' : Fulfilled p mates renames s')
    (hq : s.Names p.target q x) (hq' : s'.Names p.target q x') (hx : s.graph.contains x = true)
    (hx' : s'.graph.contains x' = true) : s.graph.data? x = s'.graph.data? x' := by
  obtain ⟨e, he⟩ := exists_entity hx
  obtain ⟨e', he'⟩ := exists_entity hx'
  rw [entity_ok_iff_data] at he he'
  rw [he, he', (hs.data hq he).unique hM (hs'.data hq' he')]

theorem hasLink_corresponds (hM : p.Matching mates) (hs : Fulfilled p mates renames s) (hs' : Fulfilled p mates renames s')
    (hq : s.Names p.target q x) (hq' : s'.Names p.target q x') (hx : s.graph.contains x = true)
    (hx' : s'.graph.contains x' = true) {c : Connection} (hlink : s.graph.HasLink x c y) :
    ∃ y', s'.graph.HasLink x' c y' ∧ s.graph.data? y = s'.graph.data? y' := by
  obtain ⟨r, hfinal, hy, hthere⟩ := (hs.hasLink_iff hq hx).1 hlink
  obtain ⟨y', hy', hthere'⟩ := hs.exists_name hs' hy hthere
  exact ⟨y', (hs'.hasLink_iff hq' hx').2 ⟨r, hfinal, hy', hthere'⟩, hs.data_eq hM hs' hy hy' hthere hthere'⟩

/-- **Two targets that are what one matching makes of them look the same.** -/
theorem descriptions_perm (hM : p.Matching mates) (hs : Fulfilled p mates renames s) (hs' : Fulfilled p mates renames s') :
    s.graph.descriptions.Perm s'.graph.descriptions := by
  have hsame : ∀ {g : Graph} {b b' : EntityId × Node}, b ∈ g.nodes.toList → b' ∈ g.nodes.toList → b.1 = b'.1 → b = b' :=
    fun {g b b'} hb hb' heq => List.inj_on_of_nodup_map g.nodes.keys_nodup hb hb' heq
  refine map_perm_of_rel
    (r := fun b b' => b ∈ s.graph.nodes.toList ∧ b' ∈ s'.graph.nodes.toList ∧ s.Corresponds s' p.target b.1 b'.1)
    ?_ ?_ s.graph.nodes.keys_nodup.of_map s'.graph.nodes.keys_nodup.of_map ?_ ?_ ?_
  · rintro b₁ b₂ b' ⟨hb₁, -, q, hq, hq'⟩ ⟨hb₂, -, r, hr, hr'⟩
    obtain rfl := hs'.unique hq' hr'
    exact hsame hb₁ hb₂ (hq.eq hr)
  · rintro b b₁ b₂ ⟨-, hb₁, q, hq, hq'⟩ ⟨-, hb₂, r, hr, hr'⟩
    obtain rfl := hs.unique hq hr
    exact hsame hb₁ hb₂ (hq'.eq hr')
  · intro b hb
    obtain ⟨q, hq⟩ := hs.named (contains_of_mem hb)
    obtain ⟨x', hx', hthere'⟩ := hs.exists_name hs' hq (contains_of_mem hb)
    obtain ⟨b', hb', rfl⟩ := exists_mem_of_contains hthere'
    exact ⟨b', hb', hb, hb', q, hq, hx'⟩
  · intro b' hb'
    obtain ⟨q, hq'⟩ := hs'.named (contains_of_mem hb')
    obtain ⟨x, hx, hthere'⟩ := hs'.exists_name hs hq' (contains_of_mem hb')
    obtain ⟨b, hb, rfl⟩ := exists_mem_of_contains hthere'
    exact ⟨b, hb, hb, hb', q, hx, hq'⟩
  · rintro ⟨x, n⟩ hb ⟨x', n'⟩ hb' ⟨-, -, q, hq, hq'⟩
    have hx := contains_of_mem hb
    have hx' := contains_of_mem hb'
    have hn := SortedMap.get?_eq_some_iff.2 hb
    have hn' := SortedMap.get?_eq_some_iff.2 hb'
    have hdata := hs.data_eq hM hs' hq hq' hx hx'
    rw [data?, data?, hn, hn'] at hdata
    refine description_eq hs.consistent hs'.consistent (hs.schema.trans hs'.schema.symm) hn hn' (Option.some.inj hdata)
      (hs.hasLink_corresponds hM hs' hq hq' hx hx') fun hlink => ?_
    obtain ⟨y, hy, heq⟩ := hs'.hasLink_corresponds hM hs hq' hq hx' hx hlink
    exact ⟨y, hy, heq.symm⟩

end Fulfilled

/-! ## The renames of two plans -/

namespace Plan

variable {target incoming : Graph} {plan plan' : Plan}

/-- The natural key of an incoming entity, if it is new to the target. -/
def freshKey? (target incoming : Graph) (i : EntityId) : Option (EntityId × NaturalKey) := do
  let data ← incoming.data? i
  let key ← target.schema.naturalKey? data
  if (target.resolve key).isNone then some (i, key) else none

theorem freshKeys_ok : ∀ {l : List Addition} {fresh : List (EntityId × NaturalKey)},
    freshKeys target incoming l = .ok fresh → fresh = (l.map Addition.incoming).filterMap (freshKey? target incoming)
  | [], _, h => (Except.ok.inj h).symm
  | a :: rest, fresh, h => by
    rw [freshKeys] at h
    obtain ⟨data, hdata, h⟩ := except_bind_ok_iff.1 h
    obtain ⟨later, hlater, h⟩ := except_bind_ok_iff.1 h
    rw [entity_ok_iff_data] at hdata
    have hrest := freshKeys_ok hlater
    rw [List.map_cons, List.filterMap_cons, ← hrest]
    have hfresh : freshKey? target incoming a.incoming = (target.schema.naturalKey? data).bind fun key =>
        if (target.resolve key).isNone then some (a.incoming, key) else none := by
      rw [freshKey?, hdata]
      rfl
    rw [hfresh]
    cases hkey : target.schema.naturalKey? data with
    | none =>
      rw [hkey] at h
      exact (Except.ok.inj h).symm
    | some key =>
      rw [hkey] at h
      dsimp only [Option.bind_some] at h ⊢
      rw [← Except.ok.inj h]
      split <;> rfl

theorem sortBy_freshLe_perm {l l' : List (EntityId × NaturalKey)} (h : l.Perm l') : sortBy freshLe l = sortBy freshLe l' := by
  refine sortBy_eq_of_perm (fun a _ b heq => ?_) h
  obtain ⟨hid, hkey⟩ := compareLex_eq_eq.1 heq
  exact Prod.ext (Std.LawfulEqCmp.compare_eq_iff_eq.1 hid) (Std.LawfulEqCmp.compare_eq_iff_eq.1 hkey)

theorem pairRenames_congr : ∀ {l l' : List (EntityId × Operation)} {fresh : List (EntityId × NaturalKey)},
    l.map (fun o => (o.1, decide (o.2 = .remove))) = l'.map (fun o => (o.1, decide (o.2 = .remove))) →
    pairRenames target incoming l fresh = pairRenames target incoming l' fresh
  | [], [], _, _ => rfl
  | [], _ :: _, _, h => by cases h
  | _ :: _, [], _, h => by cases h
  | (t, o) :: rest, (t', o') :: rest', fresh, h => by
    obtain ⟨hhead, htail⟩ := List.cons.inj h
    obtain ⟨rfl, hsame⟩ := Prod.mk.inj hhead
    have hrest {fresh} : pairRenames target incoming rest fresh = pairRenames target incoming rest' fresh :=
      pairRenames_congr htail
    cases o with
    | relabel i links =>
      cases o' with
      | relabel i' links' => exact hrest
      | remove => cases hsame
    | remove =>
      cases o' with
      | relabel i' links' => cases hsame
      | remove => simp only [pairRenames, hrest]

/-- Renames are sought among the new natural keys, in their order. -/
theorem findRenames_ok {renames : List Rename} (h : findRenames target incoming plan = .ok renames) :
    pairRenames target incoming plan.operations.toList
      (sortBy freshLe ((plan.additions.map Addition.incoming).filterMap (freshKey? target incoming))) = .ok renames := by
  have hmapped : ∀ {α : Type} {x : Except StoreError α} {a : α}, x.mapError ReconcileError.store = .ok a → x = .ok a :=
    fun {α x a} hx => by
      cases x with
      | error cause => cases hx
      | ok b => exact congrArg Except.ok (Except.ok.inj hx)
  obtain ⟨fresh, hfresh, hpaired⟩ := except_bind_ok_iff.1 h
  rw [← freshKeys_ok (hmapped hfresh)]
  exact hmapped hpaired

theorem findRenames_congr (hadded : (plan.additions.map Addition.incoming).Perm (plan'.additions.map Addition.incoming))
    (hremoved : plan.operations.map (fun _ o => decide (o = .remove)) = plan'.operations.map fun _ o => decide (o = .remove))
    {renames renames' : List Rename} (h : findRenames target incoming plan = .ok renames)
    (h' : findRenames target incoming plan' = .ok renames') : renames = renames' := by
  have hpaired := findRenames_ok h
  rw [sortBy_freshLe_perm (hadded.filterMap _), pairRenames_congr (congrArg SortedMap.toList hremoved),
    findRenames_ok h'] at hpaired
  exact (Except.ok.inj hpaired).symm

end Plan

variable {plan plan' : Plan}

theorem Plan.Follows.removals_eq (hf : plan.Follows p mates) (hf' : plan'.Follows p mates) :
    plan.operations.map (fun _ o => decide (o = .remove)) = plan'.operations.map fun _ o => decide (o = .remove) := by
  -- what one of them does to an entity the other one does too
  have hto : ∀ {plan plan' : Plan} {t : EntityId} {b : Bool}, plan.Follows p mates → plan'.Follows p mates →
      (plan.operations.get? t).map (fun o => decide (o = .remove)) = some b →
      (plan'.operations.get? t).map (fun o => decide (o = .remove)) = some b := by
    intro plan plan' t b hf hf' h
    obtain ⟨o, hop, rfl⟩ := Option.map_eq_some_iff.1 h
    cases o with
    | relabel i links =>
      obtain ⟨links', hop'⟩ := hf'.relabel_iff.2 (hf.relabel_iff.1 ⟨links, hop⟩)
      rw [hop']
      rfl
    | remove =>
      rw [hf'.remove_iff.2 (hf.remove_iff.1 hop)]
      rfl
  refine SortedMap.ext fun t => ?_
  rw [SortedMap.get?_map, SortedMap.get?_map]
  exact Option.ext fun b => ⟨hto hf hf', hto hf' hf⟩

theorem Plan.Follows.additions_perm (hf : plan.Follows p mates) (hf' : plan'.Follows p mates)
    (hnodup : (plan.additions.map Addition.incoming).Nodup) (hnodup' : (plan'.additions.map Addition.incoming).Nodup) :
    (plan.additions.map Addition.incoming).Perm (plan'.additions.map Addition.incoming) :=
  (List.perm_ext_iff_of_nodup hnodup hnodup').2 fun _ => hf.add_iff.trans hf'.add_iff.symm

/-! ## Two orders of visits -/

variable {sp sp' : Progress} {fuel fuel' : Nat} {targetOrder incomingOrder targetOrder' incomingOrder' : List EntityId}
  {o o' : Outcome} {applied applied' : Applied} {g g' : Graph}

/-- **What a pass makes of the target does not depend on the order of visits**, when the graphs match unambiguously. -/
theorem descriptions_perm_of_orders (hp : p.Consistent) (hM : p.Matching mates) (ho : p.Orders targetOrder incomingOrder)
    (ho' : p.Orders targetOrder' incomingOrder') (hplan : p.planInOrder fuel targetOrder incomingOrder = .ok (sp, o))
    (hplan' : p.planInOrder fuel' targetOrder' incomingOrder' = .ok (sp', o')) (hplain : p.target.PlainKeys)
    (hcounted : p.target.Counted) (happly : Graph.applyPlan p.incoming o.plan p.target = .ok applied g)
    (happly' : Graph.applyPlan p.incoming o'.plan p.target = .ok applied' g') : g.descriptions.Perm g'.descriptions := by
  have hf := Pass.planInOrder_follows hp hM ho hplan
  have hf' := Pass.planInOrder_follows hp hM ho' hplan'
  have hadded := hf.additions_perm hf' (planInOrder_fits hp ho hplan).additions (planInOrder_fits hp ho' hplan').additions
  have hrenames : o.plan.renames = o'.plan.renames := Plan.findRenames_congr hadded (hf.removals_eq hf')
    (Pass.planInOrder_renames hplan) (Pass.planInOrder_renames hplan')
  obtain ⟨s, rfl, hs⟩ := applyPlan_completed hp ho hplan hplain hcounted happly
  obtain ⟨s', rfl, hs'⟩ := applyPlan_completed hp ho' hplan' hplain hcounted happly'
  have hfulfilled' := hs'.fulfilled hp hM hf'
  rw [← hrenames] at hfulfilled'
  exact (hs.fulfilled hp hM hf).descriptions_perm hM hfulfilled'

/-- The two children come in either order, and get each other's ids. -/
theorem descriptions_perm_of_orders_replacingPass : ∃ r r' applied applied' g g',
    replacingPass.planInOrder replacingPass.fuel (replacingPass.target.visitOrder replacingPass.accepts .default)
      (replacingPass.incoming.visitOrder replacingPass.accepts .default) = .ok r ∧
    replacingPass.planInOrder replacingPass.fuel (replacingPass.target.visitOrder replacingPass.accepts ⟨some 6⟩)
      (replacingPass.incoming.visitOrder replacingPass.accepts ⟨some 6⟩) = .ok r' ∧
    Graph.applyPlan replacingPass.incoming r.2.plan replacingPass.target = .ok applied g ∧
    Graph.applyPlan replacingPass.incoming r'.2.plan replacingPass.target = .ok applied' g' ∧
    g.data? ⟨1, 2⟩ ≠ g'.data? ⟨1, 2⟩ ∧ g.descriptions.Perm g'.descriptions := by
  have hrun : ((replacingPass.planInOrder replacingPass.fuel
      (replacingPass.target.visitOrder replacingPass.accepts .default)
      (replacingPass.incoming.visitOrder replacingPass.accepts .default)).toOption.any fun r =>
        (replacingPass.planInOrder replacingPass.fuel
          (replacingPass.target.visitOrder replacingPass.accepts ⟨some 6⟩)
          (replacingPass.incoming.visitOrder replacingPass.accepts ⟨some 6⟩)).toOption.any fun r' =>
            succeedsWith (Graph.applyPlan replacingPass.incoming r.2.plan replacingPass.target) fun _ g =>
              succeedsWith (Graph.applyPlan replacingPass.incoming r'.2.plan replacingPass.target) fun _ g' =>
                decide (g.data? ⟨1, 2⟩ ≠ g'.data? ⟨1, 2⟩)) = true := by
    decide +kernel
  obtain ⟨r, hplan, hr⟩ := exists_of_any hrun
  obtain ⟨r', hplan', hr'⟩ := exists_of_any hr
  obtain ⟨applied, g, happly, hg⟩ := exists_of_succeedsWith hr'
  obtain ⟨applied', g', happly', hg'⟩ := exists_of_succeedsWith hg
  refine ⟨r, r', applied, applied', g, g', hplan, hplan', happly, happly', of_decide_eq_true hg', ?_⟩
  exact descriptions_perm_of_orders replacingPass_consistent (replacingPass_listed.matching replacingPass_consistent)
    (visitOrder_orders replacingPass .default) (visitOrder_orders replacingPass ⟨some 6⟩) hplan hplan'
    replacingPass_plainKeys replacingPass_counted happly happly'

/-- What can be seen of an entity without its connections: its data, and the attributes of its parents. -/
def Description.seen (d : Description) : Entity × List (Option (SortedMap String Value)) :=
  (d.data, d.parents.map fun l => l.2.map Entity.attributes)

/-- The diamond, whose entities have names. -/
def namedDiamond : Pass :=
  diamondOf fun kind => (Entity.new kind "s").set "name" (.text (["x", "b", "c", "d"].getD kind.toNat ""))

/-- **Without a matching results can depend on the order**: the entity with two parents is left with the one that is copied
first. -/
theorem namedDiamond_depends : namedDiamond.Consistent ∧ ∃ r r' g g',
    Graph.reconcile namedDiamond.incoming namedDiamond.accepts .default namedDiamond.target = .ok r g ∧
    Graph.reconcile namedDiamond.incoming namedDiamond.accepts ⟨some 2⟩ namedDiamond.target = .ok r' g' ∧
    ¬(g.descriptions.map Description.seen).Perm (g'.descriptions.map Description.seen) := by
  have hrun : (succeedsWith (Graph.reconcile namedDiamond.incoming namedDiamond.accepts .default namedDiamond.target) fun _ g =>
      succeedsWith (Graph.reconcile namedDiamond.incoming namedDiamond.accepts ⟨some 2⟩ namedDiamond.target) fun _ g' =>
        decide ¬(g.descriptions.map Description.seen).Perm (g'.descriptions.map Description.seen)) = true := by
    decide +kernel
  obtain ⟨r, g, heq, hg⟩ := exists_of_succeedsWith hrun
  obtain ⟨r', g', heq', hg'⟩ := exists_of_succeedsWith hg
  exact ⟨⟨by decide +kernel, by decide +kernel, rfl⟩, r, r', g, g', heq, heq', of_decide_eq_true hg'⟩

end Reconciliation
