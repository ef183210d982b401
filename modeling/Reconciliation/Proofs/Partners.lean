import Reconciliation.Proofs.Renamings
/-!
# Who becomes whom

Renames pair what a plan removes with what it adds, by first fit: the removed entities come one after the other in
ascending order, and each takes the lowest added one that resembles it and is still left (`firstFit`).

- Nothing is used twice, and whoever is paired resembles its partner (`firstFit_fst_sublist`, `firstFit_snd_nodup`,
  `fits_of_mem_firstFit`).
- Two that fit are never both left over: the one on the left would have found the other (`firstFit_maximal`).
- Resembling cuts both sides into classes, and within a class the pairs ascend on both sides; what is left over on one
  of them comes after what is paired (`firstFit_ascending`, `firstFit_left_first`, `firstFit_right_first`).

`Plan.findRenames_pairs` says this of the renames of any plan that removes what is there and adds each entity once.
-/
namespace Reconciliation

/-! ## First fit -/

section
variable {α β : Type} [BEq β] {fits : α → β → Bool} {a : α} {b : β} {x : α × β}

/-- **Pairing by first fit**: each on the left takes the first on the right that fits it and is left. -/
def firstFit (fits : α → β → Bool) : List α → List β → List (α × β)
  | [], _ => []
  | a :: as, bs =>
    match bs.find? (fits a) with
    | none => firstFit fits as bs
    | some b => (a, b) :: firstFit fits as (bs.erase b)

theorem firstFit_nil_right : ∀ as : List α, firstFit fits as [] = []
  | [] => rfl
  | _ :: as => by simp [firstFit, firstFit_nil_right as]

theorem firstFit_fst_sublist : ∀ (as : List α) (bs : List β), ((firstFit fits as bs).map Prod.fst).Sublist as
  | [], _ => .slnil
  | a :: as, bs => by
    unfold firstFit
    split
    · exact (firstFit_fst_sublist as bs).cons a
    · exact (firstFit_fst_sublist as _).cons_cons a

theorem snd_mem_of_firstFit : ∀ {as : List α} {bs : List β}, x ∈ firstFit fits as bs → x.2 ∈ bs
  | [], _, h => by cases h
  | a :: as, bs, h => by
    unfold firstFit at h
    split at h
    · exact snd_mem_of_firstFit h
    · next hfind =>
      rcases List.mem_cons.1 h with rfl | h
      · exact List.mem_of_find?_eq_some hfind
      · exact List.mem_of_mem_erase (snd_mem_of_firstFit h)

theorem fits_of_mem_firstFit : ∀ {as : List α} {bs : List β}, x ∈ firstFit fits as bs → fits x.1 x.2 = true
  | [], _, h => by cases h
  | a :: as, bs, h => by
    unfold firstFit at h
    split at h
    · exact fits_of_mem_firstFit h
    · next hfind =>
      rcases List.mem_cons.1 h with rfl | h
      · exact List.find?_some hfind
      · exact fits_of_mem_firstFit h

variable {lt : α → α → Prop} {lt' : β → β → Prop}

theorem firstFit_left_first : ∀ {as : List α} {bs : List β}, as.Pairwise lt → (∀ {x y}, lt x y → ¬lt y x) →
    x ∈ firstFit fits as bs → a ∈ as → lt a x.1 → fits a x.2 = true → a ∈ (firstFit fits as bs).map Prod.fst
  | [], _, _, _, h, _, _, _ => by cases h
  | a' :: as, bs, has, hasymm, h, ha, hlt, hfits => by
    obtain ⟨hall, has⟩ := List.pairwise_cons.1 has
    have hmem := snd_mem_of_firstFit h
    unfold firstFit at h ⊢
    split at h
    · next hnone =>
      rcases List.mem_cons.1 ha with rfl | ha
      · exact absurd hfits (List.find?_eq_none.1 hnone x.2 hmem)
      · exact firstFit_left_first has hasymm h ha hlt hfits
    · rcases List.mem_cons.1 ha with rfl | ha
      · exact List.mem_cons_self
      · refine List.mem_cons_of_mem _ ?_
        rcases List.mem_cons.1 h with rfl | h
        · exact absurd hlt (hasymm (hall a ha))
        · exact firstFit_left_first has hasymm h ha hlt hfits

variable [LawfulBEq β]

theorem firstFit_snd_nodup : ∀ (as : List α) {bs : List β}, bs.Nodup → ((firstFit fits as bs).map Prod.snd).Nodup
  | [], _, _ => .nil
  | a :: as, bs, hbs => by
    unfold firstFit
    split
    · exact firstFit_snd_nodup as hbs
    · next b _ =>
      refine List.nodup_cons.2 ⟨fun hmem => ?_, firstFit_snd_nodup as (hbs.erase b)⟩
      -- what is taken is not left for those that come later
      obtain ⟨x, hx, rfl⟩ := List.mem_map.1 hmem
      exact hbs.not_mem_erase (snd_mem_of_firstFit hx)

/-- **Two that fit are not both left over.** -/
theorem firstFit_maximal : ∀ {as : List α} {bs : List β}, a ∈ as → b ∈ bs → fits a b = true →
    a ∈ (firstFit fits as bs).map Prod.fst ∨ b ∈ (firstFit fits as bs).map Prod.snd
  | [], _, ha, _, _ => by cases ha
  | a' :: as, bs, ha, hb, h => by
    unfold firstFit
    split
    · next hnone =>
      rcases List.mem_cons.1 ha with rfl | ha
      · exact absurd h (List.find?_eq_none.1 hnone b hb)
      · exact firstFit_maximal ha hb h
    · next b' _ =>
      simp only [List.map_cons, List.mem_cons]
      by_cases hbb : b = b'
      · exact .inr (.inl hbb)
      rcases List.mem_cons.1 ha with rfl | ha
      · exact .inl (.inl rfl)
      · exact (firstFit_maximal ha ((List.mem_erase_of_ne hbb).2 hb) h).imp .inr .inr

/-- **Later pairs go on rising**, as far as the earlier one would have fitted the later partner. -/
theorem firstFit_ascending : ∀ {as : List α} {bs : List β}, as.Pairwise lt → bs.Pairwise lt' → bs.Nodup →
    (firstFit fits as bs).Pairwise fun x y => lt x.1 y.1 ∧ (fits x.1 y.2 = true → lt' x.2 y.2)
  | [], _, _, _, _ => .nil
  | a :: as, bs, has, hbs, hnodup => by
    obtain ⟨ha, has⟩ := List.pairwise_cons.1 has
    unfold firstFit
    split
    · exact firstFit_ascending has hbs hnodup
    · next b hfind =>
      refine List.pairwise_cons.2 ⟨fun y hy => ⟨?_, fun hfits => ?_⟩,
        firstFit_ascending has (hbs.sublist List.erase_sublist) (hnodup.erase b)⟩
      · exact ha y.1 ((firstFit_fst_sublist as _).subset (List.mem_map_of_mem hy))
      · obtain ⟨hne, hmem⟩ := hnodup.mem_erase_iff.1 (snd_mem_of_firstFit hy)
        exact lt_of_find? hbs hfind y.2 hmem hfits hne

theorem firstFit_right_first : ∀ {as : List α} {bs : List β}, bs.Pairwise lt' → (∀ {x y}, lt' x y → ¬lt' y x) →
    x ∈ firstFit fits as bs → b ∈ bs → lt' b x.2 → fits x.1 b = true → b ∈ (firstFit fits as bs).map Prod.snd
  | [], _, _, _, h, _, _, _ => by cases h
  | a :: as, bs, hbs, hasymm, h, hb, hlt, hfits => by
    unfold firstFit at h ⊢
    split at h
    · exact firstFit_right_first hbs hasymm h hb hlt hfits
    · next b' hfind =>
      simp only [List.map_cons, List.mem_cons]
      by_cases hbb : b = b'
      · exact .inl hbb
      rcases List.mem_cons.1 h with rfl | h
      · exact absurd hlt (hasymm (lt_of_find? hbs hfind b hb hfits hbb))
      · have hleft := (List.mem_erase_of_ne hbb).2 hb
        exact .inr (firstFit_right_first (hbs.sublist List.erase_sublist) hasymm h hleft hlt hfits)

end

/-! ## Attributes beside the natural key -/

theorem SortedMap.get?_filter {κ ν : Type} [Ord κ] [Std.LawfulEqOrd κ] (m : SortedMap κ ν) (keep : κ → ν → Bool) (k : κ) :
    (m.filter keep).get? k = (m.get? k).filter (keep k) := by
  refine Option.ext fun v => ?_
  simp only [Option.filter_eq_some_iff, get?_eq_some_iff, filter, List.mem_filter]

theorem Schema.equalBesideKey_iff {s : Schema} {e d : Entity} :
    s.equalBesideKey e d = true ↔ ∀ a, a ∉ s.keyAttributes e.kind → e.get? a = d.get? a := by
  have hlist : ∀ e' : Entity, s.besideKey e.kind e' =
      (e'.attributes.filter fun a _ => !(s.keyAttributes e.kind).contains a).toList := fun _ => rfl
  have hget : ∀ (e' : Entity) (a : String), (e'.attributes.filter fun a _ => !(s.keyAttributes e.kind).contains a).get? a =
      if a ∈ s.keyAttributes e.kind then none else e'.get? a := fun e' a => by
    rw [SortedMap.get?_filter, Entity.get?]
    by_cases ha : a ∈ s.keyAttributes e.kind <;> cases e'.attributes.get? a <;> simp [ha]
  rw [equalBesideKey, decide_eq_true_eq, hlist, hlist]
  constructor
  · intro h a ha
    have hmaps : (e.attributes.filter fun a _ => !(s.keyAttributes e.kind).contains a) =
        d.attributes.filter fun a _ => !(s.keyAttributes e.kind).contains a := by
      cases hm : (e.attributes.filter fun a _ => !(s.keyAttributes e.kind).contains a)
      cases hn : (d.attributes.filter fun a _ => !(s.keyAttributes e.kind).contains a)
      simp_all
    have hsame := congrArg (fun m => m.get? a) hmaps
    simpa only [hget, if_neg ha] using hsame
  · intro h
    congr 1
    refine SortedMap.ext fun a => ?_
    rw [hget, hget]
    by_cases ha : a ∈ s.keyAttributes e.kind
    · simp [ha]
    · simp [ha, h a ha]

/-! ## The renames of a plan -/

namespace Plan

variable {target incoming : Graph} {plan : Plan} {renames : List Rename} {t i : EntityId} {key : NaturalKey}

/-- **A removed entity that may have become another one**: nobody incoming has its natural key. -/
structure Departs (target incoming : Graph) (plan : Plan) (t : EntityId) (key : NaturalKey) : Prop where
  removed : plan.operations.get? t = some .remove
  named : target.naturalKey t = .ok (some key)
  gone : incoming.resolve key = none

/-- **An added entity that may have been another one**: nobody in the target has its natural key. -/
structure Arrives (target incoming : Graph) (plan : Plan) (i : EntityId) (key : NaturalKey) : Prop where
  added : i ∈ plan.additions.map Addition.incoming
  named : incoming.naturalKey i = .ok (some key)
  fresh : target.resolve key = none

/-- **A target entity and an incoming one resemble each other**: they are of one kind, and agree on every attribute that
is not part of the natural key. -/
structure Resembles (target incoming : Graph) (t i : EntityId) : Prop where
  kind : t.kind = i.kind
  beside : ∃ e d, target.entity t = .ok e ∧ incoming.entity i = .ok d ∧
    ∀ a, a ∉ target.schema.keyAttributes t.kind → e.get? a = d.get? a

/-- **What the renames of a plan pair.**  Entities can be exchanged for each other in a pair when they resemble the same
partner. -/
structure Pairs (target incoming : Graph) (plan : Plan) (renames : List Rename) : Prop where
  removedOnce : (renames.map (·.removed)).Nodup
  addedOnce : (renames.map (·.added)).Nodup
  departs : ∀ r ∈ renames, plan.Departs target incoming r.removed r.old
  arrives : ∀ r ∈ renames, plan.Arrives target incoming r.added r.new
  resembles : ∀ r ∈ renames, Resembles target incoming r.removed r.added
  /-- What could be paired is not left over on both sides. -/
  maximal : ∀ {t i old new}, plan.Departs target incoming t old → plan.Arrives target incoming i new →
    Resembles target incoming t i → t ∈ renames.map (·.removed) ∨ i ∈ renames.map (·.added)
  /-- Pairs that could exchange their partners come in the same order on both sides. -/
  ascending : ∀ r ∈ renames, ∀ r' ∈ renames, Resembles target incoming r.removed r'.added →
    compare r.removed r'.removed = compare r.added r'.added
  /-- Of entities that can be exchanged, those that come first are paired. -/
  removedFirst : ∀ r ∈ renames, ∀ {t old}, plan.Departs target incoming t old → Resembles target incoming t r.added →
    compare t r.removed = .lt → t ∈ renames.map (·.removed)
  addedFirst : ∀ r ∈ renames, ∀ {i new}, plan.Arrives target incoming i new → Resembles target incoming r.removed i →
    compare i r.added = .lt → i ∈ renames.map (·.added)

theorem Resembles.across {t' i' : EntityId} (h : Resembles target incoming t i) (h' : Resembles target incoming t' i)
    (h'' : Resembles target incoming t' i') : Resembles target incoming t i' := by
  obtain ⟨hkind, e, d, he, hd, hsame⟩ := h
  obtain ⟨hkind', e', d', he', hd', hsame'⟩ := h'
  obtain ⟨hkind'', e'', d'', he'', hd'', hsame''⟩ := h''
  have hkinds : t.kind = t'.kind := hkind.trans hkind'.symm
  obtain rfl := Except.ok.inj (hd.symm.trans hd')
  obtain rfl := Except.ok.inj (he'.symm.trans he'')
  refine ⟨hkinds.trans hkind'', e, d'', he, hd'', fun a ha => ?_⟩
  have ha' : a ∉ target.schema.keyAttributes t'.kind := hkinds ▸ ha
  rw [hsame a ha, ← hsame' a ha', hsame'' a ha']

/-- A removed entity with its data and its natural key, if nobody incoming has that key. -/
def departure? (target incoming : Graph) (o : EntityId × Operation) : Option (EntityId × Entity × NaturalKey) :=
  match o.2 with
  | .relabel _ _ => none
  | .remove => do
    let data ← target.data? o.1
    let key ← target.schema.naturalKey? data
    if (incoming.resolve key).isNone then some (o.1, data, key) else none

/-- Departures and new keys that are paired, as a rename. -/
def renameOf (x : (EntityId × Entity × NaturalKey) × EntityId × NaturalKey) : Rename := ⟨x.1.1, x.2.1, x.1.2.2, x.2.2⟩

/-- Whether a departure may have become an added entity. -/
def fits (target incoming : Graph) (x : EntityId × Entity × NaturalKey) (y : EntityId × NaturalKey) : Bool :=
  becomes target incoming x.1 x.2.1 y

theorem pairRenames_eq : ∀ {l : List (EntityId × Operation)} (fresh : List (EntityId × NaturalKey)),
    (∀ o ∈ l, target.contains o.1 = true) → pairRenames target incoming l fresh =
      .ok ((firstFit (fits target incoming) (l.filterMap (departure? target incoming)) fresh).map renameOf)
  | [], _, _ => rfl
  | (t, .relabel i links) :: rest, fresh, h => by
    rw [pairRenames, pairRenames_eq fresh fun o ho => h o (List.mem_cons_of_mem _ ho)]
    rfl
  | (t, .remove) :: rest, fresh, h => by
    have ih := fun fresh => pairRenames_eq fresh fun o ho => h o (List.mem_cons_of_mem _ ho)
    obtain ⟨data, hdata⟩ := Graph.exists_entity (h _ List.mem_cons_self)
    have hdeparture : departure? target incoming (t, .remove) = (target.schema.naturalKey? data).bind fun key =>
        if (incoming.resolve key).isNone then some (t, data, key) else none := by
      simp only [departure?, Graph.entity_ok_iff_data.1 hdata]
      rfl
    rw [List.filterMap_cons, hdeparture]
    unfold pairRenames
    by_cases hnil : fresh = []
    · simp [hnil, firstFit_nil_right]
    have hsome : fresh.isEmpty = false := by simpa using hnil
    simp only [hsome, hdata, Bool.false_eq_true, if_false, bind, Except.bind, pure, Except.pure]
    cases hkey : target.schema.naturalKey? data with
    | none => exact ih fresh
    | some key =>
      cases howner : incoming.resolve key with
      | some owner => simpa [howner] using ih fresh
      | none =>
        have hfits : fits target incoming (t, data, key) = becomes target incoming t data := rfl
        simp only [Option.bind_some, howner, Option.isNone_none, Option.isSome_none, if_true, Bool.false_eq_true, if_false,
          firstFit, hfits]
        cases hfind : fresh.find? (becomes target incoming t data) with
        | none => exact ih fresh
        | some partner =>
          simp only [ih]
          rfl

/-- **A plan of what is there**: it has operations for target entities and adds incoming ones, each once. -/
structure Speaks (target incoming : Graph) (plan : Plan) : Prop where
  operations : ∀ {t o}, plan.operations.get? t = some o → target.contains t = true
  additions : ∀ a ∈ plan.additions, incoming.contains a.incoming = true
  once : (plan.additions.map Addition.incoming).Nodup

def departures (target incoming : Graph) (plan : Plan) : List (EntityId × Entity × NaturalKey) :=
  plan.operations.toList.filterMap (departure? target incoming)

def newKeys (target incoming : Graph) (plan : Plan) : List (EntityId × NaturalKey) :=
  sortBy freshLe ((plan.additions.map Addition.incoming).filterMap (freshKey? target incoming))

def partners (target incoming : Graph) (plan : Plan) : List ((EntityId × Entity × NaturalKey) × EntityId × NaturalKey) :=
  firstFit (fits target incoming) (departures target incoming plan) (newKeys target incoming plan)

theorem findRenames_eq (h : plan.Speaks target incoming) :
    findRenames target incoming plan = .ok ((partners target incoming plan).map renameOf) := by
  obtain ⟨fresh, hfresh⟩ := Pass.freshKeys_total target h.additions
  have hthere : ∀ o ∈ plan.operations.toList, target.contains o.1 = true := fun o ho =>
    h.operations (SortedMap.get?_eq_some_iff.2 ho)
  have hkeys : sortBy freshLe fresh = newKeys target incoming plan := by rw [newKeys, freshKeys_ok hfresh]
  unfold findRenames
  rw [hfresh]
  show (pairRenames target incoming plan.operations.toList (sortBy freshLe fresh)).mapError ReconcileError.store = _
  rw [pairRenames_eq _ hthere, hkeys]
  rfl

/-! ### Both sides -/

variable {x : EntityId × Entity × NaturalKey} {y : EntityId × NaturalKey}

theorem mem_departures_iff : x ∈ departures target incoming plan ↔
    plan.Departs target incoming x.1 x.2.2 ∧ target.entity x.1 = .ok x.2.1 := by
  obtain ⟨t, data, key⟩ := x
  simp only [departures, List.mem_filterMap]
  constructor
  · rintro ⟨⟨t', o⟩, ho, h⟩
    cases o with
    | relabel i links => cases h
    | remove =>
      obtain ⟨data', hdata, h⟩ := Option.bind_eq_some_iff.1 h
      obtain ⟨key', hkey, h⟩ := Option.bind_eq_some_iff.1 h
      split at h
      · next hgone =>
        obtain ⟨rfl, rfl, rfl⟩ : t' = t ∧ data' = data ∧ key' = key := by simpa using h
        rw [← Graph.entity_ok_iff_data] at hdata
        refine ⟨⟨SortedMap.get?_eq_some_iff.2 ho, ?_, by simpa using hgone⟩, hdata⟩
        simp only [Graph.naturalKey, hdata, Except.map, hkey]
      · cases h
  · rintro ⟨⟨hremoved, hnamed, hgone⟩, hdata⟩
    refine ⟨(t, .remove), SortedMap.get?_eq_some_iff.1 hremoved, ?_⟩
    simp only [Graph.naturalKey, hdata, Except.map, Except.ok.injEq] at hnamed
    simp [departure?, Graph.entity_ok_iff_data.1 hdata, hnamed, hgone]

theorem mem_newKeys_iff (hschema : incoming.schema = target.schema) :
    y ∈ newKeys target incoming plan ↔ plan.Arrives target incoming y.1 y.2 := by
  obtain ⟨i, key⟩ := y
  simp only [newKeys, mem_sortBy, List.mem_filterMap]
  constructor
  · rintro ⟨i', hi, h⟩
    obtain ⟨data, hdata, h⟩ := Option.bind_eq_some_iff.1 h
    obtain ⟨key', hkey, h⟩ := Option.bind_eq_some_iff.1 h
    split at h
    · next hfresh =>
      obtain ⟨rfl, rfl⟩ : i' = i ∧ key' = key := by simpa using h
      rw [← Graph.entity_ok_iff_data] at hdata
      refine ⟨hi, ?_, by simpa using hfresh⟩
      simp only [Graph.naturalKey, hdata, Except.map, hschema, hkey]
    · cases h
  · rintro ⟨hi, hnamed, hfresh⟩
    refine ⟨i, hi, ?_⟩
    cases hdata : incoming.entity i with
    | error cause => simp [Graph.naturalKey, hdata, Except.map] at hnamed
    | ok data =>
      simp only [Graph.naturalKey, hdata, Except.map, Except.ok.injEq, hschema] at hnamed
      simp [freshKey?, Graph.entity_ok_iff_data.1 hdata, hnamed, hfresh]

theorem fits_iff (hg : target.Consistent) (hx : target.entity x.1 = .ok x.2.1) :
    fits target incoming x y = true ↔ Resembles target incoming x.1 y.1 := by
  have hkind := hg.kind_eq hx
  unfold fits becomes
  rw [Bool.and_eq_true, decide_eq_true_eq]
  constructor
  · rintro ⟨hkinds, hsame⟩
    split at hsame
    · next d hd =>
      rw [Schema.equalBesideKey_iff, hkind] at hsame
      exact ⟨hkinds.symm, x.2.1, d, hx, hd, hsame⟩
    · cases hsame
  · rintro ⟨hkinds, e, d, he, hd, hsame⟩
    obtain rfl := Except.ok.inj (hx.symm.trans he)
    refine ⟨hkinds.symm, ?_⟩
    rw [hd]
    exact Schema.equalBesideKey_iff.2 (hkind ▸ hsame)

theorem departures_ascending : (departures target incoming plan).Pairwise fun x y => compare x.1 y.1 = .lt := by
  refine List.Pairwise.filterMap _ ?_ plan.operations.ascending
  intro o o' hlt x hx x' hx'
  have hfirst : ∀ {o x}, x ∈ departure? target incoming o → x.1 = o.1 := fun {o x} h => by
    obtain ⟨t, operation⟩ := o
    cases operation with
    | relabel i links => cases h
    | remove =>
      obtain ⟨data, -, h⟩ := Option.bind_eq_some_iff.1 h
      obtain ⟨key, -, h⟩ := Option.bind_eq_some_iff.1 h
      split at h <;> simp_all
      rw [← h]
  rw [hfirst hx, hfirst hx']
  exact hlt

theorem newKeys_distinct (h : plan.Speaks target incoming) : ((newKeys target incoming plan).map Prod.fst).Nodup := by
  have hperm := (sortBy_perm freshLe ((plan.additions.map Addition.incoming).filterMap (freshKey? target incoming))).map
    Prod.fst
  rw [newKeys, hperm.nodup_iff, List.map_filterMap]
  refine h.once.filterMap fun i i' j hi hi' => ?_
  obtain ⟨b, hb, rfl⟩ := Option.map_eq_some_iff.1 hi
  obtain ⟨b', hb', heq⟩ := Option.map_eq_some_iff.1 hi'
  rw [(freshKey?_eq_some hb).1, (freshKey?_eq_some hb').1, heq]

theorem newKeys_nodup (h : plan.Speaks target incoming) : (newKeys target incoming plan).Nodup :=
  .of_map Prod.fst (newKeys_distinct h)

theorem newKeys_ascending (h : plan.Speaks target incoming) :
    (newKeys target incoming plan).Pairwise fun x y => compare x.1 y.1 = .lt := by
  have hsorted : (newKeys target incoming plan).Pairwise fun x y =>
      (compareLex (compareOn Prod.fst) (compareOn Prod.snd) x y).isLE := sortBy_inOrder _
  refine (hsorted.and (List.pairwise_map.1 (newKeys_distinct h))).imp ?_
  rintro a b ⟨hle, hne⟩
  rcases Ordering.isLE_then_iff_or.1 hle with hlt | ⟨heq, -⟩
  · exact hlt
  · exact absurd (Std.LawfulEqOrd.eq_of_compare heq) hne

/-! ### The pairs -/

variable {z z' : (EntityId × Entity × NaturalKey) × EntityId × NaturalKey}

theorem removed_mem_iff : t ∈ ((partners target incoming plan).map renameOf).map (·.removed) ↔
    ∃ x ∈ (partners target incoming plan).map Prod.fst, x.1 = t := by
  simp only [List.map_map, List.mem_map, Function.comp_apply, exists_exists_and_eq_and, renameOf]

theorem added_mem_iff : i ∈ ((partners target incoming plan).map renameOf).map (·.added) ↔
    ∃ y ∈ (partners target incoming plan).map Prod.snd, y.1 = i := by
  simp only [List.map_map, List.mem_map, Function.comp_apply, exists_exists_and_eq_and, renameOf]

theorem departure_of_partners (hz : z ∈ partners target incoming plan) : z.1 ∈ departures target incoming plan :=
  (firstFit_fst_sublist _ _).subset (List.mem_map_of_mem hz)

theorem newKey_of_partners (hz : z ∈ partners target incoming plan) : z.2 ∈ newKeys target incoming plan :=
  snd_mem_of_firstFit hz

theorem resembles_of_partners (htarget : target.Consistent) (hz : z ∈ partners target incoming plan) :
    Resembles target incoming z.1.1 z.2.1 :=
  (fits_iff htarget (mem_departures_iff.1 (departure_of_partners hz)).2).1 (fits_of_mem_firstFit hz)

/-- Later pairs are of higher entities, and go on rising as far as they could have been exchanged. -/
theorem partners_ascending (htarget : target.Consistent) (h : plan.Speaks target incoming) :
    (partners target incoming plan).Pairwise fun z z' => compare z.1.1 z'.1.1 = .lt ∧
      (Resembles target incoming z.1.1 z'.2.1 → compare z.2.1 z'.2.1 = .lt) := by
  refine (firstFit_ascending departures_ascending (newKeys_ascending h) (newKeys_nodup h)).imp_of_mem ?_
  intro z z' hz _ hlt
  have hdata := (mem_departures_iff.1 (departure_of_partners hz)).2
  exact ⟨hlt.1, fun hsame => hlt.2 ((fits_iff htarget hdata).2 hsame)⟩

/-- Of two pairs that could exchange their partners, the same one comes first on both sides. -/
theorem partners_inOrder (htarget : target.Consistent) (h : plan.Speaks target incoming)
    (hz : z ∈ partners target incoming plan) (hz' : z' ∈ partners target incoming plan)
    (hsame : Resembles target incoming z.1.1 z'.2.1) : compare z.1.1 z'.1.1 = compare z.2.1 z'.2.1 := by
  have hascending := partners_ascending htarget h
  have hall : ∀ z ∈ partners target incoming plan, ∀ z' ∈ partners target incoming plan,
      Resembles target incoming z.1.1 z'.2.1 → compare z.1.1 z'.1.1 = compare z.2.1 z'.2.1 := by
    refine List.Pairwise.forall_of_forall_of_flip (fun z _ _ => ?_) ?_ ?_
    · simp
    · exact hascending.imp fun hlt hsame => by rw [hlt.1, hlt.2 hsame]
    · -- the later of two could exchange its partner as well
      refine hascending.imp_of_mem fun {z z'} hz hz' hlt hsame => ?_
      have hacross := (resembles_of_partners htarget hz).across hsame (resembles_of_partners htarget hz')
      rw [Std.OrientedCmp.gt_iff_lt.2 hlt.1, Std.OrientedCmp.gt_iff_lt.2 (hlt.2 hacross)]
  exact hall z hz z' hz' hsame

theorem pairs_of_partners (htarget : target.Consistent) (hschema : incoming.schema = target.schema)
    (h : plan.Speaks target incoming) : plan.Pairs target incoming ((partners target incoming plan).map renameOf) := by
  have hirrefl : ∀ {a b : EntityId}, compare a b = .lt → a ≠ b := fun {a b} hlt heq =>
    Std.OrientedCmp.not_lt_of_lt hlt (heq ▸ hlt)
  constructor
  case removedOnce =>
    rw [List.map_map]
    exact List.Pairwise.imp hirrefl (List.pairwise_map.2 ((partners_ascending htarget h).imp And.left))
  case addedOnce =>
    have hmap : ((partners target incoming plan).map renameOf).map (·.added) =
        ((partners target incoming plan).map Prod.snd).map Prod.fst := by simp [renameOf]
    rw [hmap]
    refine (firstFit_snd_nodup _ (newKeys_nodup h)).map_on fun y hy y' hy' => ?_
    obtain ⟨z, hz, rfl⟩ := List.mem_map.1 hy
    obtain ⟨z', hz', rfl⟩ := List.mem_map.1 hy'
    exact List.inj_on_of_nodup_map (newKeys_distinct h) (newKey_of_partners hz) (newKey_of_partners hz')
  case departs =>
    rintro r hr
    obtain ⟨z, hz, rfl⟩ := List.mem_map.1 hr
    exact (mem_departures_iff.1 (departure_of_partners hz)).1
  case arrives =>
    rintro r hr
    obtain ⟨z, hz, rfl⟩ := List.mem_map.1 hr
    exact (mem_newKeys_iff hschema).1 (newKey_of_partners hz)
  case resembles =>
    rintro r hr
    obtain ⟨z, hz, rfl⟩ := List.mem_map.1 hr
    exact resembles_of_partners htarget hz
  case maximal =>
    intro t i old new hold hnew hsame
    obtain ⟨e, d, he, hd, -⟩ := hsame.beside
    have hx : (t, e, old) ∈ departures target incoming plan := mem_departures_iff.2 ⟨hold, he⟩
    have hy : (i, new) ∈ newKeys target incoming plan := (mem_newKeys_iff hschema).2 hnew
    rw [removed_mem_iff, added_mem_iff]
    exact (firstFit_maximal hx hy ((fits_iff htarget he).2 hsame)).imp (fun hmem => ⟨_, hmem, rfl⟩)
      fun hmem => ⟨_, hmem, rfl⟩
  case ascending =>
    rintro r hr r' hr' hsame
    obtain ⟨z, hz, rfl⟩ := List.mem_map.1 hr
    obtain ⟨z', hz', rfl⟩ := List.mem_map.1 hr'
    exact partners_inOrder htarget h hz hz' hsame
  case removedFirst =>
    rintro r hr t old hold hsame hlt
    obtain ⟨z, hz, rfl⟩ := List.mem_map.1 hr
    obtain ⟨e, d, he, hd, -⟩ := hsame.beside
    have hmem : (t, e, old) ∈ departures target incoming plan := mem_departures_iff.2 ⟨hold, he⟩
    exact removed_mem_iff.2 ⟨_, firstFit_left_first departures_ascending Std.OrientedCmp.not_lt_of_lt hz hmem hlt
      ((fits_iff htarget he).2 hsame), rfl⟩
  case addedFirst =>
    rintro r hr i new hnew hsame hlt
    obtain ⟨z, hz, rfl⟩ := List.mem_map.1 hr
    have hmem : (i, new) ∈ newKeys target incoming plan := (mem_newKeys_iff hschema).2 hnew
    have hdata := (mem_departures_iff.1 (departure_of_partners hz)).2
    exact added_mem_iff.2 ⟨_, firstFit_right_first (newKeys_ascending h) Std.OrientedCmp.not_lt_of_lt hz hmem hlt
      ((fits_iff htarget hdata).2 hsame), rfl⟩

/-- **The renames of a plan pair what departs with what arrives**: nothing twice, nothing that could be paired left over
on both sides, and the first ones first. -/
theorem findRenames_pairs (htarget : target.Consistent) (hschema : target.schema = incoming.schema)
    (h : plan.Speaks target incoming) :
    ∃ renames, findRenames target incoming plan = .ok renames ∧ plan.Pairs target incoming renames :=
  ⟨_, findRenames_eq h, pairs_of_partners htarget hschema.symm h⟩

/-- Entities of one kind, each with the number that is its natural key and one beside it. -/
def numbered (numbers : List (Int64 × Int64)) : Graph :=
  { Graph.ofNodes ⟨#[⟨"A", ["id"], []⟩]⟩
      (numbers.zipIdx.map fun n => (⟨0, n.2.toUInt32⟩, ((Entity.new 0 "s").set "id" (.int n.1.1)).set "x" (.int n.1.2), []))
      [(0, numbers.length.toUInt32)] with
    keys := ⟨.ofList (numbers.zipIdx.map fun n => (⟨0, toString n.1.1⟩, ⟨0, n.2.toUInt32⟩)), .empty⟩ }

def lookalikesBefore : Graph := numbered [(1, 7), (2, 8), (3, 7), (4, 7), (5, 9)]

def lookalikesAfter : Graph := numbered [(12, 8), (13, 7), (5, 9), (14, 7)]

/-- Three removed entities look alike, and two of the added ones look like them. -/
def lookalikes : Plan where
  additions := [⟨none, ⟨0, 3⟩⟩, ⟨none, ⟨0, 1⟩⟩, ⟨none, ⟨0, 0⟩⟩]
  operations := .ofList [(⟨0, 0⟩, .remove), (⟨0, 1⟩, .remove), (⟨0, 2⟩, .remove), (⟨0, 3⟩, .remove),
    (⟨0, 4⟩, .relabel ⟨0, 2⟩ none)]
  renames := []

theorem findRenames_lookalikes : ∃ renames, findRenames lookalikesBefore lookalikesAfter lookalikes = .ok renames ∧
    lookalikes.Pairs lookalikesBefore lookalikesAfter renames ∧
    renames.map (fun r => (r.removed, r.added)) = [(⟨0, 0⟩, ⟨0, 1⟩), (⟨0, 1⟩, ⟨0, 0⟩), (⟨0, 2⟩, ⟨0, 3⟩)] := by
  have htarget : lookalikesBefore.Consistent := by decide +kernel
  have hspeaks : lookalikes.Speaks lookalikesBefore lookalikesAfter := by
    constructor
    case operations =>
      have hall : ∀ o ∈ lookalikes.operations.toList, lookalikesBefore.contains o.1 = true := by decide +kernel
      exact fun {t o} h => hall (t, o) (SortedMap.get?_eq_some_iff.1 h)
    case additions => decide +kernel
    case once => decide
  have hschema : lookalikesBefore.schema = lookalikesAfter.schema := rfl
  obtain ⟨renames, hfound, hpairs⟩ := findRenames_pairs htarget hschema hspeaks
  have hrun : ((findRenames lookalikesBefore lookalikesAfter lookalikes).toOption.any fun renames =>
      renames.map (fun r => (r.removed, r.added)) = [(⟨0, 0⟩, ⟨0, 1⟩), (⟨0, 1⟩, ⟨0, 0⟩), (⟨0, 2⟩, ⟨0, 3⟩)]) = true := by
    decide +kernel
  rw [hfound] at hrun
  exact ⟨renames, hfound, hpairs, of_decide_eq_true hrun⟩

end Plan
end Reconciliation
