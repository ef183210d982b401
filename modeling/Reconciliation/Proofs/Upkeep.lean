import Reconciliation.Proofs.Admission
import Reconciliation.Proofs.Records
import Reconciliation.Proofs.Registry
/-!
# Edits keep a graph consistent

Every edit that succeeds leaves a consistent graph behind.  Of each edit three things are said.  It keeps the rules about
kinds and links (`Lawful`): one that leaves the links alone has to keep the kinds (`Lawful.of_sameLinks`), adding and
moving ask beforehand for what the rules want of links (`Gives`), and removing takes away whole entities with the links
to them (`Loses`), and whatever requires one of them as well.  And it keeps both look-ups right about every entity that
they were right about (`WellKeyed`, `WellReferred`).

An added entity has to get an id that nobody has, and changed data has to keep its natural key: a new one changes the
references of others, which may stand in natural keys themselves.
-/
namespace Reconciliation

open Relation

/-! ## Links in the order of declaration -/

theorem sortBy_eq_self {α : Type} {le : α → α → Bool} : ∀ {l : List α}, l.Pairwise (fun x y => le x y) → sortBy le l = l
  | [], _ => rfl
  | a :: rest, h => by
    rw [sortBy, sortBy_eq_self h.of_cons]
    cases rest with
    | nil => rfl
    | cons b rest => rw [insertBy, if_pos (List.rel_of_pairwise_cons h List.mem_cons_self)]

section
variable {α : Type} {order : α → α → Ordering} [Std.TransCmp order]

theorem sortBy_inOrder (l : List α) :
    (sortBy (fun a b => (order a b).isLE) l).Pairwise fun a b => (order a b).isLE := by
  refine sortBy_pairwise (fun a b => ?_) (fun _ _ _ => Std.TransCmp.isLE_trans) l
  have hswap : order b a = (order a b).swap := Std.OrientedCmp.eq_swap
  rw [hswap]
  cases order a b <;> rfl

/-- Sorting forgets in which order things come, if the comparison tells them apart. -/
theorem sortBy_eq_of_perm {l l' : List α} (apart : ∀ a ∈ l, ∀ b, order a b = .eq → a = b) (h : l.Perm l') :
    sortBy (fun a b => (order a b).isLE) l = sortBy (fun a b => (order a b).isLE) l' := by
  have hperm : (sortBy (fun a b => (order a b).isLE) l).Perm (sortBy (fun a b => (order a b).isLE) l') :=
    ((sortBy_perm _ l).trans h).trans (sortBy_perm _ l').symm
  refine hperm.eq_of_pairwise (fun a b ha _ hab hba => ?_) (sortBy_inOrder l) (sortBy_inOrder l')
  exact apart a (mem_sortBy.1 ha) b (Std.OrientedCmp.isLE_antisymm hab hba)

end

namespace Graph

/-- Links are in the order of declaration, and in the order of their ends on one connection. -/
def InOrder (s : Schema) (kind : Kind) (links : List Link) : Prop :=
  links.Pairwise fun a b => (compareLex (compareOn fun l : Link => s.rankOf kind l.1) (compareOn Prod.snd) a b).isLE

variable {g g₁ g' : Graph} {id parent : EntityId} {links : List Link} {data : Entity} {u : Unit}

theorem inOrder_inDeclarationOrder (s : Schema) (kind : Kind) (links : List Link) :
    InOrder s kind (inDeclarationOrder s kind links) := sortBy_inOrder links

theorem ordered_iff {s : Schema} {kind : Kind} : inDeclarationOrder s kind links = links ↔ InOrder s kind links :=
  ⟨fun h => h ▸ inOrder_inDeclarationOrder s kind links, sortBy_eq_self⟩

theorem inDeclarationOrder_congr {s : Schema} {kind : Kind} {l l' : List Link}
    (hdeclared : ∀ x ∈ l, x.1.child = kind ∧ s.declares x.1 = true) (hperm : l.Perm l') :
    inDeclarationOrder s kind l = inDeclarationOrder s kind l' := by
  refine sortBy_eq_of_perm (fun a ha b heq => ?_) hperm
  obtain ⟨hrank, hend⟩ := compareLex_eq_eq.1 heq
  have hranks : s.rankOf kind a.1 = s.rankOf kind b.1 := Std.LawfulEqCmp.compare_eq_iff_eq.1 hrank
  obtain ⟨hchild, hdecl⟩ := hdeclared a ha
  rw [Schema.declares, hchild, List.contains_iff_mem] at hdecl
  exact Prod.ext ((List.idxOf_inj hdecl).1 hranks) (Std.LawfulEqCmp.compare_eq_iff_eq.1 hend)

theorem wellKeyed_iff : g.WellKeyed id ↔
    ∀ key, g.resolve key = some id ↔ ∃ e, g.data? id = some e ∧ g.schema.naturalKey? e = some key := by
  simp only [WellKeyed, entity_ok_iff_data]

theorem wellReferred_iff : g.WellReferred id ↔ ∀ key, id ∈ g.referrers key ↔ ∃ e, g.data? id = some e ∧ key ∈ e.refs := by
  simp only [WellReferred, entity_ok_iff_data]

/-- Two graphs have the same data and the same look-ups. -/
structure SameData (g g' : Graph) : Prop where
  schema : g'.schema = g.schema
  data : ∀ x, g'.data? x = g.data? x
  keys : g'.keys = g.keys

theorem SameData.wellKeyed (h : g.SameData g') {x : EntityId} : g'.WellKeyed x ↔ g.WellKeyed x := by
  simp only [wellKeyed_iff, h.data, h.schema, resolve, h.keys]

theorem SameData.wellReferred (h : g.SameData g') {x : EntityId} : g'.WellReferred x ↔ g.WellReferred x := by
  simp only [wellReferred_iff, h.data, referrers, h.keys]

theorem sameData_of_modify {f : Node → Node} (hf : ∀ n, (f n).data = n.data) :
    g.SameData { g with nodes := g.nodes.modify id f } where
  schema := rfl
  data x := by
    simp only [data?, SortedMap.get?_modify]
    split
    · next heq =>
      subst heq
      rw [Option.map_map]
      congr 1
      funext n
      exact hf n
    · rfl
  keys := rfl

theorem setExternal_sameData {mapping : String} {value : Json} (h : setExternal mapping id value g = .ok u g') :
    g.SameData g' := by
  rw [setExternal, get_bind] at h
  obtain ⟨n, hn, h⟩ := ofExcept_bind_ok_iff.1 h
  obtain ⟨-, rfl⟩ := EStateM.Result.ok.inj h
  exact sameData_of_modify fun _ => rfl

theorem setParents_sameData (h : setParents id links g = .ok u g') : g.SameData g' := by
  obtain ⟨-, -, -, rfl⟩ := setParents_ok_iff.1 h
  exact sameData_of_modify fun _ => rfl

/-! ## Edits that leave the links alone -/

theorem Lawful.kind_of_data (hg : g.Lawful) {e : Entity} (h : g.data? id = some e) : e.kind = id.kind := by
  obtain ⟨n, hn, rfl⟩ := Option.map_eq_some_iff.1 h
  exact hg.kind hn

theorem Lawful.of_sameLinks (hg : g.Lawful) (hlinks : g.SameLinks g') (hschema : g'.schema = g.schema)
    (hkind : ∀ {x e}, g'.data? x = some e → e.kind = x.kind) : g'.Lawful := by
  have hback : ∀ {x n'}, g'.nodes.get? x = some n' → ∃ n, g.nodes.get? x = some n ∧ n.parents = n'.parents := by
    intro x n' hn'
    have hx : g.links? x = some n'.parents := (hlinks.links x).symm.trans (links?_eq_some_iff.2 ⟨n', hn', rfl⟩)
    exact links?_eq_some_iff.1 hx
  have hedge : ∀ {a b}, g'.IsParent a b → g.IsParent a b := by
    rintro a b ⟨n', c, hn', hmem⟩
    obtain ⟨n, hn, heq⟩ := hback hn'
    exact ⟨n, c, hn, heq ▸ hmem⟩
  constructor
  case kind =>
    exact fun {x n'} hn' => hkind (Option.map_eq_some_iff.2 ⟨n', hn', rfl⟩)
  case kind_declared =>
    intro x n' hn'
    obtain ⟨n, hn, -⟩ := hback hn'
    rw [hschema]
    exact hg.kind_declared hn
  case declared =>
    intro x n' c q hn' hmem
    obtain ⟨n, hn, heq⟩ := hback hn'
    rw [hschema]
    exact hg.declared hn (heq ▸ hmem)
  case parent =>
    intro x n' c q hn' hmem
    obtain ⟨n, hn, heq⟩ := hback hn'
    rw [hlinks.contains]
    exact hg.parent hn (heq ▸ hmem)
  case connections =>
    intro x n' hn'
    obtain ⟨n, hn, heq⟩ := hback hn'
    exact heq ▸ hg.connections hn
  case ordered =>
    intro x n' hn'
    obtain ⟨n, hn, heq⟩ := hback hn'
    rw [hschema, ← heq]
    exact hg.ordered hn
  case required =>
    intro x n' c hn' hc
    obtain ⟨n, hn, heq⟩ := hback hn'
    rw [hschema] at hc
    exact heq ▸ hg.required hn hc
  case slot =>
    intro x y n₁ n₂ c q hn₁ hn₂ hone hmem hmem'
    obtain ⟨n, hn, heq⟩ := hback hn₁
    obtain ⟨n', hn', heq'⟩ := hback hn₂
    exact hg.slot hn hn' hone (heq ▸ hmem) (heq' ▸ hmem')
  case acyclic =>
    exact fun x hcycle => hg.acyclic x (TransGen.mono (fun _ _ h => hedge h) x x hcycle)

theorem Consistent.owner_iff (hg : g.Consistent) {key : NaturalKey} :
    g.resolve key = some id ↔ ∃ e, g.data? id = some e ∧ g.schema.naturalKey? e = some key :=
  wellKeyed_iff.1 (hg.wellKeyed id) key

theorem Consistent.referrer_iff (hg : g.Consistent) {key : NaturalKey} :
    id ∈ g.referrers key ↔ ∃ e, g.data? id = some e ∧ key ∈ e.refs :=
  wellReferred_iff.1 (hg.intact.referred id) key

theorem Intact.setExternal (hg : g.Intact) {mapping : String} {value : Json}
    (h : Graph.setExternal mapping id value g = .ok u g') : g'.Intact := by
  have hdata := setExternal_sameData h
  refine ⟨hg.of_sameLinks (setExternal_ok h) hdata.schema fun {x e} hx => ?_, fun x => hdata.wellReferred.2 (hg.referred x)⟩
  rw [hdata.data] at hx
  exact hg.kind_of_data hx

theorem Consistent.setExternal (hg : g.Consistent) {mapping : String} {value : Json}
    (h : Graph.setExternal mapping id value g = .ok u g') : g'.Consistent :=
  (hg.intact.setExternal h).consistent fun x => (setExternal_sameData h).wellKeyed.2 (hg.wellKeyed x)

theorem data?_replaceData {old new : Entity} (h : g.contains id = true) (x : EntityId) :
    (g.replaceData id old new).data? x = if x = id then some new else g.data? x := by
  obtain ⟨n, hn⟩ := contains_iff.1 h
  simp only [data?, replaceData, SortedMap.get?_modify, hn]
  split <;> rfl

theorem mem_referrers_replaceData {old new : Entity} {key : NaturalKey} {x : EntityId} :
    x ∈ (g.replaceData id old new).referrers key ↔
      (x ∈ g.referrers key ∧ ¬(key ∈ old.refs ∧ x = id)) ∨ key ∈ new.refs ∧ x = id :=
  KeyTable.mem_referrers_addReferences.trans (or_congr_left KeyTable.mem_referrers_dropReferences)

theorem resolve_replaceData {old new : Entity} {key : NaturalKey} :
    (g.replaceData id old new).resolve key = g.resolve key :=
  (KeyTable.owner?_addReferences _ _).trans (KeyTable.owner?_dropReferences _ _)

theorem Lawful.replaceData (hg : g.Lawful) {old new : Entity} (hold : g.data? id = some old)
    (hkind : new.kind = old.kind) : (g.replaceData id old new).Lawful := by
  refine hg.of_sameLinks (sameLinks_of_modify (f := fun n => { n with data := new }) fun _ => rfl) rfl fun {x e} hx => ?_
  rw [data?_replaceData (contains_of_data hold)] at hx
  split at hx
  · next heq =>
    obtain rfl := Option.some.inj hx
    rw [hkind, heq]
    exact hg.kind_of_data hold
  · exact hg.kind_of_data hx

theorem WellReferred.replaceData {x : EntityId} (hx : g.WellReferred x) {old new : Entity} (hold : g.data? id = some old) :
    (g.replaceData id old new).WellReferred x := by
  rw [wellReferred_iff] at hx ⊢
  intro key
  rw [mem_referrers_replaceData, hx, data?_replaceData (contains_of_data hold)]
  split
  · next heq => simp [heq, hold]
  · next hne => simp [hne]

theorem WellKeyed.replaceData {x : EntityId} (hx : g.WellKeyed x) {old new : Entity} (hold : g.data? id = some old)
    (hkey : g.schema.naturalKey? new = g.schema.naturalKey? old) : (g.replaceData id old new).WellKeyed x := by
  rw [wellKeyed_iff] at hx ⊢
  intro key
  rw [resolve_replaceData, hx, data?_replaceData (contains_of_data hold)]
  split
  · next heq => simp [heq, hold, hkey, show (g.replaceData id old new).schema = g.schema from rfl]
  · rfl

theorem Consistent.replaceData (hg : g.Consistent) {old new : Entity} (hold : g.data? id = some old)
    (hkind : new.kind = old.kind) (hkey : g.schema.naturalKey? new = g.schema.naturalKey? old) :
    (g.replaceData id old new).Consistent :=
  Intact.consistent ⟨hg.intact.toLawful.replaceData hold hkind, fun x => (hg.intact.referred x).replaceData hold⟩
    fun x => (hg.wellKeyed x).replaceData hold hkey

/-! ## Edits that give one entity links -/

/-- **One entity gets a node with links**, which are admitted, and all others keep theirs. -/
structure Gives (g g' : Graph) (id : EntityId) (moving : Option EntityId) (m : Node) (links : List Link) : Prop where
  admits : g.Admits id.kind moving links
  moving : ∀ x, some x = moving → x = id
  schema : g'.schema = g.schema
  node : ∀ x, g'.nodes.get? x = if x = id then some m else g.nodes.get? x
  kind : m.data.kind = id.kind
  parents : m.parents = inDeclarationOrder g.schema id.kind links

namespace Gives

variable {moving : Option EntityId} {m n n' : Node} {x y q : EntityId} {c : Connection}

theorem cases (h : g.Gives g' id moving m links) (hn : g'.nodes.get? x = some n) :
    x = id ∧ n = m ∨ x ≠ id ∧ g.nodes.get? x = some n := by
  rw [h.node] at hn
  split at hn
  · next heq => exact .inl ⟨heq, (Option.some.inj hn).symm⟩
  · next hne => exact .inr ⟨hne, hn⟩

theorem contains (h : g.Gives g' id moving m links) (hx : g.contains x = true) : g'.contains x = true := by
  obtain ⟨n, hn⟩ := contains_iff.1 hx
  rw [contains_iff, h.node]
  split
  · exact ⟨_, rfl⟩
  · exact ⟨n, hn⟩

theorem mem_links (h : g.Gives g' id moving m links) {l : Link} : l ∈ m.parents ↔ l ∈ links := by
  rw [h.parents, mem_inDeclarationOrder]

theorem link (h : g.Gives g' id moving m links) (hn : g'.nodes.get? x = some n) (hmem : (c, q) ∈ n.parents) :
    x = id ∧ (c, q) ∈ links ∨ x ≠ id ∧ g.nodes.get? x = some n ∧ (c, q) ∈ n.parents := by
  rcases h.cases hn with ⟨rfl, rfl⟩ | ⟨hne, hn⟩
  · exact .inl ⟨rfl, h.mem_links.1 hmem⟩
  · exact .inr ⟨hne, hn, hmem⟩

theorem isParent (h : g.Gives g' id moving m links) (hparent : g'.IsParent q x) :
    x = id ∧ (∃ c, (c, q) ∈ links) ∨ x ≠ id ∧ g.IsParent q x := by
  obtain ⟨n, c, hn, hmem⟩ := hparent
  rcases h.link hn hmem with ⟨rfl, hlink⟩ | ⟨hne, hn, hlink⟩
  · exact .inl ⟨rfl, c, hlink⟩
  · exact .inr ⟨hne, n, c, hn, hlink⟩

theorem there (hg : g.Lawful) (h : g.Gives g' id moving m links) (hlink : (c, q) ∈ links) :
    g.contains q = true ∧ q.kind = c.parent := by
  obtain ⟨e, he, hkind⟩ := h.admits.parent _ hlink
  exact ⟨contains_of_entity he, (hg.kind_of_data (entity_ok_iff_data.1 he)).symm.trans hkind⟩

theorem holder (h : g.Gives g' id moving m links) (hone : c.cardinality = .one) (hlink : (c, q) ∈ links)
    (hn : g.nodes.get? x = some n) (hmem : (c, q) ∈ n.parents) : x = id :=
  h.moving x (h.admits.slot _ hlink hone x (mem_childIds_iff.2 ⟨n, hn, hmem⟩))

theorem lawful (hg : g.Lawful) (h : g.Gives g' id moving m links) (acyclic : ∀ x, ¬TransGen g'.IsParent x x) :
    g'.Lawful where
  kind hn := by
    rcases h.cases hn with ⟨rfl, rfl⟩ | ⟨-, hn⟩
    · exact h.kind
    · exact hg.kind hn
  kind_declared hn := by
    rw [h.schema]
    rcases h.cases hn with ⟨rfl, rfl⟩ | ⟨-, hn⟩
    · exact h.admits.kind_declared
    · exact hg.kind_declared hn
  declared hn hmem := by
    rw [h.schema]
    rcases h.link hn hmem with ⟨rfl, hlink⟩ | ⟨-, hn, hlink⟩
    · exact h.admits.declared _ hlink
    · exact hg.declared hn hlink
  parent hn hmem := by
    rcases h.link hn hmem with ⟨rfl, hlink⟩ | ⟨-, hn, hlink⟩
    · exact (h.there hg hlink).imp_left h.contains
    · exact (hg.parent hn hlink).imp_left h.contains
  connections hn := by
    rcases h.cases hn with ⟨rfl, rfl⟩ | ⟨-, hn⟩
    · rw [h.parents]
      exact ((sortBy_perm _ links).map Prod.fst).nodup_iff.2 h.admits.connections
    · exact hg.connections hn
  ordered hn := by
    rw [h.schema]
    rcases h.cases hn with ⟨rfl, rfl⟩ | ⟨-, hn⟩
    · rw [h.parents]
      exact ordered_iff.2 (inOrder_inDeclarationOrder _ _ _)
    · exact hg.ordered hn
  required hn hc := by
    rw [h.schema] at hc
    rcases h.cases hn with ⟨rfl, rfl⟩ | ⟨-, hn⟩
    · rw [h.parents]
      exact ((sortBy_perm _ links).map Prod.fst).mem_iff.2 (h.admits.required _ hc)
    · exact hg.required hn hc
  slot hn hn' hone hmem hmem' := by
    rcases h.link hn hmem with ⟨rfl, hlink⟩ | ⟨-, hn, hlink⟩
    · rcases h.link hn' hmem' with ⟨rfl, -⟩ | ⟨-, hn', hlink'⟩
      · rfl
      · exact (h.holder hone hlink hn' hlink').symm
    · rcases h.link hn' hmem' with ⟨rfl, hlink'⟩ | ⟨-, hn', hlink'⟩
      · exact h.holder hone hlink' hn hlink
      · exact hg.slot hn hn' hone hlink hlink'
  acyclic := acyclic

/-- What lies below the entity stays below it, and no given parent does: no circle comes about. -/
theorem acyclic_of_not_below (hg : g.Lawful) (h : g.Gives g' id moving m links)
    (habove : ∀ l ∈ links, ¬ReflTransGen g.IsParent id l.2) (x : EntityId) : ¬TransGen g'.IsParent x x := by
  have hinside : ∀ {x y}, TransGen g'.IsParent x y → ReflTransGen g.IsParent id x → TransGen g.IsParent x y := by
    intro x y hxy hx
    have hstep : ∀ {a b}, g'.IsParent a b → ReflTransGen g.IsParent id a → g.IsParent a b := by
      intro a b hab ha
      rcases h.isParent hab with ⟨-, c, hlink⟩ | ⟨-, hab⟩
      · exact absurd ha (habove _ hlink)
      · exact hab
    induction hxy with
    | single hab => exact .single (hstep hab hx)
    | tail _ hbc ih => exact .tail ih (hstep hbc (hx.trans ih.to_reflTransGen))
  have houtside : ∀ {x y}, TransGen g'.IsParent x y → ¬ReflTransGen g.IsParent id y → TransGen g.IsParent x y := by
    intro x y hxy hy
    have hstep : ∀ {a b}, g'.IsParent a b → ¬ReflTransGen g.IsParent id b → g.IsParent a b := fun hab hb =>
      (h.isParent hab).elim (fun h => absurd (h.1 ▸ .refl) hb) fun h => h.2
    induction hxy with
    | single hab => exact .single (hstep hab hy)
    | tail _ hbc ih => exact .tail (ih fun hb => hy (hb.tail (hstep hbc hy))) (hstep hbc hy)
  intro hcycle
  by_cases hx : ReflTransGen g.IsParent id x
  · exact hg.acyclic x (hinside hcycle hx)
  · exact hg.acyclic x (houtside hcycle hx)

theorem not_below_of_new (hg : g.Lawful) (h : g.Gives g' id moving m links) (hnew : g.contains id = false) :
    ∀ l ∈ links, ¬ReflTransGen g.IsParent id l.2 := by
  intro l hl hbelow
  rcases hbelow.cases_head with heq | ⟨b, ⟨n, c, hn, hmem⟩, -⟩
  · rw [heq, (h.there hg hl).1] at hnew
    cases hnew
  · rw [(hg.parent hn hmem).1] at hnew
    cases hnew

end Gives

theorem Intact.setParents (hg : g.Intact) (h : Graph.setParents id links g = .ok u g') : g'.Intact := by
  have hdata := setParents_sameData h
  refine ⟨?_, fun x => hdata.wellReferred.2 (hg.referred x)⟩
  obtain ⟨hid, hlinks, hacyclic, rfl⟩ := setParents_ok_iff.1 h
  obtain ⟨n, hn⟩ := contains_iff.1 hid
  have hgives : g.Gives { g with nodes := g.nodes.modify id fun n =>
      { n with parents := inDeclarationOrder g.schema id.kind links } } id (some id)
      { n with parents := inDeclarationOrder g.schema id.kind links } links :=
    { admits := hlinks
      moving := fun _ => Option.some.inj
      schema := rfl
      node := fun x => by simp only [SortedMap.get?_modify, hn, Option.map_some]
      kind := show n.data.kind = id.kind from hg.kind hn
      parents := rfl }
  exact hgives.lawful hg.toLawful (hgives.acyclic_of_not_below hg.toLawful hacyclic)

theorem Consistent.setParents (hg : g.Consistent) (h : Graph.setParents id links g = .ok u g') : g'.Consistent :=
  (hg.intact.setParents h).consistent fun x => (setParents_sameData h).wellKeyed.2 (hg.wellKeyed x)

/-! ## Adding -/

theorem data?_insertEntity (x : EntityId) : (g.insertEntity data links).1.data? x =
    if x = (g.insertEntity data links).2 then some data else g.data? x := by
  have hnode : (g.insertEntity data links).1.nodes.get? x = if x = (g.insertEntity data links).2 then
      some ⟨data, inDeclarationOrder g.schema data.kind links, .empty⟩ else g.nodes.get? x := SortedMap.get?_insert _ _ _ _
  rw [data?, hnode]
  split <;> rfl

theorem resolve_insertEntity {key : NaturalKey} : (g.insertEntity data links).1.resolve key =
    if g.schema.naturalKey? data = some key then some (g.insertEntity data links).2 else g.resolve key := by
  rw [resolve, Graph.insertEntity]
  cases hk : g.schema.naturalKey? data with
  | none => exact (KeyTable.owner?_addReferences _ _).trans (by simp [resolve])
  | some k =>
    dsimp only
    rw [KeyTable.owner?_claim, KeyTable.owner?_addReferences]
    simp only [Option.some.injEq, eq_comm (a := k), resolve]

theorem mem_referrers_insertEntity {key : NaturalKey} {x : EntityId} :
    x ∈ (g.insertEntity data links).1.referrers key ↔
      x ∈ g.referrers key ∨ key ∈ data.refs ∧ x = (g.insertEntity data links).2 := by
  rw [referrers, Graph.insertEntity]
  cases g.schema.naturalKey? data <;> exact KeyTable.mem_referrers_addReferences

theorem data?_of_not_contains (h : g.contains id = false) : g.data? id = none := by
  rw [data?, SortedMap.contains_eq_false_iff.1 h, Option.map_none]

theorem Lawful.insertEntity (hg : g.Lawful) (hnew : g.contains (g.insertEntity data links).2 = false)
    (hlinks : g.Admits data.kind none links) : (g.insertEntity data links).1.Lawful := by
  have hgives : g.Gives (g.insertEntity data links).1 (g.insertEntity data links).2 none
      ⟨data, inDeclarationOrder g.schema data.kind links, .empty⟩ links :=
    { admits := hlinks
      moving := fun _ h => by cases h
      schema := rfl
      node := fun x => SortedMap.get?_insert _ _ _ _
      kind := rfl
      parents := rfl }
  exact hgives.lawful hg (hgives.acyclic_of_not_below hg (hgives.not_below_of_new hg hnew))

theorem WellReferred.insertEntity {x : EntityId} (hx : g.WellReferred x)
    (hnew : g.contains (g.insertEntity data links).2 = false) : (g.insertEntity data links).1.WellReferred x := by
  rw [wellReferred_iff] at hx ⊢
  intro key
  rw [mem_referrers_insertEntity, hx, data?_insertEntity]
  split
  · next heq => simp [heq, data?_of_not_contains hnew]
  · next hne => simp [hne]

theorem WellKeyed.insertEntity {x : EntityId} (hx : g.WellKeyed x)
    (hnew : g.contains (g.insertEntity data links).2 = false)
    (hfree : ∀ k, g.schema.naturalKey? data = some k → g.resolve k = none) :
    (g.insertEntity data links).1.WellKeyed x := by
  rw [wellKeyed_iff] at hx ⊢
  intro key
  rw [resolve_insertEntity, data?_insertEntity, show (g.insertEntity data links).1.schema = g.schema from rfl]
  by_cases heq : x = (g.insertEntity data links).2
  · subst heq
    have hnone : g.resolve key ≠ some (g.insertEntity data links).2 := fun hown => by
      obtain ⟨e, he, -⟩ := (hx key).1 hown
      rw [data?_of_not_contains hnew] at he
      cases he
    by_cases hkey : g.schema.naturalKey? data = some key
    · simp [hkey]
    · simp [hkey, hnone]
  · rw [if_neg heq, ← hx]
    split
    · next hkey => simp [hfree key hkey, Ne.symm heq]
    · rfl

theorem Intact.insertEntity (hg : g.Intact) (hnew : g.contains (g.insertEntity data links).2 = false)
    (hlinks : g.Admits data.kind none links) : (g.insertEntity data links).1.Intact :=
  ⟨hg.toLawful.insertEntity hnew hlinks, fun x => (hg.referred x).insertEntity hnew⟩

theorem Intact.add (hg : g.Intact) (hnew : g.contains ⟨data.kind, g.nextIndex data.kind⟩ = false)
    (h : Graph.add data links g = .ok id g') : g'.Intact := by
  obtain ⟨hlinks, -, -, heq⟩ := add_ok_iff.1 h
  have hafter : g' = (g.insertEntity data links).1 := congrArg Prod.fst heq
  rw [hafter]
  exact hg.insertEntity hnew hlinks

theorem WellKeyed.add {x : EntityId} (hx : g.WellKeyed x)
    (hnew : g.contains ⟨data.kind, g.nextIndex data.kind⟩ = false) (h : Graph.add data links g = .ok id g') :
    g'.WellKeyed x := by
  obtain ⟨-, hfree, -, heq⟩ := add_ok_iff.1 h
  have hafter : g' = (g.insertEntity data links).1 := congrArg Prod.fst heq
  rw [hafter]
  exact hx.insertEntity hnew hfree

theorem Consistent.add (hg : g.Consistent) (hnew : g.contains ⟨data.kind, g.nextIndex data.kind⟩ = false)
    (h : Graph.add data links g = .ok id g') : g'.Consistent :=
  (hg.intact.add hnew h).consistent fun x => (hg.wellKeyed x).add hnew h

/-! ## Removing -/

/-- Links lead to what is there. -/
def Closed (g : Graph) : Prop := ∀ x n l, g.nodes.get? x = some n → l ∈ n.parents → g.contains l.2 = true

/-- **A graph without some entities**: the others stay, with the links to what stays. -/
structure Loses (g g' : Graph) (gone : List EntityId) : Prop where
  schema : g'.schema = g.schema
  node : ∀ x, g'.nodes.get? x =
    if x ∈ gone then none else (g.nodes.get? x).map fun n => { n with parents := n.parents.filter (·.2 ∉ gone) }

theorem Lawful.closed (hg : g.Lawful) : g.Closed := fun _ _ l hn hl =>
  (hg.parent hn (show (l.1, l.2) ∈ _ from hl)).1

theorem Consistent.closed (hg : g.Consistent) : g.Closed := hg.intact.closed

variable {gone gone' : List EntityId}

theorem Loses.contains_iff (h : g.Loses g' gone) : g'.contains id = true ↔ g.contains id = true ∧ id ∉ gone := by
  simp only [Graph.contains_iff, h.node]
  split
  · next hmem => simp [hmem]
  · next hmem => simp [hmem]

theorem Loses.before (h : g.Loses g' gone) {x : EntityId} {n' : Node} (hn' : g'.nodes.get? x = some n') :
    x ∉ gone ∧ ∃ n, g.nodes.get? x = some n ∧ n'.data = n.data ∧ n'.parents = n.parents.filter (·.2 ∉ gone) := by
  rw [h.node] at hn'
  split at hn'
  · cases hn'
  next hx =>
  obtain ⟨n, hn, rfl⟩ := Option.map_eq_some_iff.1 hn'
  exact ⟨hx, n, hn, rfl, rfl⟩

theorem Loses.link (h : g.Loses g' gone) {x : EntityId} {n' : Node} {l : Link} (hn' : g'.nodes.get? x = some n')
    (hl : l ∈ n'.parents) : l.2 ∉ gone ∧ ∃ n, g.nodes.get? x = some n ∧ l ∈ n.parents := by
  obtain ⟨-, n, hn, -, heq⟩ := h.before hn'
  rw [heq] at hl
  obtain ⟨hl, hstays⟩ := List.mem_filter.1 hl
  exact ⟨of_decide_eq_true hstays, n, hn, hl⟩

theorem Loses.isParent (h : g.Loses g' gone) {x y : EntityId} (hxy : g'.IsParent x y) : g.IsParent x y := by
  obtain ⟨n', c, hn', hmem⟩ := hxy
  obtain ⟨-, n, hn, hlink⟩ := h.link hn' hmem
  exact ⟨n, c, hn, hlink⟩

theorem Loses.closed (hg : g.Closed) (h : g.Loses g' gone) : g'.Closed := by
  intro x n' l hn' hl
  obtain ⟨hstays, n, hn, hl⟩ := h.link hn' hl
  exact h.contains_iff.2 ⟨hg _ _ _ hn hl, hstays⟩

theorem Loses.trans (h : g.Loses g₁ gone) (h' : g₁.Loses g' gone') : g.Loses g' (gone ++ gone') where
  schema := h'.schema.trans h.schema
  node x := by
    rw [h'.node, h.node]
    simp only [List.mem_append]
    by_cases hx : x ∈ gone
    · simp [hx]
    · by_cases hx' : x ∈ gone'
      · simp [hx']
      · simp only [hx, hx', if_false, or_self, Option.map_map]
        congr 1
        funext n
        simp only [Function.comp, List.filter_filter, not_or, Bool.decide_and, Bool.and_comm]

theorem loses_dropEntity (hg : g.Closed) (id : EntityId) : g.Loses (g.dropEntity id) [id] := by
  cases hid : g.nodes.get? id with
  | none =>
    have hsame : g.dropEntity id = g := by simp only [dropEntity, hid]
    rw [hsame]
    refine ⟨rfl, fun x => ?_⟩
    simp only [List.mem_singleton]
    split
    · next heq => rw [heq, hid]
    · cases hn : g.nodes.get? x with
      | none => rfl
      | some n =>
        have hall : n.parents.filter (fun l => decide (l.2 ≠ id)) = n.parents := List.filter_eq_self.2 fun l hl => by
          obtain ⟨m, hm⟩ := contains_iff.1 (hg _ _ _ hn hl)
          refine decide_eq_true fun heq => ?_
          rw [heq, hid] at hm
          cases hm
        simp only [Option.map_some, hall]
  | some n =>
    refine ⟨by simp only [dropEntity, hid], fun x => ?_⟩
    simp only [dropEntity, hid, SortedMap.get?_map, SortedMap.get?_erase, List.mem_singleton]
    split <;> rfl

theorem resolve_dropEntity {n : Node} {key : NaturalKey} (hid : g.nodes.get? id = some n) : (g.dropEntity id).resolve key =
    if g.schema.naturalKey? n.data = some key ∧ g.resolve key = some id then none else g.resolve key := by
  rw [resolve, dropEntity, hid]
  dsimp only
  rw [KeyTable.owner?_dropReferences]
  cases hk : g.schema.naturalKey? n.data with
  | none => simp [resolve]
  | some k =>
    dsimp only
    rw [KeyTable.owner?_release]
    by_cases heq : key = k
    · simp [heq, resolve]
    · simp [heq, Ne.symm heq, resolve]

theorem mem_referrers_dropEntity {n : Node} {key : NaturalKey} (hid : g.nodes.get? id = some n) :
    x ∈ (g.dropEntity id).referrers key ↔ x ∈ g.referrers key ∧ ¬(key ∈ n.data.refs ∧ x = id) := by
  rw [referrers, dropEntity, hid]
  dsimp only
  rw [KeyTable.mem_referrers_dropReferences]
  cases g.schema.naturalKey? n.data with
  | none => rfl
  | some k => rw [show KeyTable.referrers _ key = _ from KeyTable.referrers_release]; rfl

theorem data?_dropEntity (x : EntityId) : (g.dropEntity id).data? x = if x = id then none else g.data? x := by
  cases hid : g.nodes.get? id with
  | none =>
    rw [show g.dropEntity id = g by simp only [dropEntity, hid]]
    split
    · next heq => rw [heq, data?, hid, Option.map_none]
    · rfl
  | some n =>
    simp only [data?, dropEntity, hid, SortedMap.get?_map, SortedMap.get?_erase]
    split
    · rfl
    · rw [Option.map_map]
      rfl

theorem WellKeyed.dropEntity {x : EntityId} (hx : g.WellKeyed x) (id : EntityId) : (g.dropEntity id).WellKeyed x := by
  cases hid : g.nodes.get? id with
  | none => rwa [show g.dropEntity id = g by simp only [Graph.dropEntity, hid]]
  | some n =>
    rw [wellKeyed_iff] at hx ⊢
    intro key
    rw [resolve_dropEntity hid, data?_dropEntity, (dropEntity_keeps g id).schema]
    by_cases heq : x = id
    · have hown : g.resolve key = some id → g.schema.naturalKey? n.data = some key := fun hown => by
        obtain ⟨e, he, hkey⟩ := (hx key).1 (heq ▸ hown)
        rw [heq, data?, hid, Option.map_some] at he
        rwa [Option.some.inj he]
      rw [heq]
      split
      · simp
      · next hnot => simpa using fun h => hnot ⟨hown h, h⟩
    · rw [if_neg heq, ← hx]
      split
      · next hkey => simp [hkey.2, Ne.symm heq]
      · rfl

theorem WellReferred.dropEntity {x : EntityId} (hx : g.WellReferred x) (id : EntityId) :
    (g.dropEntity id).WellReferred x := by
  cases hid : g.nodes.get? id with
  | none => rwa [show g.dropEntity id = g by simp only [Graph.dropEntity, hid]]
  | some n =>
    rw [wellReferred_iff] at hx ⊢
    intro key
    rw [mem_referrers_dropEntity hid, hx, data?_dropEntity]
    split
    · next heq => simp [heq, data?, hid]
    · next hne => simp [hne]

theorem WellKeyed.foldl_dropEntity : ∀ (gone : List EntityId) {g : Graph} {x : EntityId}, g.WellKeyed x →
    (gone.foldl Graph.dropEntity g).WellKeyed x
  | [], _, _, hx => hx
  | id :: gone, _, _, hx => foldl_dropEntity gone (hx.dropEntity id)

theorem WellReferred.foldl_dropEntity : ∀ (gone : List EntityId) {g : Graph} {x : EntityId}, g.WellReferred x →
    (gone.foldl Graph.dropEntity g).WellReferred x
  | [], _, _, hx => hx
  | id :: gone, _, _, hx => foldl_dropEntity gone (hx.dropEntity id)

theorem loses_foldl_dropEntity : ∀ (gone : List EntityId) {g : Graph}, g.Closed → g.Loses (gone.foldl dropEntity g) gone
  | [], g, _ => ⟨rfl, fun x => by simp⟩
  | id :: gone, _, hg =>
    (loses_dropEntity hg id).trans (loses_foldl_dropEntity gone ((loses_dropEntity hg id).closed hg))

theorem remove_eq (h : Graph.remove id g = .ok gone g') : gone = g.requiredClosure id ∧ g' = gone.foldl dropEntity g := by
  rw [Graph.remove, get_bind] at h
  obtain ⟨n, -, h⟩ := ofExcept_bind_ok_iff.1 h
  obtain ⟨_, g₁, hset, h⟩ := bind_ok_iff.1 h
  obtain ⟨-, rfl⟩ := EStateM.Result.ok.inj hset
  obtain ⟨rfl, rfl⟩ := EStateM.Result.ok.inj h
  exact ⟨rfl, rfl⟩

theorem Closed.remove (hg : g.Closed) (h : Graph.remove id g = .ok gone g') : g.Loses g' gone := by
  obtain ⟨-, rfl⟩ := remove_eq h
  exact loses_foldl_dropEntity _ hg

/-- **The rules hold without some entities** when whatever requires one of them is among them. -/
theorem Lawful.of_loses (hg : g.Lawful) (h : g.Loses g' gone)
    (hrequired : ∀ {x y}, x ∈ gone → g.IsRequiredParent x y → y ∈ gone) : g'.Lawful where
  kind hn' := by
    obtain ⟨-, n, hn, hsame, -⟩ := h.before hn'
    rw [hsame]
    exact hg.kind hn
  kind_declared hn' := by
    obtain ⟨-, n, hn, -, -⟩ := h.before hn'
    rw [h.schema]
    exact hg.kind_declared hn
  declared hn' hmem := by
    obtain ⟨-, n, hn, hlink⟩ := h.link hn' hmem
    rw [h.schema]
    exact hg.declared hn hlink
  parent hn' hmem := by
    obtain ⟨hstays, n, hn, hlink⟩ := h.link hn' hmem
    obtain ⟨hthere, hkind⟩ := hg.parent hn hlink
    exact ⟨h.contains_iff.2 ⟨hthere, hstays⟩, hkind⟩
  connections hn' := by
    obtain ⟨-, n, hn, -, hparents⟩ := h.before hn'
    rw [hparents]
    exact (hg.connections hn).sublist (List.filter_sublist.map _)
  ordered hn' := by
    obtain ⟨-, n, hn, -, hparents⟩ := h.before hn'
    rw [hparents, h.schema, ordered_iff]
    exact (ordered_iff.1 (hg.ordered hn)).filter _
  required hn' hc := by
    obtain ⟨hx, n, hn, -, hparents⟩ := h.before hn'
    rw [h.schema] at hc
    obtain ⟨⟨c, q⟩, hmem, rfl⟩ := List.mem_map.1 (hg.required hn hc)
    -- had the required parent gone, its child would have gone with it
    have hstays : q ∉ gone := fun hq => hx (hrequired hq ⟨n, c, hn, hmem, (List.mem_filter.1 hc).2⟩)
    rw [hparents]
    exact List.mem_map.2 ⟨(c, q), List.mem_filter.2 ⟨hmem, decide_eq_true hstays⟩, rfl⟩
  slot hn₁ hn₂ hone hmem hmem' := by
    obtain ⟨-, n, hn, hlink⟩ := h.link hn₁ hmem
    obtain ⟨-, n', hn', hlink'⟩ := h.link hn₂ hmem'
    exact hg.slot hn hn' hone hlink hlink'
  acyclic x hcycle := hg.acyclic x (TransGen.mono (fun _ _ hxy => h.isParent hxy) x x hcycle)

theorem Intact.remove (hg : g.Intact) (h : Graph.remove id g = .ok gone g') : g'.Intact := by
  have hloses := hg.closed.remove h
  obtain ⟨rfl, rfl⟩ := remove_eq h
  refine ⟨hg.of_loses hloses fun hx hxy => ?_, fun x => (hg.referred x).foldl_dropEntity _⟩
  exact mem_requiredClosure_iff.2 ((mem_requiredClosure_iff.1 hx).tail hxy)

theorem WellKeyed.remove {x : EntityId} (hx : g.WellKeyed x) (h : Graph.remove id g = .ok gone g') : g'.WellKeyed x := by
  obtain ⟨-, rfl⟩ := remove_eq h
  exact hx.foldl_dropEntity _

theorem Consistent.remove (hg : g.Consistent) (h : Graph.remove id g = .ok gone g') : g'.Consistent :=
  (hg.intact.remove h).consistent fun x => (hg.wellKeyed x).remove h

end Graph
end Reconciliation
