import Reconciliation.Proofs.Declaring
import Reconciliation.Proofs.Externals
import Reconciliation.Proofs.Moves
/-!
# A document and its graphs

A document that builds is mirrored by its graphs (`Document.build_mirrors`).

* Its schema declares the kinds that it lists (`Document.Declares`).
* Of each list of entities, one entity of the graph stands for each description (`Stands`): the kind is the one that is
  named, and the index says how many descriptions of this kind come before it.  Nobody else is there.
* The entity has the source and the attributes that are described (`Json.Depicts`), links to whom its parents' keys name
  (`Leads`), and what is attached to it.

The descriptions are placed one after the other.  What is placed stays as it is, and the keys and the counters of the
kinds are what the descriptions so far make of them (`Laid`); so the whole list follows by induction (`placeAll_laid`).
-/
namespace Reconciliation

/-! ## Values -/

/-- **A JSON value stands for an attribute value**, and kinds for their numbers. -/
inductive Json.Depicts (names : List String) : Json → Value → Prop
  | null : Depicts names .null .null
  | bool (b : Bool) : Depicts names (.bool b) (.bool b)
  | int (i : Int64) : Depicts names (.num (.int i.toInt)) (.int i)
  | text (t : String) : Depicts names (.str t) (.text t)
  | list {items : List Json} {values : List Value} (each : List.Forall₂ (Depicts names) items values) :
    Depicts names (.arr items) (.list values)
  | ref {parts : List (String × Json)} {name key : String} {kind : Kind} (named : parts.lookup "kind" = some (.str name))
    (keyed : parts.lookup "key" = some (.str key)) (number : Numbers names kind name) :
    Depicts names (.obj [("ref", .obj parts)]) (.ref ⟨kind, key⟩)

namespace Document

open Json

variable {s : Schema} {side : Side}

theorem int64?_eq_some {n : Int} {i : Int64} (h : Value.int64? n = some i) : n = i.toInt := by
  rw [Value.int64?] at h
  split at h
  · next hrange =>
    rw [← Option.some.inj h, Int64.toInt_ofInt_of_le hrange.1 (Int.lt_of_le_of_lt hrange.2 (by decide))]
  · cases h

theorem referenceOf_depicts (hnames : s.names.Nodup) (hsize : s.kinds.size ≤ 65536) {members : List (String × Json)}
    {key : NaturalKey} (h : referenceOf s members = .ok key) : Depicts s.names (.obj members) (.ref key) := by
  unfold referenceOf at h
  split at h
  case h_2 => cases h
  next name parts =>
  split at h
  case isFalse => cases h
  next hname =>
  split at h
  · next kind key' hkind hkey =>
    split at h
    · next number hnumber =>
      obtain rfl := Except.ok.inj h
      exact hname ▸ .ref hkind hkey ((Schema.kindNamed?_eq_some_iff hnames hsize).1 hnumber)
    · cases h
  · cases h
  · cases h

mutual
theorem valueOf_depicts (hnames : s.names.Nodup) (hsize : s.kinds.size ≤ 65536) : ∀ {j : Json} {v : Value},
    valueOf s j = .ok v → Depicts s.names j v
  | .null, v, h => by
    obtain rfl := Except.ok.inj h
    exact .null
  | .bool b, v, h => by
    obtain rfl := Except.ok.inj h
    exact .bool b
  | .num (.int n), v, h => by
    rw [valueOf] at h
    split at h
    · next i hi =>
      obtain rfl := Except.ok.inj h
      exact int64?_eq_some hi ▸ .int i
    · cases h
  | .num (.double x), v, h => by cases h
  | .str t, v, h => by
    obtain rfl := Except.ok.inj h
    exact .text t
  | .arr items, v, h => by
    rw [valueOf] at h
    cases hvs : valuesOf s items with
    | error fault =>
      rw [hvs] at h
      cases h
    | ok vs =>
      rw [hvs] at h
      obtain rfl := Except.ok.inj h
      exact .list (valuesOf_depicts hnames hsize hvs)
  | .obj members, v, h => by
    rw [valueOf] at h
    cases hkey : referenceOf s members with
    | error fault =>
      rw [hkey] at h
      cases h
    | ok key =>
      rw [hkey] at h
      obtain rfl := Except.ok.inj h
      exact referenceOf_depicts hnames hsize hkey
theorem valuesOf_depicts (hnames : s.names.Nodup) (hsize : s.kinds.size ≤ 65536) : ∀ {items : List Json} {vs : List Value},
    valuesOf s items = .ok vs → List.Forall₂ (Depicts s.names) items vs
  | [], vs, h => by
    obtain rfl := Except.ok.inj h
    exact .nil
  | j :: js, vs, h => by
    rw [valuesOf] at h
    obtain ⟨v, hv, h⟩ := except_bind_ok_iff.1 h
    obtain ⟨rest, hrest, h⟩ := except_bind_ok_iff.1 h
    obtain rfl := Except.ok.inj h
    exact .cons (valueOf_depicts hnames hsize hv) (valuesOf_depicts hnames hsize hrest)
end

/-- An attribute has the name and the value that are described. -/
def DepictsAttribute (names : List String) (a : String × Json) (b : String × Value) : Prop :=
  b.1 = a.1 ∧ Depicts names a.2 b.2

theorem setAttributes_ok (hnames : s.names.Nodup) (hsize : s.kinds.size ≤ 65536) {key : String} :
    ∀ {l : List (String × Json)} {e e' : Entity}, setAttributes s side key l e = .ok e' →
      ∃ values, List.Forall₂ (DepictsAttribute s.names) l values ∧
        e' = { e with attributes := values.foldl (fun m b => m.insert b.1 b.2) e.attributes }
  | [], e, e', h => by
    obtain rfl := Except.ok.inj h
    exact ⟨[], .nil, rfl⟩
  | (name, j) :: rest, e, e', h => by
    rw [setAttributes] at h
    split at h
    · next v hv =>
      obtain ⟨values, heach, rfl⟩ := setAttributes_ok hnames hsize h
      exact ⟨(name, v) :: values, .cons ⟨rfl, valueOf_depicts hnames hsize hv⟩ heach, rfl⟩
    · cases h

theorem map_fst_of_depicts {names : List String} {l : List (String × Json)} {values : List (String × Value)}
    (h : List.Forall₂ (DepictsAttribute names) l values) : values.map Prod.fst = l.map Prod.fst := by
  induction h with
  | nil => rfl
  | cons hab _ ih => rw [List.map_cons, List.map_cons, hab.1, ih]

theorem setAttributes_depicts (hnames : s.names.Nodup) (hsize : s.kinds.size ≤ 65536) {key : String}
    {attributes : SortedMap String Json} {kind : Kind} {source : Source} {e : Entity}
    (h : setAttributes s side key attributes.toList (.new kind source) = .ok e) : e.kind = kind ∧ e.source = source ∧
      List.Forall₂ (DepictsAttribute s.names) attributes.toList e.attributes.toList := by
  obtain ⟨values, heach, rfl⟩ := setAttributes_ok hnames hsize h
  have hsorted : values.Pairwise fun a b => compare a.1 b.1 = .lt := by
    have hmap : (attributes.toList.map Prod.fst).Pairwise fun a b => compare a b = .lt :=
      List.pairwise_map.2 attributes.ascending
    exact List.pairwise_map.1 (map_fst_of_depicts heach ▸ hmap)
  refine ⟨rfl, rfl, ?_⟩
  have hlist : (SortedMap.ofList values).toList = values := SortedMap.toList_ofList hsorted
  show List.Forall₂ _ _ (SortedMap.ofList values).toList
  rw [hlist]
  exact heach

/-! ## Entities -/

/-- **An id stands for a description** of a list: its kind is the one that is named, and its index says how many
descriptions of this kind come before. -/
def Stands (names : List String) (specs : List EntitySpec) (i : Nat) (id : EntityId) : Prop :=
  ∃ spec, specs[i]? = some spec ∧ Numbers names id.kind spec.kind ∧
    id.index.toNat = (specs.take i).countP (·.kind = spec.kind)

/-- **A link leads to whom a key names** among the descriptions that come before, through the first connection that is
declared between the two kinds. -/
def Leads (s : Schema) (specs : List EntitySpec) (i : Nat) (kind : Kind) (key : String) (l : Link) : Prop :=
  ∃ j parent, j < i ∧ specs[j]? = some parent ∧ parent.key = key ∧ Stands s.names specs j l.2 ∧
    (s.parentConnections kind).find? (·.parent = l.2.kind) = some l.1

/-- **An entity is the one of a description.** -/
structure Mirrored (s : Schema) (specs : List EntitySpec) (g : Graph) (i : Nat) (spec : EntitySpec) (id : EntityId) :
    Prop where
  stands : Stands s.names specs i id
  entity : ∃ e, g.entity id = .ok e ∧ e.kind = id.kind ∧ e.source = spec.source ∧
    List.Forall₂ (DepictsAttribute s.names) spec.attributes.toList e.attributes.toList
  /-- Its parents are those listed, in the order in which their connections are declared. -/
  parents : ∃ links given, List.Forall₂ (Leads s specs i id.kind) spec.parents links ∧ g.parentsOf id = .ok given ∧
    given.Perm links ∧ given.Pairwise fun a b => s.rankOf id.kind a.1 < s.rankOf id.kind b.1
  externals : g.externalsOf id = spec.externals.toList

/-- **A graph mirrors a list of descriptions**: it has one entity for each of them, and no others. -/
structure Mirrors (s : Schema) (specs : List EntitySpec) (g : Graph) : Prop where
  schema : g.schema = s
  keys : (specs.map (·.key)).Nodup
  each : ∀ i spec, specs[i]? = some spec → ∃ id, Mirrored s specs g i spec id
  apart : ∀ i j id, Stands s.names specs i id → Stands s.names specs j id → i = j
  all : ∀ id, g.contains id = true → ∃ i, Stands s.names specs i id

section Stands

variable {names : List String} {specs rest : List EntitySpec} {i j : Nat} {id : EntityId} {name : String}

theorem Stands.lt_length (h : Stands names specs i id) : i < specs.length := by
  obtain ⟨spec, hi, -⟩ := h
  exact (List.getElem?_eq_some_iff.1 hi).1

theorem Stands.append (h : Stands names specs i id) : Stands names (specs ++ rest) i id := by
  have hlt := h.lt_length
  obtain ⟨spec, hi, hkind, hindex⟩ := h
  exact ⟨spec, by rw [List.getElem?_append_left hlt, hi], hkind,
    by rw [List.take_append_of_le_length (Nat.le_of_lt hlt), hindex]⟩

theorem Stands.index_lt (h : Stands names specs i id) (hname : Numbers names id.kind name) :
    id.index.toNat < specs.countP (·.kind = name) := by
  have hlt := h.lt_length
  obtain ⟨spec, hi, hkind, hindex⟩ := h
  obtain rfl := hname.functional hkind
  have hsplit : specs = specs.take i ++ spec :: specs.drop (i + 1) := by
    obtain ⟨hi', heq⟩ := List.getElem?_eq_some_iff.1 hi
    rw [← heq, List.getElem_cons_drop, List.take_append_drop]
  rw [hindex]
  conv => rhs; rw [hsplit]
  rw [List.countP_append, List.countP_cons_of_pos (by simp)]
  omega

theorem Stands.unique (h : Stands names specs i id) (h' : Stands names specs j id) : i = j := by
  have hnot : ∀ {i j}, Stands names specs i id → Stands names specs j id → ¬ i < j := by
    intro i j hi hj hlt
    obtain ⟨spec', hj', hkind', hindex'⟩ := hj
    obtain ⟨spec, hi', hkind, hindex⟩ := hi
    have htaken : Stands names (specs.take j) i id :=
      ⟨spec, by rw [List.getElem?_take_of_lt hlt, hi'], hkind, by rw [List.take_take, Nat.min_eq_left (Nat.le_of_lt hlt), hindex]⟩
    exact absurd hindex' (Nat.ne_of_lt (htaken.index_lt hkind'))
  exact Nat.le_antisymm (Nat.le_of_not_lt (hnot h' h)) (Nat.le_of_not_lt (hnot h h'))

theorem Leads.append {s : Schema} {kind : Kind} {key : String} {l : Link} (h : Leads s specs i kind key l) :
    Leads s (specs ++ rest) i kind key l := by
  obtain ⟨j, parent, hlt, hj, hkey, hstands, hconnection⟩ := h
  refine ⟨j, parent, hlt, ?_, hkey, hstands.append, hconnection⟩
  rw [List.getElem?_append_left hstands.lt_length, hj]

theorem Mirrored.append {s : Schema} {g g' : Graph} {spec : EntitySpec} (h : Mirrored s specs g i spec id)
    (hnode : g'.nodes.get? id = g.nodes.get? id) : Mirrored s (specs ++ rest) g' i spec id where
  stands := h.stands.append
  entity := by
    obtain ⟨e, he, hdata⟩ := h.entity
    exact ⟨e, by rw [← he, Graph.entity, Graph.entity, Graph.node, Graph.node, hnode], hdata⟩
  parents := by
    obtain ⟨links, given, hlinks, hgiven, horder⟩ := h.parents
    exact ⟨links, given, hlinks.imp fun _ _ hl => hl.append,
      by rw [← hgiven, Graph.parentsOf, Graph.parentsOf, Graph.node, Graph.node, hnode], horder⟩
  externals := by rw [← h.externals, Graph.externalsOf, Graph.externalsOf, hnode]

end Stands

/-! ## Placing one entity -/

section Place

variable {g g' : Graph} {id : EntityId} {data : Entity} {links : List Link} {u : Unit}

/-- **What adding an entity with its attachments leaves behind.** -/
structure AddsWith (g g' : Graph) (id : EntityId) (data : Entity) (links : List Link)
    (externals : SortedMap String Json) : Prop where
  given : id = ⟨data.kind, g.nextIndex data.kind⟩
  index : (g.nextIndex data.kind).toNat + 1 < UInt32.size
  schema : g'.schema = g.schema
  nextIndex : ∀ kind, g'.nextIndex kind = if kind = data.kind then g.nextIndex kind + 1 else g.nextIndex kind
  node : ∀ x, g'.nodes.get? x = if x = id then some ⟨data, Graph.inDeclarationOrder g.schema data.kind links, externals⟩
    else g.nodes.get? x
  admits : g.Admits data.kind none links

theorem attachAll_ok : ∀ {l : List (String × Json)} {g : Graph}, attachAll id l g = .ok u g' →
    g'.schema = g.schema ∧ (∀ kind, g'.nextIndex kind = g.nextIndex kind) ∧
      ∀ x, g'.nodes.get? x = if x = id then
        (g.nodes.get? x).map fun n => { n with externals := l.foldl (fun m b => m.insert b.1 b.2) n.externals }
        else g.nodes.get? x
  | [], g, h => by
    obtain ⟨-, rfl⟩ := EStateM.Result.ok.inj h
    exact ⟨rfl, fun _ => rfl, fun x => by simp⟩
  | (mapping, value) :: rest, g, h => by
    obtain ⟨_, g₁, hset, hrest⟩ := bind_ok_iff.1 h
    rw [Graph.setExternal, get_bind] at hset
    obtain ⟨n, -, hset⟩ := ofExcept_bind_ok_iff.1 hset
    obtain ⟨-, rfl⟩ := EStateM.Result.ok.inj hset
    obtain ⟨hschema, hnext, hnode⟩ := attachAll_ok hrest
    refine ⟨hschema, hnext, fun x => ?_⟩
    rw [hnode x]
    simp only [SortedMap.get?_modify]
    split
    · next hx =>
      rw [hx, Option.map_map]
      rfl
    · rfl

/-- **An entity is added with all that is attached to it**, and nothing else changes. -/
theorem addWith_ok {externals : SortedMap String Json} (h : addWith data links externals.toList g = .ok id g') :
    AddsWith g g' id data links externals := by
  obtain ⟨id', g₁, hadd, hrest⟩ := bind_ok_iff.1 h
  obtain ⟨_, g₂, hattach, hend⟩ := bind_ok_iff.1 hrest
  obtain ⟨rfl, rfl⟩ := EStateM.Result.ok.inj hend
  obtain ⟨hadmits, -, hindex, hinsert⟩ := Graph.add_ok_iff.1 hadd
  obtain ⟨hid, -, -, hcounters⟩ := Graph.add_ok hadd
  obtain ⟨hschema, hnext, hnode⟩ := attachAll_ok hattach
  have hg₁ : g₁ = (g.insertEntity data links).1 := congrArg Prod.fst hinsert
  have hinserted : ∀ x, g₁.nodes.get? x =
      if x = id' then some ⟨data, Graph.inDeclarationOrder g.schema data.kind links, .empty⟩ else g.nodes.get? x := by
    rw [hg₁, hid]
    exact fun x => SortedMap.get?_insert _ _ _ _
  have hsame : g₁.schema = g.schema := by
    rw [hg₁]
    rfl
  refine ⟨hid, hindex, hschema.trans hsame, fun kind => (hnext kind).trans (hcounters kind), fun x => ?_, hadmits⟩
  have hexternals : externals.toList.foldl (fun m b => m.insert b.1 b.2) .empty = externals :=
    SortedMap.ofList_toList externals
  rw [hnode x, hinserted]
  split
  · rw [Option.map_some, hexternals]
  · rfl

theorem AddsWith.counted {externals : SortedMap String Json} (h : AddsWith g g' id data links externals) (hg : g.Counted) :
    g'.Counted := by
  refine hg.of_new h.index (fun {x} hx => ?_) h.nextIndex
  by_cases heq : x = id
  · exact .inl (heq.trans h.given)
  · rw [Graph.contains, SortedMap.contains, h.node, if_neg heq] at hx
    exact .inr hx

theorem linksOf_ok {spec : EntitySpec} {kind : Kind} {p : Placed} : ∀ {parents : List String} {links : List Link},
    linksOf side spec kind p parents = .ok links → List.Forall₂ (fun key (l : Link) => p.ids.get? key = some l.2 ∧
      p.graph.schema.connectionBetween? l.2.kind kind = some l.1) parents links
  | [], links, h => by
    obtain rfl := Except.ok.inj h
    exact .nil
  | parent :: rest, links, h => by
    rw [linksOf] at h
    split at h
    · cases h
    next id hid =>
    split at h
    · cases h
    next c hc =>
    cases hrest : linksOf side spec kind p rest with
    | error fault =>
      rw [hrest] at h
      cases h
    | ok others =>
      rw [hrest] at h
      obtain rfl := Except.ok.inj h
      exact .cons ⟨hid, hc⟩ (linksOf_ok hrest)

end Place

/-- **What is placed so far mirrors the descriptions so far**: their keys name their entities, and the next index of
a kind says how many of them are of this kind. -/
structure Laid (s : Schema) (done : List EntitySpec) (p : Placed) : Prop extends Mirrors s done p.graph where
  ids : ∀ key id, p.ids.get? key = some id → ∃ j spec, done[j]? = some spec ∧ spec.key = key ∧ Stands s.names done j id
  known : ∀ spec ∈ done, p.ids.contains spec.key = true
  counters : ∀ kind name, Numbers s.names kind name → (p.graph.nextIndex kind).toNat = done.countP (·.kind = name)

variable {done rest : List EntitySpec} {spec : EntitySpec} {p p' : Placed}

theorem laid_nil : Laid s [] ⟨.empty s, .empty⟩ where
  schema := rfl
  keys := List.nodup_nil
  each i spec h := by cases h
  apart i j id hi hj := hi.unique hj
  all id h := by cases h
  ids key id h := by cases h
  known spec h := by cases h
  counters kind name _ := rfl

theorem Laid.fresh (hp : Laid s done p) {kind : Kind} {name : String} (hkind : Numbers s.names kind name) :
    p.graph.contains ⟨kind, p.graph.nextIndex kind⟩ = false := by
  refine Bool.eq_false_iff.2 fun hcontains => ?_
  obtain ⟨i, hstands⟩ := hp.all _ hcontains
  have hlt := hstands.index_lt hkind
  rw [hp.counters kind name hkind] at hlt
  exact Nat.lt_irrefl _ hlt

theorem Laid.mirrored_new {g' : Graph} {id : EntityId} {data : Entity} {links : List Link} (hp : Laid s done p)
    (hstands : Stands s.names (done ++ [spec]) done.length id)
    (hadds : AddsWith p.graph g' id data links spec.externals) (hsource : data.source = spec.source)
    (hattributes : List.Forall₂ (DepictsAttribute s.names) spec.attributes.toList data.attributes.toList)
    (hlinks : List.Forall₂ (fun key (l : Link) => p.ids.get? key = some l.2 ∧
      p.graph.schema.connectionBetween? l.2.kind data.kind = some l.1) spec.parents links) :
    Mirrored s (done ++ [spec]) g' done.length spec id := by
  have hkind : id.kind = data.kind := congrArg EntityId.kind hadds.given
  have hnode := hadds.node id
  rw [if_pos rfl, hp.schema, ← hkind] at hnode
  have hadmits := hadds.admits
  have hperm : (Graph.inDeclarationOrder s id.kind links).Perm links := sortBy_perm _ links
  refine ⟨hstands, ⟨data, Graph.entity_ok_iff.2 ⟨_, hnode, rfl⟩, hkind.symm, hsource, hattributes⟩, ?_, ?_⟩
  · refine ⟨links, _, hlinks.imp fun key l hl => ?_, Graph.parentsOf_ok_iff.2 ⟨_, hnode, rfl⟩, hperm, ?_⟩
    · obtain ⟨j, parent, hj, hkey, hparent⟩ := hp.ids key l.2 hl.1
      refine ⟨j, parent, hparent.lt_length, ?_, hkey, hparent.append, ?_⟩
      · rw [List.getElem?_append_left hparent.lt_length, hj]
      · rw [hkind, ← hl.2, hp.schema]
        rfl
    · refine (Graph.inOrder_inDeclarationOrder s id.kind links).pairwise_lt ?_ fun l hl => ?_
      · exact (hperm.map Prod.fst).nodup_iff.2 hadmits.connections
      · rw [hkind, ← hp.schema]
        exact hadmits.declared l (Graph.mem_inDeclarationOrder.1 hl)
  · rw [Graph.externalsOf, hnode]

/-- **What placing a description comes to**: its key is new, its kind is declared, and its entity is added. -/
theorem place_ok (h : place side spec p = .ok p') : p.ids.contains spec.key = false ∧
    ∃ kind data links id g', kindNamed p.graph.schema spec.kind = .ok kind ∧
      setAttributes p.graph.schema side spec.key spec.attributes.toList (.new kind spec.source) = .ok data ∧
      linksOf side spec kind p spec.parents = .ok links ∧ AddsWith p.graph g' id data links spec.externals ∧
      p' = ⟨g', p.ids.insert spec.key id⟩ := by
  rw [place] at h
  split at h
  · cases h
  next hnew =>
  obtain ⟨kind, hkind, h⟩ := except_bind_ok_iff.1 h
  obtain ⟨data, hdata, h⟩ := except_bind_ok_iff.1 h
  obtain ⟨links, hlinks, h⟩ := except_bind_ok_iff.1 h
  split at h
  case h_2 => cases h
  next id g' hadd =>
  exact ⟨Bool.eq_false_iff.2 hnew, kind, data, links, id, g', hkind, hdata, hlinks, addWith_ok hadd,
    (Except.ok.inj h).symm⟩

theorem Laid.add {g' : Graph} {id : EntityId} {data : Entity} {links : List Link} (hp : Laid s done p)
    (hnames : s.names.Nodup) (hnew : p.ids.contains spec.key = false) (hnumber : Numbers s.names data.kind spec.kind)
    (hfresh : p.graph.contains id = false) (hadds : AddsWith p.graph g' id data links spec.externals)
    (hown : Mirrored s (done ++ [spec]) g' done.length spec id) :
    Laid s (done ++ [spec]) ⟨g', p.ids.insert spec.key id⟩ where
  schema := hadds.schema.trans hp.schema
  keys := by
    rw [List.map_append]
    refine List.Nodup.append hp.keys (List.nodup_singleton _) (List.disjoint_singleton.2 fun hmem => ?_)
    obtain ⟨spec', hmem', heq⟩ := List.mem_map.1 hmem
    have hknown : p.ids.contains spec.key = true := (show spec'.key = spec.key from heq) ▸ hp.known spec' hmem'
    exact Bool.false_ne_true (hnew.symm.trans hknown)
  each i spec' hi := by
    rcases Nat.lt_or_ge i done.length with hlt | hge
    · rw [List.getElem?_append_left hlt] at hi
      obtain ⟨x, hx⟩ := hp.each i spec' hi
      refine ⟨x, hx.append ?_⟩
      obtain ⟨e, he, -⟩ := hx.entity
      rw [hadds.node, if_neg fun heq => ?_]
      exact Bool.false_ne_true (hfresh.symm.trans (heq ▸ Graph.contains_of_entity he))
    · obtain ⟨hlen, -⟩ := List.getElem?_eq_some_iff.1 hi
      rw [List.length_append, List.length_singleton] at hlen
      obtain rfl : i = done.length := by omega
      obtain rfl : spec = spec' := by simpa using hi
      exact ⟨id, hown⟩
  apart i j x hi hj := hi.unique hj
  all x hx := by
    by_cases heq : x = id
    · exact ⟨done.length, heq ▸ hown.stands⟩
    · have hold : p.graph.contains x = true := by
        rw [Graph.contains, SortedMap.contains, hadds.node, if_neg heq] at hx
        exact hx
      obtain ⟨i, hi⟩ := hp.all x hold
      exact ⟨i, hi.append⟩
  ids key x hx := by
    rw [SortedMap.get?_insert] at hx
    split at hx
    · next hkey =>
      obtain rfl := Option.some.inj hx
      exact ⟨done.length, spec, by simp, hkey.symm, hown.stands⟩
    · obtain ⟨j, parent, hj, hkey, hparent⟩ := hp.ids key x hx
      exact ⟨j, parent, by rw [List.getElem?_append_left hparent.lt_length, hj], hkey, hparent.append⟩
  known spec' hmem := by
    rw [SortedMap.contains_insert_iff]
    rcases List.mem_append.1 hmem with hmem | hmem
    · exact .inr (hp.known spec' hmem)
    · exact .inl (congrArg EntitySpec.key (List.mem_singleton.1 hmem))
  counters kind name hname := by
    -- its name and its number go up together
    rw [hadds.nextIndex, List.countP_append, List.countP_singleton]
    by_cases hsame : kind = data.kind
    · subst hsame
      rw [if_pos rfl, if_pos (decide_eq_true (hnumber.functional hname)), Graph.toNat_nextIndex hadds.index,
        hp.counters _ name hname]
    · have hspec : ¬ spec.kind = name := fun heq => hsame (hname.injective hnames (heq ▸ hnumber))
      rw [if_neg hsame, if_neg (by simpa using hspec), Nat.add_zero, hp.counters kind name hname]

theorem place_laid (hnames : s.names.Nodup) (hsize : s.kinds.size ≤ 65536) (hp : Laid s done p)
    (h : place side spec p = .ok p') : Laid s (done ++ [spec]) p' := by
  obtain ⟨hnew, kind, data, links, id, g', hkind, hdata, hlinks, hadds, rfl⟩ := place_ok h
  rw [hp.schema] at hkind hdata
  have hnumber := (kindNamed_ok_iff hnames hsize).1 hkind
  obtain ⟨rfl, hsource, hattributes⟩ := setAttributes_depicts hnames hsize hdata
  have hindex : id.index.toNat = done.countP (·.kind = spec.kind) := by
    rw [hadds.given, hp.counters _ _ hnumber]
  have hstands : Stands s.names (done ++ [spec]) done.length id :=
    ⟨spec, by simp, hadds.given ▸ hnumber, by rw [List.take_left, hindex]⟩
  exact hp.add hnames hnew hnumber (hadds.given ▸ hp.fresh hnumber) hadds
    (hp.mirrored_new hstands hadds hsource hattributes (linksOf_ok hlinks))

/-- **All descriptions of a list are placed**, one after the other. -/
theorem placeAll_laid (hnames : s.names.Nodup) (hsize : s.kinds.size ≤ 65536) : ∀ {rest done : List EntitySpec}
    {p : Placed}, Laid s done p → placeAll side rest p = .ok p' → Laid s (done ++ rest) p'
  | [], done, p, hp, h => by
    obtain rfl := Except.ok.inj h
    rwa [List.append_nil]
  | spec :: rest, done, p, hp, h => by
    obtain ⟨p₁, hplace, h⟩ := except_bind_ok_iff.1 h
    have hlaid := placeAll_laid hnames hsize (place_laid hnames hsize hp hplace) h
    rwa [List.append_assoc, List.singleton_append] at hlaid

/-! ## The whole document -/

theorem place_schema (h : place side spec p = .ok p') : p'.graph.schema = p.graph.schema := by
  obtain ⟨-, kind, data, links, id, g', -, -, -, hadds, rfl⟩ := place_ok h
  exact hadds.schema

theorem placeAll_schema : ∀ {specs : List EntitySpec} {p : Placed}, placeAll side specs p = .ok p' →
    p'.graph.schema = p.graph.schema
  | [], p, h => by
    obtain rfl := Except.ok.inj h
    rfl
  | spec :: rest, p, h => by
    obtain ⟨p₁, hplace, h⟩ := except_bind_ok_iff.1 h
    rw [placeAll_schema h, place_schema hplace]

theorem graphOf_ok_iff {specs : List EntitySpec} {g : Graph} :
    graphOf s side specs = .ok g ↔ ∃ p, placeAll side specs ⟨.empty s, .empty⟩ = .ok p ∧ p.graph = g := by
  rw [graphOf]
  cases placeAll side specs ⟨.empty s, .empty⟩ <;> simp [Except.map]

theorem placeAll_counted : ∀ {specs : List EntitySpec} {p : Placed}, p.graph.Counted → placeAll side specs p = .ok p' →
    p'.graph.Counted
  | [], p, hp, h => by
    obtain rfl := Except.ok.inj h
    exact hp
  | spec :: rest, p, hp, h => by
    obtain ⟨p₁, hplace, h⟩ := except_bind_ok_iff.1 h
    obtain ⟨-, kind, data, links, id, g', -, -, -, hadds, rfl⟩ := place_ok hplace
    exact placeAll_counted (hadds.counted hp) h

/-- **In the graphs of a document ids are below the counters of their kinds.** -/
theorem build_counted {d : Document} {pair : GraphPair} (h : d.build = .ok pair) :
    pair.target.Counted ∧ pair.incoming.Counted := by
  obtain ⟨s, -, h⟩ := except_bind_ok_iff.1 h
  obtain ⟨target, htarget, h⟩ := except_bind_ok_iff.1 h
  obtain ⟨incoming, hincoming, h⟩ := except_bind_ok_iff.1 h
  obtain rfl := Except.ok.inj h
  obtain ⟨placedTarget, hplacedTarget, rfl⟩ := graphOf_ok_iff.1 htarget
  obtain ⟨placedIncoming, hplacedIncoming, rfl⟩ := graphOf_ok_iff.1 hincoming
  have hempty : (Graph.empty s).Counted := fun _ hid => by cases hid
  exact ⟨placeAll_counted hempty hplacedTarget, placeAll_counted hempty hplacedIncoming⟩

/-- **A document that builds is mirrored by its graphs.**  The schema that they share declares the kinds that are listed.
Each graph has one entity for every description of its list. -/
theorem build_mirrors {d : Document} {pair : GraphPair} (hkinds : d.kinds.length ≤ 65536) (h : d.build = .ok pair) :
    d.Declares pair.schema ∧ pair.target.schema = pair.schema ∧ pair.incoming.schema = pair.schema ∧
      Mirrors pair.schema d.target pair.target ∧ Mirrors pair.schema d.incoming pair.incoming := by
  obtain ⟨s, hschema, h⟩ := except_bind_ok_iff.1 h
  obtain ⟨target, htarget, h⟩ := except_bind_ok_iff.1 h
  obtain ⟨incoming, hincoming, h⟩ := except_bind_ok_iff.1 h
  obtain rfl := Except.ok.inj h
  have hdeclares := schema_declared hkinds hschema
  have hnames : s.names.Nodup := hdeclares.names ▸ hdeclares.once
  have hsize : s.kinds.size ≤ 65536 := hdeclares.size ▸ hkinds
  obtain ⟨placedTarget, hplacedTarget, rfl⟩ := graphOf_ok_iff.1 htarget
  obtain ⟨placedIncoming, hplacedIncoming, rfl⟩ := graphOf_ok_iff.1 hincoming
  exact ⟨hdeclares, placeAll_schema hplacedTarget, placeAll_schema hplacedIncoming,
    (placeAll_laid hnames hsize laid_nil hplacedTarget).toMirrors,
    (placeAll_laid hnames hsize laid_nil hplacedIncoming).toMirrors⟩

/-- Modules with their roots and facets.  The target has a root under a module, the incoming side a facet that refers to
its module. -/
def modules : Document where
  kinds := [⟨"Module", ["name"], []⟩, ⟨"Root", [], [⟨"Module", .many, .required⟩]⟩,
    ⟨"Facet", [], [⟨"Module", .one, .optional⟩]⟩]
  target := [⟨"m", "Module", "gradle", .ofList [("name", .str "core")], [], .empty⟩,
    ⟨"r", "Root", "gradle", .ofList [("depth", .int 2), ("url", .str "/src")], ["m"], .empty⟩]
  incoming := [⟨"m", "Module", "gradle", .ofList [("name", .str "core")], [], .ofList [("ui", .bool true)]⟩,
    ⟨"f", "Facet", "gradle", .ofList [("tags", .arr [.str "a", .null]),
      ("uses", .obj [("ref", .obj [("key", .str "core"), ("kind", .str "Module")])])], ["m"], .empty⟩]

theorem modules_mirrored : ∃ pair, modules.build = .ok pair ∧ modules.Declares pair.schema ∧
    Mirrors pair.schema modules.target pair.target ∧ Mirrors pair.schema modules.incoming pair.incoming := by
  have hbuilds : modules.build.toOption.isSome = true := by decide +kernel
  cases h : modules.build with
  | error fault =>
    rw [h] at hbuilds
    cases hbuilds
  | ok pair =>
    obtain ⟨hdeclares, -, -, htarget, hincoming⟩ := build_mirrors (by decide) h
    exact ⟨pair, rfl, hdeclares, htarget, hincoming⟩

end Document
end Reconciliation
