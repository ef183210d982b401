import Mathlib.Data.List.Forall2
import Mathlib.Data.List.Nodup
import Reconciliation.Document.Build
import Reconciliation.Proofs.Runs
/-!
# The schema of a document

A document names the kinds it is about, and the number of a kind is the place of its name in the list (`Numbers`).  The
names are declared first, all of them different; then every kind gets its key attributes and its connections.  Each of
these declarations changes one definition and no name (`Schema.AltersAt`), so the numbers stay, and in the end every
definition is what its description says (`Document.schema_declared`).
-/
namespace Reconciliation

/-- **The number of a name** is its place in a list. -/
def Numbers (names : List String) (kind : Kind) (name : String) : Prop := names[kind.toNat]? = some name

instance (names : List String) (kind : Kind) (name : String) : Decidable (Numbers names kind name) :=
  inferInstanceAs (Decidable (names[kind.toNat]? = some name))

theorem Numbers.functional {names : List String} {kind : Kind} {name name' : String} (h : Numbers names kind name)
    (h' : Numbers names kind name') : name = name' := Option.some.inj (h.symm.trans h')

theorem Numbers.injective {names : List String} {kind kind' : Kind} {name : String} (hnames : names.Nodup)
    (h : Numbers names kind name) (h' : Numbers names kind' name) : kind = kind' := by
  obtain ⟨hlt, -⟩ := List.getElem?_eq_some_iff.1 h
  exact UInt16.toNat_inj.1 ((List.getElem?_inj hlt hnames).1 (h.trans h'.symm))

/-! ## Descriptions and definitions -/

/-- A connection is the one that a parent of a kind describes. -/
structure ParentSpec.Declares (names : List String) (kind : Kind) (spec : ParentSpec) (c : Connection) : Prop where
  parent : Numbers names c.parent spec.kind
  child : c.child = kind
  cardinality : c.cardinality = spec.cardinality
  optionality : c.optionality = spec.optionality

/-- **A definition is the one that a kind describes**: its name, its key attributes and its connections, in order. -/
structure KindSpec.Declares (names : List String) (kind : Kind) (spec : KindSpec) (d : KindDef) : Prop where
  name : d.name = spec.name
  keyAttributes : d.keyAttributes = spec.keyAttributes
  parents : List.Forall₂ (ParentSpec.Declares names kind) spec.parents d.parents

namespace Schema

def names (s : Schema) : List String := s.kinds.toList.map (·.name)

variable {s s' s₁ : Schema} {kind : Kind} {name : String} {f : KindDef → KindDef}

theorem length_names (s : Schema) : s.names.length = s.kinds.size := by rw [names, List.length_map, Array.length_toList]

theorem getElem?_names (s : Schema) (n : Nat) : s.names[n]? = (s.kinds[n]?).map (·.name) := by
  rw [names, List.getElem?_map, Array.getElem?_toList]

theorem kindNamed?_eq_some_iff (hnames : s.names.Nodup) (hsize : s.kinds.size ≤ 65536) :
    s.kindNamed? name = some kind ↔ Numbers s.names kind name := by
  have hback : ∀ {i : Nat}, i < s.kinds.size → i.toUInt16.toNat = i := fun hi =>
    UInt16.toNat_ofNat_of_lt' (Nat.lt_of_lt_of_le hi hsize)
  rw [kindNamed?, Option.map_eq_some_iff, Numbers, getElem?_names]
  constructor
  · rintro ⟨i, hi, rfl⟩
    obtain ⟨hlt, hname, -⟩ := Array.findIdx?_eq_some_iff_getElem.1 hi
    rw [hback hlt, Array.getElem?_eq_getElem hlt, Option.map_some]
    exact congrArg some (of_decide_eq_true hname)
  · intro h
    obtain ⟨d, hd, rfl⟩ := Option.map_eq_some_iff.1 h
    obtain ⟨hlt, rfl⟩ := Array.getElem?_eq_some_iff.1 hd
    refine ⟨kind.toNat, Array.findIdx?_eq_some_iff_getElem.2 ⟨hlt, by simp, fun j hj heq => ?_⟩, by simp⟩
    have hsame : s.names[j]? = s.names[kind.toNat]? := by
      rw [getElem?_names, getElem?_names, Array.getElem?_eq_getElem hlt, Array.getElem?_eq_getElem (Nat.lt_trans hj hlt)]
      simpa using heq
    have hlen : j < s.names.length := by rw [length_names]; omega
    exact absurd ((List.getElem?_inj hlen hnames).1 hsame) (Nat.ne_of_lt hj)

/-! ## Declarations -/

/-- **One definition is altered**, all names stay. -/
structure AltersAt (s s' : Schema) (kind : Kind) (f : KindDef → KindDef) : Prop where
  names : s'.names = s.names
  own : s'.kinds[kind.toNat]? = (s.kinds[kind.toNat]?).map f
  others : ∀ n, n ≠ kind.toNat → s'.kinds[n]? = s.kinds[n]?

theorem altersAt_modify (hf : ∀ d, (f d).name = d.name) : s.AltersAt ⟨s.kinds.modify kind.toNat f⟩ kind f where
  names := by
    refine List.ext_getElem? fun n => ?_
    rw [getElem?_names, getElem?_names, Array.getElem?_modify]
    split
    · rw [Option.map_map]
      exact congrFun (congrArg Option.map (funext hf)) _
    · rfl
  own := by rw [Array.getElem?_modify, if_pos rfl]
  others n hn := by rw [Array.getElem?_modify, if_neg hn.symm]

theorem AltersAt.trans {f' : KindDef → KindDef} (h : s.AltersAt s₁ kind f) (h' : s₁.AltersAt s' kind f') :
    s.AltersAt s' kind (f' ∘ f) where
  names := h'.names.trans h.names
  own := by rw [h'.own, h.own, Option.map_map]
  others n hn := (h'.others n hn).trans (h.others n hn)

theorem AltersAt.size (h : s.AltersAt s' kind f) : s'.kinds.size = s.kinds.size := by
  rw [← length_names, ← length_names, h.names]

end Schema

namespace Document

open Schema

variable {s s' : Schema} {kind : Kind} {name : String} {d : Document}

theorem kindNamed_ok_iff (hnames : s.names.Nodup) (hsize : s.kinds.size ≤ 65536) :
    kindNamed s name = .ok kind ↔ Numbers s.names kind name := by
  rw [← kindNamed?_eq_some_iff hnames hsize, kindNamed]
  cases s.kindNamed? name <;> simp

theorem declareNames_ok : ∀ {specs : List KindSpec} {s : Schema}, declareNames specs s = .ok s' → s.names.Nodup →
    s'.kinds.toList = s.kinds.toList ++ specs.map (⟨·.name, [], []⟩) ∧ s'.names.Nodup
  | [], s, h, hs => by
    obtain rfl := Except.ok.inj h
    exact ⟨(List.append_nil _).symm, hs⟩
  | spec :: rest, s, h, hs => by
    rw [declareNames] at h
    split at h
    · cases h
    next hnew =>
    have hadded : (s.declareKind spec.name).1.kinds.toList = s.kinds.toList ++ [⟨spec.name, [], []⟩] := by
      rw [declareKind, Array.toList_push]
    have hnodup : (s.declareKind spec.name).1.names.Nodup := by
      have hfresh : spec.name ∉ s.names := by
        intro hmem
        obtain ⟨d, hd, hname⟩ := List.mem_map.1 hmem
        refine hnew ?_
        rw [kindNamed?, Option.isSome_map, Array.findIdx?_isSome, Array.any_eq_true']
        exact ⟨d, Array.mem_toList_iff.1 hd, decide_eq_true hname⟩
      rw [Schema.names, hadded, List.map_append]
      exact List.Nodup.append hs (List.nodup_singleton _) (List.disjoint_singleton.2 hfresh)
    obtain ⟨hkinds, hnames⟩ := declareNames_ok h hnodup
    exact ⟨by rw [hkinds, hadded, List.append_assoc]; rfl, hnames⟩

theorem declareParents_ok : ∀ {specs : List ParentSpec} {s : Schema}, declareParents kind specs s = .ok s' →
    s.names.Nodup → s.kinds.size ≤ 65536 → ∃ cs, List.Forall₂ (ParentSpec.Declares s.names kind) specs cs ∧
      s.AltersAt s' kind fun d => { d with parents := d.parents ++ cs }
  | [], s, h, _, _ => by
    obtain rfl := Except.ok.inj h
    exact ⟨[], .nil, rfl, by simp, fun _ _ => rfl⟩
  | spec :: rest, s, h, hnames, hsize => by
    obtain ⟨parent, hparent, h⟩ := except_bind_ok_iff.1 h
    have hstep : s.AltersAt (s.declareConnection ⟨parent, kind, spec.cardinality, spec.optionality⟩) kind
        fun d => { d with parents := d.parents ++ [⟨parent, kind, spec.cardinality, spec.optionality⟩] } :=
      altersAt_modify fun _ => rfl
    obtain ⟨cs, hcs, hrest⟩ := declareParents_ok h (hstep.names ▸ hnames) (hstep.size ▸ hsize)
    refine ⟨⟨parent, kind, spec.cardinality, spec.optionality⟩ :: cs,
      .cons ⟨(kindNamed_ok_iff hnames hsize).1 hparent, rfl, rfl, rfl⟩ (hstep.names ▸ hcs), ?_⟩
    have hboth := hstep.trans hrest
    simpa [Function.comp_def] using hboth

theorem declareKeyOf_alters (kind : Kind) (spec : KindSpec) (s : Schema) : s.AltersAt (declareKeyOf kind spec s) kind
    fun d => { d with keyAttributes := if spec.keyAttributes.isEmpty then d.keyAttributes else spec.keyAttributes } := by
  rw [declareKeyOf]
  split
  · exact ⟨rfl, by simp, fun _ _ => rfl⟩
  · exact altersAt_modify fun _ => rfl

theorem declareDetails_ok : ∀ {specs : List KindSpec} {s : Schema}, declareDetails specs s = .ok s' → s.names.Nodup →
    s.kinds.size ≤ 65536 → (specs.map (·.name)).Nodup → s'.names = s.names ∧
      (∀ kind : Kind, (∀ spec ∈ specs, ¬ Numbers s.names kind spec.name) → s'.kinds[kind.toNat]? = s.kinds[kind.toNat]?) ∧
      ∀ spec ∈ specs, ∀ kind, Numbers s.names kind spec.name → s.kinds[kind.toNat]? = some ⟨spec.name, [], []⟩ →
        ∃ d, s'.kinds[kind.toNat]? = some d ∧ spec.Declares s.names kind d
  | [], s, h, _, _, _ => by
    obtain rfl := Except.ok.inj h
    exact ⟨rfl, fun _ _ => rfl, fun _ h => absurd h List.not_mem_nil⟩
  | spec :: rest, s, h, hnames, hsize, hspecs => by
    obtain ⟨hnew, hrestSpecs⟩ := List.nodup_cons.1 hspecs
    obtain ⟨own, hown, h⟩ := except_bind_ok_iff.1 h
    obtain ⟨s₁, hparents, h⟩ := except_bind_ok_iff.1 h
    have hown := (kindNamed_ok_iff hnames hsize).1 hown
    have hkey := declareKeyOf_alters own spec s
    obtain ⟨cs, hcs, hconnections⟩ := declareParents_ok hparents (hkey.names ▸ hnames) (hkey.size ▸ hsize)
    have hstep := hkey.trans hconnections
    obtain ⟨hsame, hothers, heach⟩ := declareDetails_ok h (hstep.names ▸ hnames) (hstep.size ▸ hsize) hrestSpecs
    rw [hkey.names] at hcs
    rw [hstep.names] at hsame hothers heach
    -- nobody behind is about the same kind
    have hdone : ∀ spec' ∈ rest, ¬ Numbers s.names own spec'.name := fun spec' hmem hnumber =>
      hnew (List.mem_map.2 ⟨spec', hmem, (hown.functional hnumber).symm⟩)
    refine ⟨hsame, fun kind hnone => ?_,
      List.forall_mem_cons.2 ⟨fun kind hkind hbare => ?_, fun spec' hmem kind hkind hbare => ?_⟩⟩
    · have hne : kind.toNat ≠ own.toNat := fun heq => hnone spec List.mem_cons_self (UInt16.toNat_inj.1 heq ▸ hown)
      rw [hothers kind fun spec' hmem => hnone spec' (List.mem_cons_of_mem _ hmem), hstep.others _ hne]
    · obtain rfl := hkind.injective hnames hown
      refine ⟨⟨spec.name, spec.keyAttributes, cs⟩, ?_, rfl, rfl, hcs⟩
      have hkeys : (if spec.keyAttributes.isEmpty then [] else spec.keyAttributes) = spec.keyAttributes := by
        cases spec.keyAttributes <;> rfl
      rw [hothers kind hdone, hstep.own, hbare]
      simp only [Option.map_some, Function.comp_apply, hkeys, List.nil_append]
    · refine heach spec' hmem kind hkind ?_
      have hne : kind.toNat ≠ own.toNat := fun heq => hdone spec' hmem (UInt16.toNat_inj.1 heq ▸ hkind)
      rw [hstep.others _ hne, hbare]

def kindNames (d : Document) : List String := d.kinds.map (·.name)

/-- **A schema is the one that a document describes**: its kinds are those listed, in order and each once. -/
structure Declares (d : Document) (s : Schema) : Prop where
  once : d.kindNames.Nodup
  size : s.kinds.size = d.kinds.length
  kinds : ∀ (n : Nat) (spec : KindSpec), d.kinds[n]? = some spec →
    ∃ kd, s.kinds[n]? = some kd ∧ spec.Declares d.kindNames n.toUInt16 kd

theorem Declares.names (h : d.Declares s) : s.names = d.kindNames := by
  refine List.ext_getElem? fun n => ?_
  rw [getElem?_names, kindNames, List.getElem?_map]
  cases hn : d.kinds[n]? with
  | none =>
    have hout : s.kinds[n]? = none := by
      rw [Array.getElem?_eq_none_iff, h.size]
      exact List.getElem?_eq_none_iff.1 hn
    rw [hout]
    rfl
  | some spec =>
    obtain ⟨kd, hkd, hspec⟩ := h.kinds n spec hn
    rw [hkd, Option.map_some, Option.map_some, hspec.name]

/-- **The schema of a document declares what the document describes.** -/
theorem schema_declared (hkinds : d.kinds.length ≤ 65536) (h : d.schema = .ok s) : d.Declares s := by
  obtain ⟨s₀, hnames, hdetails⟩ := except_bind_ok_iff.1 h
  obtain ⟨hbare, hnodup⟩ := declareNames_ok hnames List.nodup_nil
  rw [show Schema.empty.kinds.toList = [] from rfl, List.nil_append] at hbare
  have hsame : s₀.names = d.kindNames := by rw [Schema.names, hbare, List.map_map]; rfl
  have hsize₀ : s₀.kinds.size = d.kinds.length := by rw [← length_names, hsame, kindNames, List.length_map]
  have honce : d.kindNames.Nodup := hsame ▸ hnodup
  obtain ⟨hstay, -, heach⟩ := declareDetails_ok hdetails hnodup (hsize₀ ▸ hkinds) honce
  refine ⟨honce, by rw [← length_names, hstay, length_names, hsize₀], fun n spec hn => ?_⟩
  obtain ⟨hlt, -⟩ := List.getElem?_eq_some_iff.1 hn
  have hback : n.toUInt16.toNat = n := UInt16.toNat_ofNat_of_lt' (Nat.lt_of_lt_of_le hlt hkinds)
  have hnumber : Numbers s₀.names n.toUInt16 spec.name := by
    rw [Numbers, hback, hsame, kindNames, List.getElem?_map, hn, Option.map_some]
  have hown : s₀.kinds[n.toUInt16.toNat]? = some ⟨spec.name, [], []⟩ := by
    rw [hback, ← Array.getElem?_toList, hbare, List.getElem?_map, hn, Option.map_some]
  obtain ⟨kd, hkd, hspec⟩ := heach spec (List.mem_of_getElem? hn) n.toUInt16 hnumber hown
  exact ⟨kd, hback ▸ hkd, hsame ▸ hspec⟩

end Document
end Reconciliation
