import Reconciliation.Encoding.Plan
import Reconciliation.Encoding.Schema
import Reconciliation.Proofs.Bindings
/-!
# Reading back what is written

Whoever reads JSON may get the members of its objects in the order in which they are written, or in the order of their
keys when the text went through a map.  A reader takes back what a writer gives when it does so from both
(`Json.ReadsBack`).

Numbers and names are their own written form.  A record is looked up by the names of its fields, so the order of its
members does not count (`Json.parts?_sortKeys`).  A value is read by the one member of its object, and by recursion on the
value what is read is what was written, at every depth.  Attributes are a map already, so sorting them again changes
nothing (`Json.sortKeysMembers_map`).
-/
namespace Reconciliation

/-! ## Members -/

namespace Json

variable {members : List (String × Json)}

theorem sortKeysItems_eq_map (items : List Json) : sortKeysItems items = items.map sortKeys := by
  induction items with
  | nil => rfl
  | cons j js ih => rw [sortKeysItems, ih, List.map_cons]

theorem get?_sortKeysMembers (name : String) (members : List (String × Json)) :
    (sortKeysMembers members).get? name = (members.lookup name).map sortKeys := by
  induction members with
  | nil => rfl
  | cons m rest ih =>
    obtain ⟨k, j⟩ := m
    rw [sortKeysMembers, SortedMap.get?_insert, ih, List.lookup_cons]
    by_cases h : name = k
    · rw [if_pos h, beq_iff_eq.2 h]
      rfl
    · rw [if_neg h, beq_eq_false_iff_ne.2 h]

theorem parts?_sortKeys (members : List (String × Json)) (names : List String) :
    (Json.obj members).sortKeys.parts? names = some (names.map fun n => (members.lookup n).map sortKeys) := by
  rw [sortKeys, parts?]
  refine congrArg some (List.map_congr_left fun n _ => ?_)
  rw [SortedMap.lookup_toList, get?_sortKeysMembers]

theorem sortKeysMembers_map {ν : Type} (m : SortedMap String ν) (f : ν → Json) :
    sortKeysMembers (m.toList.map fun a => (a.1, f a.2)) = m.map fun _ v => (f v).sortKeys := by
  refine SortedMap.ext fun k => ?_
  rw [get?_sortKeysMembers, SortedMap.get?_map]
  have hwritten : (m.toList.map fun a => (a.1, f a.2)).lookup k = (m.map fun _ v => f v).get? k :=
    SortedMap.lookup_toList (m.map fun _ v => f v) k
  rw [hwritten, SortedMap.get?_map, Option.map_map]
  rfl

@[simp] theorem sortKeys_nat (n : Nat) : (nat n).sortKeys = nat n := rfl

@[simp] theorem sortKeys_str (s : String) : (str s).sortKeys = str s := rfl

/-! ## Readers and writers -/

/-- **A reader takes back what a writer gives**, with the members of its objects as they are written, and with their keys
in order. -/
structure ReadsBack {α : Type} (write : α → Json) (read : Json → Option α) : Prop where
  written : ∀ a, read (write a) = some a
  sorted : ∀ a, read (write a).sortKeys = some a

variable {α : Type} {write : α → Json} {read : Json → Option α}

theorem ReadsBack.of_flat (hflat : ∀ a, (write a).sortKeys = write a) (h : ∀ a, read (write a) = some a) :
    ReadsBack write read :=
  ⟨h, fun a => by rw [hflat, h]⟩

theorem mapM_map_of_eq_some {β γ : Type} {f : β → γ} {g : γ → Option β} (h : ∀ a, g (f a) = some a) :
    ∀ l : List β, (l.map f).mapM g = some l
  | [] => rfl
  | a :: l => by
    rw [List.map_cons, List.mapM_cons, h, mapM_map_of_eq_some h l]
    rfl

theorem ReadsBack.listOf (h : ReadsBack write read) : ReadsBack (Json.ofList write) (listOf? read) where
  written l := mapM_map_of_eq_some h.written l
  sorted l := by
    rw [ofList, sortKeys, sortKeysItems_eq_map, List.map_map, listOf?]
    exact mapM_map_of_eq_some h.sorted l

theorem natBelow?_nat {bound n : Nat} (h : n < bound) : (Json.nat n).natBelow? bound = some n := if_pos h

theorem readsBack_text : ReadsBack Json.str Json.text? := .of_flat (fun _ => rfl) fun _ => rfl

end Json

open Json

/-! ## Ids, keys and connections -/

theorem Kind.readsBack : ReadsBack Kind.toJson Kind.ofJson? :=
  .of_flat (fun _ => rfl) fun k => by
    rw [Kind.toJson, Kind.ofJson?, natBelow?_nat k.toNat_lt, Option.map_some, Nat.toUInt16_eq, UInt16.ofNat_toNat]

theorem EntityId.readsBack : ReadsBack EntityId.toJson EntityId.ofJson? where
  written i := by
    simp [EntityId.toJson, EntityId.ofJson?, parts?, List.lookup_cons, Kind.readsBack.written,
      natBelow?_nat i.index.toNat_lt]
  sorted i := by
    rw [EntityId.toJson, EntityId.ofJson?, parts?_sortKeys]
    simp [List.lookup_cons, Kind.readsBack.sorted, natBelow?_nat i.index.toNat_lt]

theorem NaturalKey.readsBack : ReadsBack NaturalKey.toJson NaturalKey.ofJson? where
  written k := by simp [NaturalKey.toJson, NaturalKey.ofJson?, parts?, List.lookup_cons, Kind.readsBack.written, text?]
  sorted k := by
    rw [NaturalKey.toJson, NaturalKey.ofJson?, parts?_sortKeys]
    simp [List.lookup_cons, Kind.readsBack.sorted, text?]

theorem Cardinality.readsBack : ReadsBack Cardinality.toJson Cardinality.ofJson? :=
  .of_flat (fun c => by cases c <;> rfl) fun c => by cases c <;> rfl

theorem Optionality.readsBack : ReadsBack Optionality.toJson Optionality.ofJson? :=
  .of_flat (fun o => by cases o <;> rfl) fun o => by cases o <;> rfl

theorem Connection.readsBack : ReadsBack Connection.toJson Connection.ofJson? where
  written c := by
    simp [Connection.toJson, Connection.ofJson?, parts?, List.lookup_cons, Kind.readsBack.written,
      Cardinality.readsBack.written, Optionality.readsBack.written]
  sorted c := by
    rw [Connection.toJson, Connection.ofJson?, parts?_sortKeys]
    simp [List.lookup_cons, parts?_sortKeys, Kind.readsBack.sorted, Cardinality.readsBack.sorted,
      Optionality.readsBack.sorted]

/-! ## Values and entities -/

namespace Value

mutual
theorem ofJson?_toJson : ∀ v : Value, ofJson? v.toJson = some v
  | .null => rfl
  | .bool _ => rfl
  | .int i => congrArg (Option.map Value.int) (int64?_toInt i)
  | .text _ => rfl
  | .list items => congrArg (Option.map Value.list) (ofJsonAll?_toJsonAll items)
  | .ref key => congrArg (Option.map Value.ref) (NaturalKey.readsBack.written key)
theorem ofJsonAll?_toJsonAll : ∀ l : List Value, ofJsonAll? (toJsonAll l) = some l
  | [] => rfl
  | v :: vs => by rw [toJsonAll, ofJsonAll?, ofJson?_toJson v, ofJsonAll?_toJsonAll vs]
end

mutual
theorem ofJson?_sortKeys : ∀ v : Value, ofJson? v.toJson.sortKeys = some v
  | .null => rfl
  | .bool _ => rfl
  | .int i => congrArg (Option.map Value.int) (int64?_toInt i)
  | .text _ => rfl
  | .list items => congrArg (Option.map Value.list) (ofJsonAll?_sortKeysItems items)
  | .ref key => congrArg (Option.map Value.ref) (NaturalKey.readsBack.sorted key)
theorem ofJsonAll?_sortKeysItems : ∀ l : List Value, ofJsonAll? (sortKeysItems (toJsonAll l)) = some l
  | [] => rfl
  | v :: vs => by rw [toJsonAll, sortKeysItems, ofJsonAll?, ofJson?_sortKeys v, ofJsonAll?_sortKeysItems vs]
end

theorem readsBack : ReadsBack Value.toJson Value.ofJson? := ⟨ofJson?_toJson, ofJson?_sortKeys⟩

end Value

namespace Entity

theorem attributesOf?_map {write : Value → Json} (h : ∀ v, Value.ofJson? (write v) = some v) (m : SortedMap String Value) :
    attributesOf? (m.toList.map fun a => (a.1, write a.2)) = some m := by
  have hread : (m.toList.map fun a => (a.1, write a.2)).mapM
      (fun a => (Value.ofJson? a.2).map fun v => (a.1, v)) = some m.toList :=
    mapM_map_of_eq_some (fun a => by rw [h, Option.map_some]) m.toList
  rw [attributesOf?, hread, Option.map_some, SortedMap.ofList_toList]

theorem readsBack : ReadsBack Entity.toJson Entity.ofJson? where
  written e := by
    simp [Entity.toJson, Entity.ofJson?, parts?, List.lookup_cons, Kind.readsBack.written, text?, members?,
      attributesOf?_map Value.readsBack.written]
  sorted e := by
    have hattributes : (obj (e.attributes.toList.map fun a => (a.1, a.2.toJson))).sortKeys =
        obj (e.attributes.toList.map fun a => (a.1, a.2.toJson.sortKeys)) := by
      rw [sortKeys, sortKeysMembers_map]
      rfl
    rw [Entity.toJson, Entity.ofJson?, parts?_sortKeys]
    simp [List.lookup_cons, Kind.readsBack.sorted, text?, hattributes, members?, attributesOf?_map Value.readsBack.sorted]

end Entity

/-! ## Schemas and options -/

theorem KindDef.readsBack : ReadsBack KindDef.toJson KindDef.ofJson? where
  written d := by
    simp [KindDef.toJson, KindDef.ofJson?, parts?, List.lookup_cons, text?, readsBack_text.listOf.written,
      Connection.readsBack.listOf.written]
  sorted d := by
    rw [KindDef.toJson, KindDef.ofJson?, parts?_sortKeys]
    simp [List.lookup_cons, text?, readsBack_text.listOf.sorted, Connection.readsBack.listOf.sorted]

theorem Schema.readsBack : ReadsBack Schema.toJson Schema.ofJson? where
  written s := by simp [Schema.toJson, Schema.ofJson?, parts?, List.lookup_cons, KindDef.readsBack.listOf.written]
  sorted s := by
    rw [Schema.toJson, Schema.ofJson?, parts?_sortKeys]
    simp [List.lookup_cons, KindDef.readsBack.listOf.sorted]

namespace Options

theorem seed?_ofOption : ∀ seed : Option UInt64, seed? (Json.ofOption (fun n => .nat n.toNat) seed) = some seed
  | none => rfl
  | some n => by
    rw [ofOption, seed?, natBelow?_nat n.toNat_lt, Option.map_some, Nat.toUInt64_eq, UInt64.ofNat_toNat]
    exact fun h => by cases h

theorem readsBack : ReadsBack Options.toJson Options.ofJson? where
  written o := by simp [Options.toJson, Options.ofJson?, parts?, List.lookup_cons, seed?_ofOption]
  sorted o := by
    have hflat : (Json.ofOption (fun n : UInt64 => .nat n.toNat) o.shuffleSeed).sortKeys =
        Json.ofOption (fun n => .nat n.toNat) o.shuffleSeed := by
      cases o.shuffleSeed <;> rfl
    rw [Options.toJson, Options.ofJson?, parts?_sortKeys]
    simp [List.lookup_cons, hflat, seed?_ofOption]

end Options

/-- **Whatever is written is read back**: kinds, sources, ids, natural keys, connections, values of any depth, entities,
definitions of kinds, schemas and options. -/
theorem encodings_readBack :
    ReadsBack Kind.toJson Kind.ofJson? ∧ ReadsBack (α := Source) Json.str Json.text? ∧
    ReadsBack EntityId.toJson EntityId.ofJson? ∧ ReadsBack NaturalKey.toJson NaturalKey.ofJson? ∧
    ReadsBack Connection.toJson Connection.ofJson? ∧ ReadsBack Value.toJson Value.ofJson? ∧
    ReadsBack Entity.toJson Entity.ofJson? ∧ ReadsBack KindDef.toJson KindDef.ofJson? ∧
    ReadsBack Schema.toJson Schema.ofJson? ∧ ReadsBack Options.toJson Options.ofJson? :=
  ⟨Kind.readsBack, readsBack_text, EntityId.readsBack, NaturalKey.readsBack, Connection.readsBack, Value.readsBack,
    Entity.readsBack, KindDef.readsBack, Schema.readsBack, Options.readsBack⟩

end Reconciliation
