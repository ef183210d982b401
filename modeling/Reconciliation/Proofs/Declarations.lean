import Reconciliation.Proofs.Declaring
/-!
# What a schema records

A schema is built by declarations, in any order: a kind, the key attributes of a number, a connection to a number
(`Declaration`).  What it says of a kind is read off the declarations:
- a declaration changes the definition that its number denotes and no other, so a definition has in the end the name
  that it was declared with, the last key attributes for its number and all connections to it, of those that were
  declared after it (`Schema.kind?_declareAll`);
- names never change, so the list of kinds gives them with the numbers that their declarations gave
  (`Schema.registered_declareAll`), and a name leads to the number of its first declaration
  (`Schema.kindNamed?_eq_find`).

A number has sixteen bits.  The kinds from the 65537th on are given numbers again that others have already.
-/
namespace Reconciliation

/-- **A declaration**: of a kind, of the key attributes of a number, or of a connection. -/
inductive Declaration
  | kind (name : String)
  | key (kind : Kind) (attributes : List String)
  | connection (c : Connection)

namespace Declaration

def isKind : Declaration → Bool
  | kind _ => true
  | _ => false

/-- The key attributes that a declaration gives a number. -/
def keyOf? (k : Kind) : Declaration → Option (List String)
  | key k' attributes => if k' = k then some attributes else none
  | _ => none

/-- The connection that a declaration gives a number. -/
def connectionOf? (k : Kind) : Declaration → Option Connection
  | connection c => if c.child = k then some c else none
  | _ => none

end Declaration

/-- The last key attributes that declarations give a number. -/
def lastKey? (k : Kind) (ds : List Declaration) : Option (List String) := (ds.filterMap (·.keyOf? k)).getLast?

/-- The connections that declarations give a number, in order. -/
def connectionsOf (k : Kind) (ds : List Declaration) : List Connection := ds.filterMap (·.connectionOf? k)

namespace Schema

def declare (s : Schema) : Declaration → Schema
  | .kind name => (s.declareKind name).1
  | .key k attributes => s.declareKey k attributes
  | .connection c => s.declareConnection c

/-- **A schema after some declarations.** -/
def declareAll (s : Schema) (ds : List Declaration) : Schema := ds.foldl declare s

/-- The name and the number of the kind that a declaration is about to declare. -/
def numbering (s : Schema) : Declaration → Option (String × Kind)
  | .kind name => some (name, (s.declareKind name).2)
  | _ => none

/-- **The kinds that are declared**, each name with the number that its declaration gives. -/
def numberings : Schema → List Declaration → List (String × Kind)
  | _, [] => []
  | s, x :: ds => (s.numbering x).toList ++ numberings (s.declare x) ds

/-- The names of the kinds with their numbers, as the list of kinds gives them. -/
def registered (s : Schema) : List (String × Kind) := s.numbered.map fun e => (e.2.name, e.1)

variable {s : Schema} {k : Kind} {d : KindDef} {name : String} {x : Declaration} {ds ds' : List Declaration}

theorem declareAll_cons : s.declareAll (x :: ds) = (s.declare x).declareAll ds := rfl

theorem declareAll_append : s.declareAll (ds ++ ds') = (s.declareAll ds).declareAll ds' := List.foldl_append

/-! ## Definitions -/

theorem kind?_declare (h : s.kind? k = some d) : (s.declare x).kind? k =
    some ⟨d.name, (x.keyOf? k).getD d.keyAttributes, d.parents ++ (x.connectionOf? k).toList⟩ := by
  have hk : s.kinds[k.toNat]? = some d := h
  cases x with
  | kind name =>
    have hlt : k.toNat < s.kinds.size := (Array.getElem?_eq_some_iff.1 hk).1
    show (s.kinds.push _)[k.toNat]? = _
    rw [Array.getElem?_push, if_neg (Nat.ne_of_lt hlt), hk]
    simp [Declaration.keyOf?, Declaration.connectionOf?]
  | key k' attributes =>
    have hstep : s.AltersAt (s.declareKey k' attributes) k' _ := altersAt_modify fun _ => rfl
    rw [declare, kind?, Declaration.keyOf?]
    by_cases heq : k' = k
    · subst heq
      simp [hstep.own, hk, Declaration.connectionOf?]
    · rw [hstep.others _ fun hsame => heq (UInt16.toNat_inj.1 hsame).symm, hk]
      simp [heq, Declaration.connectionOf?]
  | connection c =>
    have hstep : s.AltersAt (s.declareConnection c) c.child _ := altersAt_modify fun _ => rfl
    rw [declare, kind?, Declaration.connectionOf?]
    by_cases heq : c.child = k
    · subst heq
      simp [hstep.own, hk, Declaration.keyOf?]
    · rw [hstep.others _ fun hsame => heq (UInt16.toNat_inj.1 hsame).symm, hk]
      simp [heq, Declaration.keyOf?]

/-- **A definition records all declarations that come after it.** -/
theorem kind?_declareAll : ∀ {ds : List Declaration} {s : Schema} {d : KindDef}, s.kind? k = some d →
    (s.declareAll ds).kind? k = some ⟨d.name, (lastKey? k ds).getD d.keyAttributes, d.parents ++ connectionsOf k ds⟩
  | [], s, d, h => by simpa [declareAll, lastKey?, connectionsOf] using h
  | x :: ds, s, d, h => by
    rw [declareAll_cons, kind?_declareAll (kind?_declare h), lastKey?, lastKey?, connectionsOf, connectionsOf,
      List.filterMap_cons, List.filterMap_cons]
    cases x.keyOf? k <;> cases x.connectionOf? k <;> simp [List.getLast?_cons]

/-! ## Numbers -/

theorem size_declare : (s.declare x).kinds.size = s.kinds.size + if x.isKind then 1 else 0 := by
  cases x with
  | kind name => exact Array.size_push ..
  | key | connection => exact Array.size_modify ..

theorem size_declareAll : ∀ {ds : List Declaration} {s : Schema},
    (s.declareAll ds).kinds.size = s.kinds.size + ds.countP Declaration.isKind
  | [], _ => rfl
  | x :: ds, s => by
    rw [declareAll_cons, size_declareAll, size_declare, List.countP_cons]
    omega

theorem kind?_declareKind (h : s.kinds.size < 65536) :
    (s.declareKind name).1.kind? (s.declareKind name).2 = some ⟨name, [], []⟩ := by
  have hback : s.kinds.size.toUInt16.toNat = s.kinds.size := UInt16.toNat_ofNat_of_lt' h
  show (s.kinds.push _)[s.kinds.size.toUInt16.toNat]? = _
  rw [hback, Array.getElem?_push, if_pos rfl]

theorem numberings_append : ∀ (ds ds' : List Declaration) (s : Schema),
    s.numberings (ds ++ ds') = s.numberings ds ++ (s.declareAll ds).numberings ds'
  | [], _, _ => rfl
  | x :: ds, ds', s => by
    rw [List.cons_append, numberings, numberings, numberings_append ds ds' (s.declare x), List.append_assoc,
      declareAll_cons]

theorem registered_eq (s : Schema) : s.registered = s.names.zipIdx.map fun n => (n.1, n.2.toUInt16) := by
  rw [registered, numbered, names, List.zipIdx_map, List.map_map, List.map_map]
  rfl

theorem registered_declare : (s.declare x).registered = s.registered ++ (s.numbering x).toList := by
  cases x with
  | kind name =>
    have hnames : (s.declare (.kind name)).names = s.names ++ [name] := by
      rw [names, declare, declareKind, Array.toList_push, List.map_append]
      rfl
    rw [registered_eq, hnames, List.zipIdx_append, List.map_append, ← registered_eq, length_names, Nat.zero_add]
    rfl
  | key k attributes =>
    have hstep : s.AltersAt (s.declareKey k attributes) k _ := altersAt_modify fun _ => rfl
    rw [declare, registered_eq, hstep.names, ← registered_eq]
    exact (List.append_nil _).symm
  | connection c =>
    have hstep : s.AltersAt (s.declareConnection c) c.child _ := altersAt_modify fun _ => rfl
    rw [declare, registered_eq, hstep.names, ← registered_eq]
    exact (List.append_nil _).symm

theorem registered_declareAll : ∀ {ds : List Declaration} {s : Schema},
    (s.declareAll ds).registered = s.registered ++ s.numberings ds
  | [], s => (List.append_nil _).symm
  | x :: ds, s => by
    rw [declareAll_cons, registered_declareAll, registered_declare, numberings, List.append_assoc]

theorem kindNamed?_eq_find (s : Schema) (name : String) :
    s.kindNamed? name = (s.registered.find? (·.1 = name)).map (·.2) := by
  have hlist : s.kinds.toList.toArray = s.kinds := Array.toArray_toList
  rw [kindNamed?, ← hlist, List.findIdx?_toArray, List.findIdx?_eq_fst_find?_zipIdx, registered, numbered, List.map_map,
    List.find?_map, Option.map_map, Option.map_map]
  rfl

theorem kind?_of_numbered {i : Nat} (h : s.numbered[i]? = some (k, d)) (hi : i < 65536) : s.kind? k = some d := by
  rw [numbered, List.getElem?_map, List.getElem?_zipIdx] at h
  obtain ⟨_, hmem, heq⟩ := Option.map_eq_some_iff.1 h
  obtain ⟨e, he, rfl⟩ := Option.map_eq_some_iff.1 hmem
  obtain ⟨rfl, rfl⟩ := Prod.mk.inj heq
  rw [kind?, Nat.zero_add]
  have hback : i.toUInt16.toNat = i := UInt16.toNat_ofNat_of_lt' hi
  rw [hback, ← Array.getElem?_toList, he]

/-! ## What a schema says -/

/-- **A schema records what was declared**, whatever the order of the declarations.
- The number that each of the first 65536 kinds is given denotes a definition with its name, with the last key attributes
  for that number and exactly the connections to it, of those that are declared after the kind.
- The list of kinds has every definition, in order, with the number that was given; under it the definition is found, if
  it is one of the first 65536.
- A name leads to the number that the first kind of that name was given. -/
theorem declareAll_records (ds : List Declaration) :
    (∀ before name after, ds = before ++ .kind name :: after → before.countP Declaration.isKind < 65536 →
      let k := ((empty.declareAll before).declareKind name).2
      (empty.declareAll ds).kind? k = some ⟨name, (lastKey? k after).getD [], connectionsOf k after⟩) ∧
    (empty.declareAll ds).numbered.map (·.2) = (empty.declareAll ds).kinds.toList ∧
    (empty.declareAll ds).numbered.map (fun e => (e.2.name, e.1)) = empty.numberings ds ∧
    (∀ i k d, (empty.declareAll ds).numbered[i]? = some (k, d) → i < 65536 → (empty.declareAll ds).kind? k = some d) ∧
    ∀ name, (empty.declareAll ds).kindNamed? name = ((empty.numberings ds).find? (·.1 = name)).map (·.2) := by
  have hregistered : (empty.declareAll ds).registered = empty.numberings ds := registered_declareAll
  refine ⟨?_, ?_, hregistered, fun i k d => kind?_of_numbered, fun name => ?_⟩
  · rintro before name after rfl hroom
    have hsize : (empty.declareAll before).kinds.size < 65536 := by
      rwa [size_declareAll, show empty.kinds.size = 0 from rfl, Nat.zero_add]
    rw [declareAll_append, declareAll_cons]
    exact kind?_declareAll (kind?_declareKind hsize)
  · rw [numbered, List.map_map]
    exact List.zipIdx_map_fst ..
  · rw [kindNamed?_eq_find, hregistered]

/-- A kind in between, one name twice, key attributes twice, and declarations for numbers that nothing denotes. -/
def shelving : List Declaration := [
  .kind "Shelf",
  .connection ⟨0, 1, .one, .optional⟩,
  .kind "Book",
  .connection ⟨0, 1, .many, .required⟩,
  .key 1 ["title"],
  .kind "Shelf",
  .key 1 ["series", "number"],
  .connection ⟨2, 1, .many, .optional⟩,
  .connection ⟨1, 3, .one, .optional⟩]

theorem shelving_records : shelving.countP Declaration.isKind < 65536 ∧
    (empty.declareAll shelving).kind? 1 =
      some ⟨"Book", ["series", "number"], [⟨0, 1, .many, .required⟩, ⟨2, 1, .many, .optional⟩]⟩ ∧
    (empty.declareAll shelving).kindNamed? "Shelf" = some 0 := by
  obtain ⟨hdefinition, -, -, -, hname⟩ := declareAll_records shelving
  have hbook := hdefinition (shelving.take 2) "Book" (shelving.drop 3) rfl (by decide)
  exact ⟨by decide, hbook, hname "Shelf"⟩

/-- A number is spoken of before there is a kind that it denotes. -/
def early : List Declaration := [.connection ⟨0, 0, .many, .optional⟩, .key 0 ["id"], .kind "A"]

/-- One kind more than there are numbers. -/
def overfull : List Declaration := List.replicate 65536 (.kind "A") ++ [.kind "B"]

/-- **Not everything is recorded**: what is declared for a number before its kind is lost, and the number of the 65537th
kind denotes the first. -/
theorem early_unrecorded :
    (empty.numberings early = [("A", 0)] ∧ lastKey? 0 early = some ["id"] ∧
      connectionsOf 0 early = [⟨0, 0, .many, .optional⟩] ∧ (empty.declareAll early).kind? 0 = some ⟨"A", [], []⟩) ∧
    (empty.numberings overfull).getLast? = some ("B", 0) ∧ (empty.declareAll overfull).kind? 0 = some ⟨"A", [], []⟩ := by
  refine ⟨by decide +kernel, ?_, ?_⟩
  · have hsize : (empty.declareAll (List.replicate 65536 (.kind "A"))).kinds.size = 65536 := by
      rw [size_declareAll, List.countP_replicate]
      rfl
    have hlast : (empty.declareAll (List.replicate 65536 (.kind "A"))).numberings [.kind "B"] = [("B", 0)] := by
      rw [numberings, numbering, declareKind, hsize]
      rfl
    rw [overfull, numberings_append, hlast, List.getLast?_concat]
  · have hfirst : overfull = .kind "A" :: (List.replicate 65535 (.kind "A") ++ [.kind "B"]) := by
      rw [overfull, List.replicate_succ, List.cons_append]
    have hbare : (empty.declare (.kind "A")).kind? 0 = some ⟨"A", [], []⟩ := rfl
    have hnothing : ∀ n, lastKey? 0 (List.replicate n (.kind "A") ++ [.kind "B"]) = none ∧
        connectionsOf 0 (List.replicate n (.kind "A") ++ [.kind "B"]) = [] := fun n => by
      simp [lastKey?, connectionsOf, Declaration.keyOf?, Declaration.connectionOf?]
    rw [hfirst, declareAll_cons, kind?_declareAll hbare, (hnothing 65535).1, (hnothing 65535).2]
    rfl

end Schema
end Reconciliation
