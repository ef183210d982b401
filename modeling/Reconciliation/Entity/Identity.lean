/-!
# Kinds, ids, sources and natural keys

An entity is named in two ways.  Its **id** is its kind and a running number, given by the store and never shown to
change.  Its **natural key** is the text of its key attributes, scoped by its kind; only kinds that declare key
attributes have one, and soft references point at natural keys.  A **source** says who an entity comes from.

Ids order by kind, then index; natural keys by kind, then text.  Text orders by code point.
-/
namespace Reconciliation

/-- The number of an entity kind in its schema: sixteen bits. -/
abbrev Kind := UInt16

/-- Where an entity comes from.  Filters look at nothing else. -/
abbrev Source := String

def Kind.label (k : Kind) : String := s!"EntityKind({k.toNat})"

/-- **The id of an entity**: its kind and its number among the entities of that kind. -/
structure EntityId where
  kind : Kind
  index : UInt32
deriving DecidableEq, Inhabited

/-- **A natural key**: what the key attributes of an entity of this kind say. -/
structure NaturalKey where
  kind : Kind
  text : String
deriving DecidableEq, Inhabited

instance : Ord EntityId := ⟨compareLex (compareOn EntityId.kind) (compareOn EntityId.index)⟩

instance : Std.TransOrd EntityId :=
  inferInstanceAs (Std.TransCmp (compareLex (compareOn EntityId.kind) (compareOn EntityId.index)))

instance : Std.LawfulEqOrd EntityId where
  eq_of_compare {a b} h := by
    have h : compareLex (compareOn EntityId.kind) (compareOn EntityId.index) a b = .eq := h
    simp only [compareLex_eq_eq, compareOn, Std.LawfulEqCmp.compare_eq_iff_eq] at h
    cases a; cases b; simp_all

instance : Ord NaturalKey := ⟨compareLex (compareOn NaturalKey.kind) (compareOn NaturalKey.text)⟩

instance : Std.TransOrd NaturalKey :=
  inferInstanceAs (Std.TransCmp (compareLex (compareOn NaturalKey.kind) (compareOn NaturalKey.text)))

instance : Std.LawfulEqOrd NaturalKey where
  eq_of_compare {a b} h := by
    have h : compareLex (compareOn NaturalKey.kind) (compareOn NaturalKey.text) a b = .eq := h
    simp only [compareLex_eq_eq, compareOn, Std.LawfulEqCmp.compare_eq_iff_eq] at h
    cases a; cases b; simp_all

/-- An id as it is written: `kind#index`. -/
def EntityId.text (i : EntityId) : String := s!"{i.kind.toNat}#{i.index.toNat}"

/-- An id with its parts named, as it stands inside the states that messages quote. -/
def EntityId.label (i : EntityId) : String :=
  "EntityId \x7b kind: " ++ i.kind.label ++ ", index: " ++ toString i.index.toNat ++ " \x7d"

/-- A natural key as it is written: `kind:text`. -/
def NaturalKey.render (k : NaturalKey) : String := s!"{k.kind.toNat}:{k.text}"

end Reconciliation
