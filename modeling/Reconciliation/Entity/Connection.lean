import Reconciliation.Entity.Identity
/-!
# Connections

A connection is a type of link from a parent kind to a child kind.  Its cardinality says how many children a parent
holds through it, its optionality whether the child can be without it.  Connections order by parent kind, child kind,
cardinality (one before many) and optionality (required before optional).
-/
namespace Reconciliation

inductive Cardinality
  | one
  | many
deriving DecidableEq, Inhabited

/-- Whether a child can be without a parent on this connection. -/
inductive Optionality
  | required
  | optional
deriving DecidableEq, Inhabited

/-- **A declared type of link** between a parent kind and a child kind. -/
structure Connection where
  parent : Kind
  child : Kind
  cardinality : Cardinality
  optionality : Optionality
deriving DecidableEq, Inhabited

def Cardinality.rank : Cardinality → Nat
  | .one => 0
  | .many => 1

def Optionality.rank : Optionality → Nat
  | .required => 0
  | .optional => 1

theorem Cardinality.rank_inj : ∀ {a b : Cardinality}, a.rank = b.rank → a = b
  | .one, .one, _ | .many, .many, _ => rfl

theorem Optionality.rank_inj : ∀ {a b : Optionality}, a.rank = b.rank → a = b
  | .required, .required, _ | .optional, .optional, _ => rfl

namespace Connection

def isRequired (c : Connection) : Bool := c.optionality = .required

instance : Ord Connection :=
  ⟨compareLex (compareOn Connection.parent) (compareLex (compareOn Connection.child)
    (compareLex (compareOn fun c => c.cardinality.rank) (compareOn fun c => c.optionality.rank)))⟩

instance : Std.TransOrd Connection :=
  inferInstanceAs (Std.TransCmp (compareLex (compareOn Connection.parent) (compareLex (compareOn Connection.child)
    (compareLex (compareOn fun c => c.cardinality.rank) (compareOn fun c => c.optionality.rank)))))

instance : Std.LawfulEqOrd Connection where
  eq_of_compare {a b} h := by
    have h : compareLex (compareOn Connection.parent) (compareLex (compareOn Connection.child)
      (compareLex (compareOn fun c => c.cardinality.rank) (compareOn fun c => c.optionality.rank))) a b = .eq := h
    simp only [compareLex_eq_eq, compareOn, Std.LawfulEqCmp.compare_eq_iff_eq] at h
    obtain ⟨hp, hc, hd, ho⟩ := h
    cases a; cases b
    exact congr (congr (congr (congrArg _ hp) hc) (Cardinality.rank_inj hd)) (Optionality.rank_inj ho)

def label (c : Connection) : String :=
  let cardinality := match c.cardinality with
    | .one => "One"
    | .many => "Many"
  let optionality := match c.optionality with
    | .required => "Required"
    | .optional => "Optional"
  "ConnectionId \x7b parent: " ++ c.parent.label ++ ", child: " ++ c.child.label ++
    ", kind: ConnectionKind \x7b cardinality: " ++ cardinality ++ ", optionality: " ++ optionality ++ " \x7d \x7d"

end Connection

/-- A link to a parent: the connection it goes through and the parent's id. -/
abbrev Link := Connection × EntityId

def Link.le (a b : Link) : Bool := (compareLex (compareOn Prod.fst) (compareOn Prod.snd) a b).isLE

end Reconciliation
