import Reconciliation.Json.Double
import Reconciliation.SortedMap
/-!
# JSON values

A number is an integer or a double; `1` and `1.0` are different numbers.  An object is the list of its members in the
order in which they are written out; objects that are read have their members in key order.
-/
namespace Reconciliation

/-- A JSON number: integers between `-2 ^ 63` and `2 ^ 64 - 1` are kept exactly, all others are doubles. -/
inductive JsonNumber
  | int (n : Int)
  | double (x : Double)
deriving DecidableEq, Inhabited

/-- **A JSON value.** -/
inductive Json
  | null
  | bool (b : Bool)
  | num (n : JsonNumber)
  | str (s : String)
  | arr (items : List Json)
  | obj (members : List (String × Json))
deriving Inhabited

def JsonNumber.render : JsonNumber → String
  | .int n => toString n
  | .double x => x.render

namespace Json

/-! ## Equality -/

mutual
def same : Json → Json → Bool
  | .null, .null => true
  | .bool a, .bool b => a = b
  | .num a, .num b => a = b
  | .str a, .str b => a = b
  | .arr a, .arr b => sameItems a b
  | .obj a, .obj b => sameMembers a b
  | _, _ => false
def sameItems : List Json → List Json → Bool
  | [], [] => true
  | a :: as, b :: bs => same a b && sameItems as bs
  | _, _ => false
def sameMembers : List (String × Json) → List (String × Json) → Bool
  | [], [] => true
  | (k, a) :: as, (l, b) :: bs => k = l && same a b && sameMembers as bs
  | _, _ => false
end

mutual
theorem same_self : ∀ a : Json, same a a = true
  | .null => rfl
  | .bool _ => by simp [same]
  | .num _ => by simp [same]
  | .str _ => by simp [same]
  | .arr l => by simpa [same] using sameItems_self l
  | .obj l => by simpa [same] using sameMembers_self l
theorem sameItems_self : ∀ l : List Json, sameItems l l = true
  | [] => rfl
  | a :: l => by simp [sameItems, same_self a, sameItems_self l]
theorem sameMembers_self : ∀ l : List (String × Json), sameMembers l l = true
  | [] => rfl
  | (_, a) :: l => by simp [sameMembers, same_self a, sameMembers_self l]
end

mutual
theorem eq_of_same : ∀ {a b : Json}, same a b = true → a = b
  | .null, b, h => by cases b <;> simp_all [same]
  | .bool _, b, h => by cases b <;> simp_all [same]
  | .num _, b, h => by cases b <;> simp_all [same]
  | .str _, b, h => by cases b <;> simp_all [same]
  | .arr l, .arr r, h => by rw [eq_of_sameItems (a := l) (b := r) (by simpa [same] using h)]
  | .obj l, .obj r, h => by rw [eq_of_sameMembers (a := l) (b := r) (by simpa [same] using h)]
  | .arr _, .null, h | .arr _, .bool _, h | .arr _, .num _, h | .arr _, .str _, h | .arr _, .obj _, h
  | .obj _, .null, h | .obj _, .bool _, h | .obj _, .num _, h | .obj _, .str _, h | .obj _, .arr _, h => by
    simp [same] at h
theorem eq_of_sameItems : ∀ {a b : List Json}, sameItems a b = true → a = b
  | [], [], _ => rfl
  | [], _ :: _, h | _ :: _, [], h => by simp [sameItems] at h
  | a :: as, b :: bs, h => by
    simp only [sameItems, Bool.and_eq_true] at h
    rw [eq_of_same h.1, eq_of_sameItems h.2]
theorem eq_of_sameMembers : ∀ {a b : List (String × Json)}, sameMembers a b = true → a = b
  | [], [], _ => rfl
  | [], _ :: _, h | _ :: _, [], h => by simp [sameMembers] at h
  | (k, a) :: as, (l, b) :: bs, h => by
    simp only [sameMembers, Bool.and_eq_true, decide_eq_true_eq] at h
    rw [h.1.1, eq_of_same h.1.2, eq_of_sameMembers h.2]
end

instance : DecidableEq Json := fun a b => decidable_of_iff (same a b = true) ⟨eq_of_same, fun h => h ▸ same_self a⟩

/-! ## Making and taking apart -/

def int (n : Int) : Json := .num (.int n)

def nat (n : Nat) : Json := .num (.int n)

def ofOption {α : Type} (f : α → Json) : Option α → Json
  | none => .null
  | some a => f a

def ofList {α : Type} (f : α → Json) (l : List α) : Json := .arr (l.map f)

def member? : Json → String → Option Json
  | .obj members, name => members.lookup name
  | _, _ => none

def text? : Json → Option String
  | .str s => some s
  | _ => none

def items? : Json → Option (List Json)
  | .arr items => some items
  | _ => none

def members? : Json → Option (List (String × Json))
  | .obj members => some members
  | _ => none

def int? : Json → Option Int
  | .num (.int n) => some n
  | _ => none

def bool? : Json → Option Bool
  | .bool b => some b
  | _ => none

mutual
/-- The value with the members of every object in key order. -/
def sortKeys : Json → Json
  | .arr items => .arr (sortKeysItems items)
  | .obj members => .obj (sortKeysMembers members).toList
  | j => j
def sortKeysItems : List Json → List Json
  | [] => []
  | j :: js => sortKeys j :: sortKeysItems js
def sortKeysMembers : List (String × Json) → SortedMap String Json
  | [] => .empty
  | (k, j) :: rest => (sortKeysMembers rest).insert k (sortKeys j)
end

end Json
end Reconciliation
