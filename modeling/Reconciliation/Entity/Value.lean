import Reconciliation.Entity.Identity
/-!
# Attribute values

A value is null, a truth value, a signed 64-bit integer, text, a list of values, or a soft reference: the natural key
of an entity that may or may not exist.  Values order by shape in this sequence and then by content.

`refs` lists the soft references of a value at every depth, `rename` points those at one key to another.  The text of
a value (`render`) is what natural keys are made of; it does not tell the text `"1"` from the integer `1`.
-/
namespace Reconciliation

/-- **An attribute value.** -/
inductive Value
  | null
  | bool (b : Bool)
  | int (i : Int64)
  | text (s : String)
  | list (items : List Value)
  | ref (key : NaturalKey)
deriving Inhabited

namespace Value

/-! ## Order and equality -/

def rank : Value → Nat
  | .null => 0
  | .bool _ => 1
  | .int _ => 2
  | .text _ => 3
  | .list _ => 4
  | .ref _ => 5

mutual
/-- The order of values; lists compare element by element, a list before its extensions. -/
def cmp : Value → Value → Ordering
  | .null, .null => .eq
  | .bool a, .bool b => compare a.toNat b.toNat
  | .int a, .int b => compare a b
  | .text a, .text b => compare a b
  | .list a, .list b => cmpAll a b
  | .ref a, .ref b => compare a b
  | a, b => compare a.rank b.rank
def cmpAll : List Value → List Value → Ordering
  | [], [] => .eq
  | [], _ :: _ => .lt
  | _ :: _, [] => .gt
  | a :: as, b :: bs => (cmp a b).then (cmpAll as bs)
end

instance : Ord Value := ⟨cmp⟩

mutual
theorem cmp_self : ∀ a : Value, cmp a a = .eq
  | .null => rfl
  | .bool b => by simp [cmp]
  | .int i => by simp [cmp]
  | .text s => by simp [cmp]
  | .list l => by simp [cmp, cmpAll_self l]
  | .ref k => by simp [cmp]
theorem cmpAll_self : ∀ l : List Value, cmpAll l l = .eq
  | [] => rfl
  | a :: l => by simp [cmpAll, cmp_self a, cmpAll_self l]
end

mutual
theorem eq_of_cmp : ∀ {a b : Value}, cmp a b = .eq → a = b
  | .null, .null, _ => rfl
  | .bool a, .bool b, h => by
    cases a <;> cases b <;> first | rfl | exact absurd h (by decide)
  | .int a, .int b, h => by simpa [cmp] using h
  | .text a, .text b, h => by simpa [cmp] using h
  | .list a, .list b, h => by rw [eq_of_cmpAll (a := a) (b := b) (by simpa [cmp] using h)]
  | .ref a, .ref b, h => by simpa [cmp] using h
  | .null, .bool _, h | .null, .int _, h | .null, .text _, h | .null, .list _, h | .null, .ref _, h
  | .bool _, .null, h | .bool _, .int _, h | .bool _, .text _, h | .bool _, .list _, h | .bool _, .ref _, h
  | .int _, .null, h | .int _, .bool _, h | .int _, .text _, h | .int _, .list _, h | .int _, .ref _, h
  | .text _, .null, h | .text _, .bool _, h | .text _, .int _, h | .text _, .list _, h | .text _, .ref _, h
  | .list _, .null, h | .list _, .bool _, h | .list _, .int _, h | .list _, .text _, h | .list _, .ref _, h
  | .ref _, .null, h | .ref _, .bool _, h | .ref _, .int _, h | .ref _, .text _, h | .ref _, .list _, h =>
    by simp [cmp, rank, compare, compareOfLessAndEq] at h
theorem eq_of_cmpAll : ∀ {a b : List Value}, cmpAll a b = .eq → a = b
  | [], [], _ => rfl
  | [], _ :: _, h => by simp [cmpAll] at h
  | _ :: _, [], h => by simp [cmpAll] at h
  | a :: as, b :: bs, h => by
    simp only [cmpAll, Ordering.then_eq_eq] at h
    rw [eq_of_cmp h.1, eq_of_cmpAll h.2]
end

/-- Values compare as equal exactly when they are equal. -/
theorem cmp_eq_iff {a b : Value} : cmp a b = .eq ↔ a = b := ⟨eq_of_cmp, fun h => h ▸ cmp_self a⟩

instance : DecidableEq Value := fun _ _ => decidable_of_iff _ cmp_eq_iff

def le (a b : Value) : Bool := (cmp a b).isLE

/-! ## Soft references -/

mutual
def refs : Value → List NaturalKey
  | .ref key => [key]
  | .list items => refsAll items
  | _ => []
def refsAll : List Value → List NaturalKey
  | [] => []
  | v :: vs => refs v ++ refsAll vs
end

mutual
def rename (old new : NaturalKey) : Value → Value
  | .ref key => .ref (if key = old then new else key)
  | .list items => .list (renameAll old new items)
  | v => v
def renameAll (old new : NaturalKey) : List Value → List Value
  | [] => []
  | v :: vs => rename old new v :: renameAll old new vs
end

theorem refsAll_eq_flatMap : ∀ l : List Value, refsAll l = l.flatMap refs
  | [] => rfl
  | v :: vs => by simp [refsAll, refsAll_eq_flatMap vs]

theorem renameAll_eq_map (old new : NaturalKey) : ∀ l : List Value, renameAll old new l = l.map (rename old new)
  | [] => rfl
  | v :: vs => by simp [renameAll, renameAll_eq_map old new vs]

mutual
/-- Renaming renames the references, each in its place. -/
theorem refs_rename (old new : NaturalKey) : ∀ v : Value,
    (rename old new v).refs = v.refs.map fun k => if k = old then new else k
  | .ref _ => rfl
  | .list items => by simpa [rename, refs] using refsAll_renameAll old new items
  | .null => rfl
  | .bool _ => rfl
  | .int _ => rfl
  | .text _ => rfl
theorem refsAll_renameAll (old new : NaturalKey) : ∀ l : List Value,
    refsAll (renameAll old new l) = (refsAll l).map fun k => if k = old then new else k
  | [] => rfl
  | v :: vs => by simp [renameAll, refsAll, refs_rename old new v, refsAll_renameAll old new vs]
end

/-! ## Integers -/

def int64? (n : Int) : Option Int64 :=
  if Int64.minValue.toInt ≤ n ∧ n ≤ Int64.maxValue.toInt then some (Int64.ofInt n) else none

theorem int64?_toInt (i : Int64) : int64? i.toInt = some i := by
  rw [int64?, if_pos ⟨Int64.minValue_le_toInt i, Int64.toInt_le i⟩, Int64.ofInt_toInt]

/-! ## Text and digest -/

mutual
/-- **The text of a value**: null, truth values and integers as usual, text without quotes, lists in brackets, and of
a soft reference the text of its key. -/
def render : Value → String
  | .null => "null"
  | .bool b => if b then "true" else "false"
  | .int i => toString i.toInt
  | .text s => s
  | .list items => "[" ++ renderAll items ++ "]"
  | .ref key => key.text
def renderAll : List Value → String
  | [] => ""
  | [v] => render v
  | v :: vs => render v ++ ", " ++ renderAll vs
end

def stir (h x : UInt64) : UInt64 := h * 1099511628211 + x

/-- Stirs a text into a digest, its length first. -/
def stirText (h : UInt64) (s : String) : UInt64 :=
  s.toList.foldl (fun h c => stir h c.toNat.toUInt64) (stir h s.length.toUInt64)

mutual
def digest (h : UInt64) : Value → UInt64
  | .null => stir h 1
  | .bool b => stir (stir h 2) b.toNat.toUInt64
  | .int i => stir (stir h 3) i.toUInt64
  | .text s => stirText (stir h 4) s
  | .list items => digestAll (stir h 5) items
  | .ref key => stirText (stir (stir h 6) key.kind.toUInt64) key.text
def digestAll (h : UInt64) : List Value → UInt64
  | [] => stir h 7
  | v :: vs => digestAll (digest h v) vs
end

end Value
end Reconciliation
