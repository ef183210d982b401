import Reconciliation.Json.Reader
/-!
# Reading JSON of a known shape

Each reader here takes one value of a shape that is known beforehand, so that what is of another shape is found where
it stands and not when all is read.  A scalar of the wrong kind is read to its end first, a bracket is a fault at once.

A record is an object with a member for each field, or the array of its fields in order.  A field that is not required
may be missing.  In an object, members that are no fields are dropped, and no field may come twice; in an array only
fields at the end can be missing.
-/
namespace Reconciliation.Json.Reader

/-! ## Scalars -/

/-- Takes a value that starts with `c` and is not what was asked for. -/
def misfit {α : Type} (steps : Nat) (c : Char) : Reader α := do
  if c = '[' || c = '\x7b' then fail .misshapen
  else
    let _ ← scalar steps c
    fail .misshapen

/-- **A text.** -/
def text (steps : Nat) : Reader String := do
  let c ← token
  if c = '"' then
    advance
    textRest [] steps
  else misfit steps c

def null (steps : Nat) : Reader Unit := do
  let c ← token
  if c = 'n' then letters ['n', 'u', 'l', 'l'] else misfit steps c

def nameOf {α : Type} (steps : Nat) (named? : String → Option α) : Reader α := do
  match named? (← text steps) with
  | some a => return a
  | none => fail .misshapen

/-- **One of several choices**: its name, or an object that maps its name to null. -/
def choice {α : Type} (steps : Nat) (named? : String → Option α) : Reader α := do
  let c ← token
  if c = '"' then nameOf steps named?
  else if c = '\x7b' then
    advance
    let a ← nameOf steps named?
    colon
    null steps
    if (← token) = '\x7d' then
      advance
      return a
    else fail .malformed
  else fail .malformed

/-! ## Lists and objects -/

/-- **A list.** -/
def listOf {α : Type} (steps : Nat) (item : Reader α) : Reader (List α) := do
  let c ← token
  if c = '[' then
    advance
    itemsRest item [] true steps
  else misfit steps c

/-- **An object that maps names to values.**  Of two members for one name the later counts. -/
def mapOf {α : Type} (steps : Nat) (item : Reader α) : Reader (SortedMap String α) := do
  let c ← token
  if c = '\x7b' then
    advance
    membersRest (fun name (m : SortedMap String α) => do
      colon
      return m.insert name (← item)) .empty true steps
  else misfit steps c

/-! ## Records -/

/-- **A field of a record**: its name, whether it must be there, and how it is read into the record. -/
structure Field (σ : Type) where
  name : String
  required : Bool
  read : σ → Reader σ

def Field.mandatory {σ α : Type} (name : String) (value : Reader α) (put : σ → α → σ) : Field σ :=
  ⟨name, true, fun s => do return put s (← value)⟩

def Field.optional {σ α : Type} (name : String) (value : Reader α) (put : σ → α → σ) : Field σ :=
  ⟨name, false, fun s => do return put s (← value)⟩

/-- Reads what stands behind a key of a record; `seen` are the fields that were read before. -/
def recordMember {σ : Type} (steps : Nat) (fields : List (Field σ)) (key : String) (state : List String × σ) :
    Reader (List String × σ) := do
  match fields.find? (·.name = key) with
  | none =>
    colon
    skip steps
    return state
  | some field =>
    if state.1.contains key then fail .misshapen
    colon
    return (key :: state.1, ← field.read state.2)

/-- The fields of a record from the items of an array, up to the closing bracket, which is taken. -/
def recordItems {σ : Type} (record : σ) (first : Bool) : List (Field σ) → Reader σ
  | [] => do
    if (← token) = ']' then
      advance
      return record
    else fail .malformed
  | field :: rest => do
    let c ← token
    if c = ']' then
      if field.required || rest.any (·.required) then fail .misshapen
      advance
      return record
    if !first then
      if c ≠ ',' then fail .malformed
      advance
      if (← token) = ']' then fail .malformed
    recordItems (← field.read record) false rest

/-- **A record.**  `blank` has what stands in fields that are missing. -/
def record {σ : Type} (steps : Nat) (fields : List (Field σ)) (blank : σ) : Reader σ := do
  let c ← token
  if c = '[' then
    advance
    recordItems blank true fields
  else if c = '\x7b' then
    advance
    let (seen, read) ← membersRest (recordMember steps fields) ([], blank) true steps
    if fields.any (fun f => f.required && !seen.contains f.name) then fail .misshapen
    return read
  else misfit steps c

end Reconciliation.Json.Reader
