import Reconciliation.Toml.Basic
/-!
# Tables in the making

A key can be a path.  The tables along the path are made when they are missing, and entered when they are there: of
tables in double brackets the last one is entered.

A dotted key may enter tables that dotted keys or the headers of other tables have named, but not one that has a header
of its own, and what it adds to must be a table of dotted keys.  A header may enter any table, but not define one twice:
it can only define what was named by headers of tables inside it.  No one enters a table in braces.
-/
namespace Reconciliation.Toml

/-- **What `f` makes of the table at the end of a path.**  There is no result when the path is blocked. -/
def within {α : Type} (dotted : Bool) (f : TableForm → Entries → Option (α × Entries)) :
    List String → TableForm → Entries → Option (α × Entries)
  | [], form, t => f form t
  | key :: path, _, t =>
    match t.lookup key with
    | none => do
      let form := if dotted then .dotted else .implied
      let (a, inner) ← within dotted f path form []
      return (a, t ++ [(key, .table form inner)])
    | some (.table form inner) =>
      if form = .inline || (dotted && form = .header) then none
      else do
        let (a, inner) ← within dotted f path form inner
        return (a, t.replace key (.table form inner))
    | some (.tables all) => do
      let (a, last) ← within dotted f path .header (all.getLast?.getD [])
      return (a, t.replace key (.tables (all.dropLast ++ [last])))
    | some _ => none

/-- **Adds the value of a dotted key to a table**: `path` is the key without its last part. -/
def insertAt (path : List String) (key : String) (value : Toml) (form : TableForm) (t : Entries) : Option Entries :=
  (within true (fun form t =>
    if !path.isEmpty && form ≠ .dotted then none else (t.add? key value).map ((), ·)) path form t).map (·.2)

def inlineEntries : List (List String × String × Toml) → Entries → Option Entries
  | [], t => some t
  | (path, key, value) :: rest, t => do inlineEntries rest (← insertAt path key value .inline t)

/-! ## Headers -/

/-- **A document in the making**: what is done, and the table that is being written. -/
structure Draft where
  root : Entries
  /-- The way to the table that is being written, and its key; the root has none. -/
  place : Option (List String × String)
  /-- Whether its header stands in double brackets. -/
  repeated : Bool
  current : Entries

namespace Draft

def empty : Draft := ⟨[], none, false, []⟩

/-- **The document with the table that was being written.** -/
def close (d : Draft) : Option Entries :=
  match d.place with
  | none => some d.current
  | some (path, key) =>
    (within false (fun _ t =>
      if d.repeated then
        match t.lookup key with
        | none => some ((), t ++ [(key, .tables [d.current])])
        | some (.tables all) => some ((), t.replace key (.tables (all ++ [d.current])))
        | some _ => none
      else some ((), t.put key (.table .header d.current))) path .header d.root).map (·.2)

/-- What a table that gets a header has already: the tables inside it that have headers. -/
def claim (key : String) (t : Entries) : Option Entries :=
  match t.lookup key with
  | none => some []
  | some (.table .implied inner) => some inner
  | some _ => none

/-- **Begins a table with a header.** -/
def openTable (d : Draft) (path : List String) (key : String) : Option Draft := do
  let root ← d.close
  let (inner, root) ← within false (fun _ t => (claim key t).map (·, t)) path .header root
  return ⟨root, some (path, key), false, inner⟩

/-- **Begins one more of the tables of a header in double brackets.** -/
def openRepeated (d : Draft) (path : List String) (key : String) : Option Draft := do
  let root ← d.close
  let ((), root) ← within false (fun _ t =>
    match t.lookup key with
    | none | some (.tables _) => some ((), t)
    | some _ => none) path .header root
  return ⟨root, some (path, key), true, []⟩

/-- **Adds the value of a key to the table that is being written.** -/
def insert (d : Draft) (path : List String) (key : String) (value : Toml) : Option Draft := do
  return { d with current := ← insertAt path key value .header d.current }

end Draft
end Reconciliation.Toml
