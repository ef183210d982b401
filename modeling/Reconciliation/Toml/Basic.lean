/-!
# TOML values

A table is the list of its entries in the order in which they were made.  While a document is read, every table
remembers how it came into being (`TableForm`), because that decides who may still add to it.

Floats and moments (dates, times of day, both) are kept as they are written.
-/
namespace Reconciliation

inductive TableForm
  /-- Written in braces; nobody adds to it. -/
  | inline
  /-- It has a header of its own, or is the root. -/
  | header
  /-- Named on the way to the table of a header. -/
  | implied
  /-- Named on the way to the value of a dotted key. -/
  | dotted
deriving DecidableEq, Inhabited

/-- **A TOML value.** -/
inductive Toml
  | text (s : String)
  | integer (n : Int)
  | float (literal : String)
  | bool (b : Bool)
  | moment (literal : String)
  | array (items : List Toml)
  | table (form : TableForm) (entries : List (String × Toml))
  /-- Tables with headers in double brackets. -/
  | tables (all : List (List (String × Toml)))
deriving Inhabited

namespace Toml

abbrev Entries := List (String × Toml)

namespace Entries

def replace (key : String) (value : Toml) (t : Entries) : Entries :=
  t.map fun e => if e.1 = key then (key, value) else e

/-- The entries with a value for a key, behind the others if the key is new. -/
def put (key : String) (value : Toml) (t : Entries) : Entries :=
  if (t.lookup key).isSome then replace key value t else t ++ [(key, value)]

/-- The entries with a new key.  There are none if the key is taken. -/
def add? (key : String) (value : Toml) (t : Entries) : Option Entries :=
  if (t.lookup key).isSome then none else some (t ++ [(key, value)])

end Entries
end Toml
end Reconciliation
