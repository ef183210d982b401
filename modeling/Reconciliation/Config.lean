import Reconciliation.Plan.Planner
import Reconciliation.Toml.Document
/-!
# Configuration

The configuration is a TOML document with two sections, `reconcile` and `log`.  What is missing has a default, and what
is not known does not count.  A section is a table; it is also read from an array of its fields in order, and a moment
is taken for a section without fields.
-/
namespace Reconciliation

/-- **A configuration.** -/
structure Config where
  options : Options
  /-- How much is logged. -/
  logLevel : String
deriving DecidableEq, Inhabited

namespace Config

def default : Config := ⟨.default, "info"⟩

/-- The only field of a section, if it is there.  There is no result when the value is no section. -/
def onlyField? (name : String) : Toml → Option (Option Toml)
  | .table _ entries => some (entries.lookup name)
  | .tables all => some (all.head?.map (.table .header))
  | .array items => some items.head?
  | .moment _ => some none
  | _ => none

/-- A field of a section of the configuration; `read` gives what it says. -/
def setting? {α : Type} (root : Toml.Entries) (heading field : String) (default : α) (read : Toml → Option α) :
    Option α :=
  match root.lookup heading with
  | none => some default
  | some s =>
    match onlyField? field s with
    | none => none
    | some none => some default
    | some (some v) => read v

def seed? : Toml → Option (Option UInt64)
  | .integer n => if 0 ≤ n then some (some n.toNat.toUInt64) else none
  | _ => none

def text? : Toml → Option String
  | .text s => some s
  | _ => none

/-- **Reads a configuration.** -/
def parse (text : String) : Option Config := do
  let root ← Toml.parse text
  return ⟨⟨← setting? root "reconcile" "shuffle_seed" none seed?⟩, ← setting? root "log" "level" "info" text?⟩

end Config
end Reconciliation
