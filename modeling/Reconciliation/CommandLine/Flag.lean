import Reconciliation.CommandLine.Word
/-!
# Options of the command line

Each option has a name, and some have a letter.  The verbose mark and the configuration are understood everywhere, in
front of the command and behind it; the others belong to `reconcile`.  What was given at one place is collected in
`Given`.  There, no option may come twice but the source.
-/
namespace Reconciliation.CommandLine

inductive Place
  | front
  | reconcile
  | check
  | version
deriving DecidableEq, Inhabited

/-- **An option.** -/
inductive Flag
  | verbose
  | config
  | source
  | seed
  | json
  | dryRun
deriving DecidableEq, Inhabited

namespace Flag

def takesValue : Flag → Bool
  | .config | .source | .seed => true
  | .verbose | .json | .dryRun => false

def isKnownAt (place : Place) : Flag → Bool
  | .verbose | .config => true
  | .source | .seed | .json | .dryRun => place = .reconcile

def named? (place : Place) (name : List Char) : Option Flag :=
  ([("verbose", .verbose), ("config", .config), ("source", .source), ("seed", .seed), ("json", .json),
    ("dry-run", .dryRun)].lookup (String.ofList name)).filter (isKnownAt place)

def lettered? (place : Place) (letter : Char) : Option Flag :=
  ([('v', .verbose), ('c', .config), ('s', .source)].lookup letter).filter (isKnownAt place)

end Flag

/-- **What was given at one place.** -/
structure Given where
  verbose : Bool
  config : Option String
  sources : List String
  seed : Option UInt64
  json : Bool
  dryRun : Bool
  document : Option String
deriving DecidableEq, Inhabited

namespace Given

def nothing : Given := ⟨false, none, [], none, false, false, none⟩

/-- A seed: a number of 64 bits in decimal digits, with or without a plus. -/
def seed? (s : String) : Option UInt64 :=
  let ds := match s.toList with
    | '+' :: ds => ds
    | ds => ds
  let n := ds.foldl (fun n d => n * 10 + (d.toNat - 48)) 0
  if !ds.isEmpty && ds.all Char.isDigit && n < UInt64.size then some n.toUInt64 else none

def once {α : Type} (sofar : Option α) (value : Option α) : Option (Option α) :=
  match sofar, value with
  | none, some a => some (some a)
  | _, _ => none

def fileName? (s : String) : Option String := if s.isEmpty then none else some s

def mark (sofar : Bool) : Option Bool := if sofar then none else some true

/-- **Notes an option with its value.**  An option without values has the empty one. -/
def put (g : Given) (value : String) : Flag → Option Given
  | .verbose => do return { g with verbose := ← mark g.verbose }
  | .config => do return { g with config := ← once g.config (fileName? value) }
  | .source => some { g with sources := g.sources ++ [value] }
  | .seed => do return { g with seed := ← once g.seed (seed? value) }
  | .json => do return { g with json := ← mark g.json }
  | .dryRun => do return { g with dryRun := ← mark g.dryRun }

/-- Notes a plain word behind a command: the document of the commands that have one. -/
def putPlain (place : Place) (g : Given) (s : String) : Option Given :=
  if place = .reconcile || place = .check then do return { g with document := ← once g.document (fileName? s) }
  else none

end Given
end Reconciliation.CommandLine
