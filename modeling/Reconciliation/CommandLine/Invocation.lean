import Reconciliation.Command.Basic
import Reconciliation.CommandLine.Flag
/-!
# Reading a command line

A command line is a command, with options in front of it and behind it and a document among those behind.  A value
stands in the next word or is attached to its option: behind an equals sign, or right behind the letter.  A value in a
word of its own must not look like an option.

What is given behind the command wins over what is given in front of it.
-/
namespace Reconciliation.CommandLine

inductive Order
  | reconcile (document : String) (sources : List String) (seed : Option UInt64) (json dryRun : Bool)
  | check (document : String)
  | version
deriving DecidableEq, Inhabited

/-- **A command line that is understood.** -/
structure Invocation where
  /-- The file with the configuration. -/
  config : Option String
  /-- Whether more is logged. -/
  verbose : Bool
  order : Order
deriving DecidableEq, Inhabited

/-- Reads the letters of a word.  An option that still lacks its value is given back. -/
def readLetters (place : Place) : Given → List Char → Option (Given × Option Flag)
  | g, [] => some (g, none)
  | g, letter :: rest =>
    match Flag.lettered? place letter with
    | none => none
    | some flag =>
      if !flag.takesValue then
        match g.put "" flag with
        | none => none
        | some g => readLetters place g rest
      else
        match rest with
        | [] => some (g, some flag)
        | '=' :: value => (g.put (String.ofList value) flag).map (·, none)
        | value => (g.put (String.ofList value) flag).map (·, none)

/-- Reads an option by its name.  It is given back if it still lacks its value. -/
def readNamed (place : Place) (g : Given) (name : List Char) (value : Option String) :
    Option (Given × Option Flag) :=
  match Flag.named? place name, value with
  | none, _ => none
  | some flag, none => if flag.takesValue then some (g, some flag) else (g.put "" flag).map (·, none)
  | some flag, some value => if flag.takesValue then (g.put value flag).map (·, none) else none

def readPlain (place : Place) : Given → List String → Option Given
  | g, [] => some g
  | g, s :: rest =>
    match g.putPlain place s with
    | none => none
    | some g => readPlain place g rest

/-- **Reads the words at a place.**  `lacking` is the option whose value comes next.  In front of the command, the first
plain word ends reading, and what is left begins with it. -/
def readWords (place : Place) : Given → Option Flag → List String → Option (Given × List String)
  | g, none, [] => some (g, [])
  | _, some _, [] => none
  | g, some flag, s :: rest =>
    match Word.of s with
    | .plain value =>
      match g.put value flag with
      | none => none
      | some g => readWords place g none rest
    | _ => none
  | g, none, s :: rest =>
    match Word.of s with
    | .separator => (readPlain place g rest).map (·, [])
    | .named name value =>
      match readNamed place g name value with
      | none => none
      | some (g, lacking) => readWords place g lacking rest
    | .lettered letters =>
      match readLetters place g letters with
      | none => none
      | some (g, lacking) => readWords place g lacking rest
    | .plain s =>
      if place = .front then some (g, s :: rest)
      else
        match g.putPlain place s with
        | none => none
        | some g => readWords place g none rest

def placeNamed? (name : String) : Option Place :=
  [("reconcile", .reconcile), ("check", .check), ("version", .version)].lookup name

def orderOf (g : Given) : Place → Option Order
  | .front => none
  | .reconcile =>
    if g.sources.isEmpty then none
    else g.document.map fun document => .reconcile document g.sources g.seed g.json g.dryRun
  | .check => g.document.map .check
  | .version => some .version

/-- **Reads a command line.**  There is no result when it is not understood. -/
def Invocation.parse (words : List String) : Option Invocation := do
  let (front, left) ← readWords .front .nothing none words
  match left with
  | [] => none
  | name :: rest =>
    let place ← placeNamed? name
    let (behind, _) ← readWords place .nothing none rest
    return ⟨behind.config <|> front.config, front.verbose || behind.verbose, ← orderOf behind place⟩

end Reconciliation.CommandLine
