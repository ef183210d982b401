import Reconciliation.CommandLine.Invocation
import Reconciliation.Config
/-!
# Running a command line

A command line is run on files that are looked up by name, and gives what is printed.  The configuration is read first,
whatever the command is.  A seed on the command line wins over the one of the configuration.
-/
namespace Reconciliation.CommandLine

/-- **What a run leaves behind**: its exit code, and what it printed. -/
structure Finished where
  code : UInt32
  stdout : String
  stderr : String
deriving DecidableEq, Inhabited

abbrev Files := String → Option String

def usage : String :=
  "Usage: reconcile <DOCUMENT> --source <SOURCE>... [--seed <N>] [--json] [--dry-run]\n" ++
  "       check <DOCUMENT>\n" ++
  "       version\n" ++
  "Options of all commands: --config <FILE>, --verbose\n"

def Invocation.readConfig (i : Invocation) (files : Files) : Except Failure Config :=
  match i.config with
  | none => .ok .default
  | some name =>
    match files name with
    | none => .error (.noConfig name)
    | some text =>
      match Config.parse text with
      | none => .error (.badConfig name)
      | some config => .ok config

def readDocument (files : Files) (name : String) : Except Failure String :=
  match files name with
  | none => .error (.unreadable name)
  | some text => .ok text

/-- The options of a pass: a seed that is given wins over the configured ones. -/
def seeded (seed : Option UInt64) (configured : Options) : Options :=
  match seed with
  | some seed => ⟨some seed⟩
  | none => configured

/-- **What an invocation prints**, when it does not fail. -/
def Invocation.run (i : Invocation) (files : Files) : Except Failure String := do
  let config ← i.readConfig files
  match i.order with
  | .version => return "Grove v0.1.0\n"
  | .check document => Command.check document (← readDocument files document)
  | .reconcile document sources seed json dryRun =>
    Command.reconcile document (← readDocument files document) ⟨sources, seeded seed config.options, json, dryRun⟩

def Invocation.fileNames (i : Invocation) : List String :=
  i.config.toList ++ match i.order with
    | .version => []
    | .check document => [document]
    | .reconcile document .. => [document]

def Invocation.finish (i : Invocation) (files : Files) : Finished :=
  match i.run files with
  | .ok stdout => ⟨0, stdout, ""⟩
  | .error f => ⟨1, "", s!"Error: {f.context}\n\nCaused by:\n    {f.cause}\n"⟩

/-- **Runs a command line.** -/
def run (words : List String) (files : Files) : Finished :=
  match Invocation.parse words with
  | none => ⟨2, "", usage⟩
  | some i => i.finish files

end Reconciliation.CommandLine
