import Reconciliation.CommandLine.Run
/-!
# The program

Reads the files that the command line names, runs it, and prints what it leaves behind.
-/
open Reconciliation.CommandLine

namespace Reconciliation

def readFile? (name : String) : IO (Option String) := do
  try return some (← IO.FS.readFile name) catch _ => return none

def readFiles (names : List String) : IO Files := do
  let texts ← names.mapM fun name => do return (name, ← readFile? name)
  return fun name => (texts.lookup name).join

end Reconciliation

def main (words : List String) : IO UInt32 := do
  let names := match Invocation.parse words with
    | none => []
    | some i => i.fileNames
  let finished := run words (← Reconciliation.readFiles names)
  IO.print finished.stdout
  IO.eprint finished.stderr
  return finished.code
