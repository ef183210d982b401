import Reconciliation.Document.Error
import Reconciliation.Json.Reader
import Reconciliation.Plan.Progress
/-!
# How a command fails

A command fails while it reads its configuration or its document, while it builds the graphs, or in the pass itself.
`Failure.context` says what was being done, and `Failure.cause` what was wrong.
-/
namespace Reconciliation

/-- **Why a command fails.** -/
inductive Failure
  /-- There is no configuration to read. -/
  | noConfig (name : String)
  /-- The text is no configuration. -/
  | badConfig (name : String)
  /-- There is no document to read. -/
  | unreadable (name : String)
  /-- The text is no document. -/
  | unparsable (name : String) (fault : Json.Fault)
  /-- The document describes no graphs. -/
  | invalid (name : String) (cause : DocumentError)
  /-- A dry run has no plan. -/
  | noPlan (halt : Halt)
  /-- The pass fails. -/
  | noResult (halt : Halt)
deriving DecidableEq, Inhabited

def Failure.context : Failure → String
  | .noConfig name => s!"reading config {name}"
  | .badConfig name => s!"parsing config {name}"
  | .unreadable name | .unparsable name _ => s!"loading {name}"
  | .invalid name _ => s!"building graphs from {name}"
  | .noPlan _ => "planning reconciliation"
  | .noResult _ => "reconciliation failed"

def Halt.message : Halt → String
  | .failed cause => cause.message
  | .outOfFuel => "planning did not come to an end"

def Failure.cause : Failure → String
  | .noConfig _ | .unreadable _ => "the file cannot be read"
  | .badConfig _ => "the text is no configuration"
  | .unparsable _ .malformed => "the text is not JSON"
  | .unparsable _ .cutShort => "the text ends too early"
  | .unparsable _ .misshapen => "the text does not have the shape of a document"
  | .invalid _ cause => cause.message
  | .noPlan halt | .noResult halt => halt.message

end Reconciliation
