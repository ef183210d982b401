import Reconciliation.Command.Failure
import Reconciliation.Command.Listing
import Reconciliation.Document.Reader
import Reconciliation.Encoding.ChangeSet
import Reconciliation.Encoding.Plan
/-!
# Commands

`check` gives an overview of a document, `reconcile` carries out a pass between its two sides.  Both take the text of a
document under a name, and give the text to print.
-/
namespace Reconciliation.Command

/-- **The graphs of a document that is stored under a name.** -/
def load (name text : String) : Except Failure GraphPair := do
  let document ← (Document.parse text).mapError (.unparsable name)
  document.build.mapError (.invalid name)

/-- **Checks a document** and gives an overview of it. -/
def check (name text : String) : Except Failure String := do return (← load name text).overview

structure Settings where
  /-- The sources whose entities are replaced. -/
  sources : List Source
  options : Options
  /-- Whether to print JSON. -/
  json : Bool
  /-- Whether to stop before the plan is carried out. -/
  dryRun : Bool
deriving DecidableEq, Inhabited

namespace Settings

def accepts (s : Settings) (source : Source) : Bool := s.sources.contains source

end Settings

def planText (json : Bool) (schema : Schema) (p : Plan) : String :=
  if json then p.toJson.pretty ++ "\n" else p.list schema

/-- What a pass is printed as: its changes, the entities as they are now, and the report. -/
def resultText (json : Bool) (before after : Graph) (r : Report) : String :=
  let changes := ChangeSet.between before after
  if json then
    (Json.obj [("report", r.toJson), ("changes", changes.toJson), ("entities", after.toJson)]).sortKeys.pretty ++ "\n"
  else changes.render before.schema ++ "\n" ++ after.list ++ r.text ++ "\n"

def runPass (p : GraphPair) (s : Settings) : Except Failure String :=
  if s.dryRun then
    match (p.target.passFrom p.incoming s.accepts).plan s.options with
    | .error halt => .error (.noPlan halt)
    | .ok outcome => .ok (planText s.json p.schema outcome.plan)
  else
    match Graph.reconcile p.incoming s.accepts s.options p.target with
    | .error halt _ => .error (.noResult halt)
    | .ok report after => .ok (resultText s.json p.target after report)

/-- **Reconciles the target side of a document with its incoming side.** -/
def reconcile (name text : String) (s : Settings) : Except Failure String := do runPass (← load name text) s

end Reconciliation.Command
