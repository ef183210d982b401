import Reconciliation.Apply
import Reconciliation.ChangeSet
import Reconciliation.Command.Basic
import Reconciliation.Command.Failure
import Reconciliation.Command.Listing
import Reconciliation.CommandLine.Flag
import Reconciliation.CommandLine.Invocation
import Reconciliation.CommandLine.Run
import Reconciliation.CommandLine.Word
import Reconciliation.Config
import Reconciliation.Document.Basic
import Reconciliation.Document.Build
import Reconciliation.Document.Error
import Reconciliation.Document.Reader
import Reconciliation.Encoding.ChangeSet
import Reconciliation.Encoding.Entity
import Reconciliation.Encoding.Plan
import Reconciliation.Encoding.Schema
import Reconciliation.Entity.Connection
import Reconciliation.Entity.Identity
import Reconciliation.Entity.Record
import Reconciliation.Entity.Value
import Reconciliation.Json.Basic
import Reconciliation.Json.Double
import Reconciliation.Json.Printer
import Reconciliation.Json.Reader
import Reconciliation.Json.Shape
import Reconciliation.Main
import Reconciliation.Plan.Basic
import Reconciliation.Plan.Error
import Reconciliation.Plan.Matching
import Reconciliation.Plan.Pairing
import Reconciliation.Plan.Placement
import Reconciliation.Plan.Planner
import Reconciliation.Plan.Progress
import Reconciliation.Plan.Renames
import Reconciliation.Plan.Roots
import Reconciliation.Power
import Reconciliation.Reconcile
import Reconciliation.Schema
import Reconciliation.Shuffle
import Reconciliation.SortedMap
import Reconciliation.Sorting
import Reconciliation.Store.Edit
import Reconciliation.Store.Error
import Reconciliation.Store.Graph
import Reconciliation.Store.KeyTable
import Reconciliation.Toml.Basic
import Reconciliation.Toml.Document
import Reconciliation.Toml.Number
import Reconciliation.Toml.Reader
import Reconciliation.Toml.Tables
import Reconciliation.Track
import Reconciliation.Proofs.Bindings
import Reconciliation.Proofs.Consistent
import Reconciliation.Proofs.Runs
import Reconciliation.Proofs.Ancestors
import Reconciliation.Proofs.Content
import Reconciliation.Proofs.Steps
import Reconciliation.Proofs.Sound
import Reconciliation.Proofs.Decisions
import Reconciliation.Proofs.Outcomes
import Reconciliation.Proofs.Calls
import Reconciliation.Proofs.Blame
import Reconciliation.Proofs.Visits
import Reconciliation.Proofs.Passes
import Reconciliation.Proofs.Matrix
import Reconciliation.Proofs.Checking
import Reconciliation.Proofs.Fuel
import Reconciliation.Proofs.Upwards
import Reconciliation.Proofs.Circles
import Reconciliation.Proofs.Overtaking
import Reconciliation.Proofs.Edits
import Reconciliation.Proofs.Walks
import Reconciliation.Proofs.Carrying
import Reconciliation.Proofs.Carried
import Reconciliation.Proofs.Survival
import Reconciliation.Proofs.Leads
import Reconciliation.Proofs.Reasons
import Reconciliation.Proofs.Proceeding
import Reconciliation.Proofs.Placing
import Reconciliation.Proofs.Guidance
import Reconciliation.Proofs.Whereabouts
import Reconciliation.Proofs.Acts
import Reconciliation.Proofs.Coverage
import Reconciliation.Proofs.Faithful
import Reconciliation.Proofs.Records
import Reconciliation.Proofs.Keys
import Reconciliation.Proofs.Registry
import Reconciliation.Proofs.Admission
import Reconciliation.Proofs.Upkeep
import Reconciliation.Proofs.Links
import Reconciliation.Proofs.Completed
import Reconciliation.Proofs.Timely
import Reconciliation.Proofs.Parents
import Reconciliation.Proofs.Matching
import Reconciliation.Proofs.Conforming
import Reconciliation.Proofs.Conformity
import Reconciliation.Proofs.Certainty
import Reconciliation.Proofs.Unchanged
import Reconciliation.Proofs.Rest
import Reconciliation.Proofs.Fulfilled
import Reconciliation.Proofs.Lasting
import Reconciliation.Proofs.Pairings
import Reconciliation.Proofs.Descriptions
import Reconciliation.Proofs.Again
import Reconciliation.Proofs.Underway
import Reconciliation.Proofs.Assignment
import Reconciliation.Proofs.Setbacks
import Reconciliation.Proofs.Halting
import Reconciliation.Proofs.Missing
import Reconciliation.Proofs.Conflicts
import Reconciliation.Proofs.Nesting
import Reconciliation.Proofs.Promises
import Reconciliation.Proofs.References
import Reconciliation.Proofs.Stepwise
import Reconciliation.Proofs.Sessions
import Reconciliation.Proofs.Unchecked
import Reconciliation.Proofs.Drift
import Reconciliation.Proofs.Kinds
import Reconciliation.Proofs.Patches
import Reconciliation.Proofs.Completeness
import Reconciliation.Proofs.WellTyped
import Reconciliation.Proofs.Externals
import Reconciliation.Proofs.Renamings
import Reconciliation.Proofs.Bystanders
import Reconciliation.Proofs.Accord
import Reconciliation.Proofs.Cascades
import Reconciliation.Proofs.Redirections
import Reconciliation.Proofs.Moves
import Reconciliation.Proofs.Attachments
import Reconciliation.Proofs.Partners
import Reconciliation.Proofs.Tally
import Reconciliation.Proofs.Rounds
import Reconciliation.Proofs.Balance
import Reconciliation.Proofs.Arena
import Reconciliation.Proofs.Unfolding
import Reconciliation.Proofs.Encodings
import Reconciliation.Proofs.KeyTexts
import Reconciliation.Proofs.Precedence
import Reconciliation.Proofs.Declaring
import Reconciliation.Proofs.Loading
import Reconciliation.Proofs.Declarations
import Reconciliation.Proofs.Searches
import Reconciliation.Proofs.Histories
