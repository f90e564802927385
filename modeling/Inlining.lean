import Inlining.Arguments
import Inlining.Assumption
import Inlining.Binary.Basic
import Inlining.CallSite
import Inlining.CallStack
import Inlining.CallTarget
import Inlining.Configuration
import Inlining.Constant
import Inlining.Decimal.Numeral
import Inlining.Decimal.Shortest
import Inlining.Environment
import Inlining.Exploration
import Inlining.FailureReason
import Inlining.Fault
import Inlining.Guard
import Inlining.Handle
import Inlining.Journal
import Inlining.Json.Basic
import Inlining.Json.Decode
import Inlining.Json.Printer
import Inlining.Json.Reader
import Inlining.Main
import Inlining.Position
import Inlining.Profile
import Inlining.Program.Basic
import Inlining.Program.Description
import Inlining.Program.Hierarchy
import Inlining.Proofs.Abandonment
import Inlining.Proofs.Acceptance
import Inlining.Proofs.Accounts
import Inlining.Proofs.Aging
import Inlining.Proofs.Ancestry
import Inlining.Proofs.Bindings
import Inlining.Proofs.Bodies
import Inlining.Proofs.Bookkeeping
import Inlining.Proofs.Budget
import Inlining.Proofs.Calls
import Inlining.Proofs.Charges
import Inlining.Proofs.Constants
import Inlining.Proofs.ControlFlow
import Inlining.Proofs.Cuts
import Inlining.Proofs.Decisions
import Inlining.Proofs.Descent
import Inlining.Proofs.Devirtualization
import Inlining.Proofs.Display
import Inlining.Proofs.Dominance
import Inlining.Proofs.Editing
import Inlining.Proofs.Effects
import Inlining.Proofs.Enclosure
import Inlining.Proofs.Ensures
import Inlining.Proofs.Errors
import Inlining.Proofs.Exhaustion
import Inlining.Proofs.Explanations
import Inlining.Proofs.Fates
import Inlining.Proofs.Faults
import Inlining.Proofs.Folds
import Inlining.Proofs.Forest
import Inlining.Proofs.Fractions
import Inlining.Proofs.Frames
import Inlining.Proofs.Growth
import Inlining.Proofs.Grids
import Inlining.Proofs.Guarding
import Inlining.Proofs.Hierarchy
import Inlining.Proofs.Independence
import Inlining.Proofs.JsonText
import Inlining.Proofs.Ledger
import Inlining.Proofs.Lookup
import Inlining.Proofs.Marks
import Inlining.Proofs.Nesting
import Inlining.Proofs.Numbering
import Inlining.Proofs.Numerals
import Inlining.Proofs.Observation
import Inlining.Proofs.Overriding
import Inlining.Proofs.Ownership
import Inlining.Proofs.Progress
import Inlining.Proofs.Provenance
import Inlining.Proofs.Pruning
import Inlining.Proofs.Reasons
import Inlining.Proofs.Recording
import Inlining.Proofs.Recursion
import Inlining.Proofs.Removal
import Inlining.Proofs.Repetition
import Inlining.Proofs.Replays
import Inlining.Proofs.Requests
import Inlining.Proofs.Revisits
import Inlining.Proofs.Rounding
import Inlining.Proofs.Scaling
import Inlining.Proofs.Session
import Inlining.Proofs.Shortest
import Inlining.Proofs.Sizes
import Inlining.Proofs.Soundness
import Inlining.Proofs.Stock
import Inlining.Proofs.Superclasses
import Inlining.Proofs.Surroundings
import Inlining.Proofs.Survival
import Inlining.Proofs.Tallies
import Inlining.Proofs.Temporaries
import Inlining.Proofs.Traversal
import Inlining.Proofs.Turns
import Inlining.Proofs.Undisturbed
import Inlining.Proofs.Validation
import Inlining.Region.Arena
import Inlining.Region.Basic
import Inlining.Report.Basic
import Inlining.Report.Json
import Inlining.Report.Text
import Inlining.RequiredConstant
import Inlining.Resolution
import Inlining.Runner
import Inlining.Saturating
import Inlining.SiteScope
