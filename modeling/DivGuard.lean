import DivGuard.Heap.Snapshot
import DivGuard.Interpreter.Evaluate
import DivGuard.Interpreter.Memo
import DivGuard.Lowering.Pass
import DivGuard.Main
import DivGuard.Proofs.Graph.Dependence
import DivGuard.Proofs.Interpreter.Operands
import DivGuard.Proofs.Interpreter.NormalForm
import DivGuard.Proofs.Interpreter.Spills
import DivGuard.Proofs.Interpreter.Unfolding
import DivGuard.Proofs.Interpreter.Traps
import DivGuard.Proofs.Interpreter.Memoised
import DivGuard.Proofs.Interpreter.Locality
import DivGuard.Proofs.Lowering.Substitution
import DivGuard.Proofs.Lowering.Expansion
import DivGuard.Proofs.Lowering.Soundness
import DivGuard.Proofs.Lowering.Runs
import DivGuard.Proofs.Integer.Division
import DivGuard.Proofs.Integer.Extension
import DivGuard.Proofs.Integer.Residues
import DivGuard.Proofs.Integer.Shifts
import DivGuard.Proofs.Lowering.ClosedForm
import DivGuard.Proofs.Lowering.Idempotence
import DivGuard.Proofs.Lowering.Calls
import DivGuard.Proofs.Lowering.Guarding
import DivGuard.Proofs.Lowering.Meaning
import DivGuard.Proofs.Graph.Built
import DivGuard.Proofs.Lowering.ZeroCheck
import DivGuard.Proofs.Lowering.Order
import DivGuard.Proofs.Reference.RoundTrip
import DivGuard.Proofs.Reference.Granules
import DivGuard.Proofs.Reference.Ancestry
import DivGuard.Proofs.Stamp.Facts
import DivGuard.Proofs.Stamp.LeastMerge
import DivGuard.Proofs.Stamp.MergeOrder
import DivGuard.Proofs.Editing.Closedness
import DivGuard.Proofs.Editing.GuardedDivisions
import DivGuard.Proofs.Editing.Numbering
import DivGuard.Proofs.Interpreter.Faults
import DivGuard.Proofs.Lowering.WellFormed
import DivGuard.Proofs.Lowering.Machines
import DivGuard.Proofs.Graph.Population
import DivGuard.Proofs.Graph.Ledger
import DivGuard.Proofs.Session.Tallies
import DivGuard.Proofs.Lowering.Visits
import DivGuard.Proofs.Lowering.Accounting
import DivGuard.Proofs.Text.Decimal
import DivGuard.Proofs.Inspect.CommandLine
import DivGuard.Proofs.Integer.Reduction
import DivGuard.Proofs.Inspect.Findings
import DivGuard.Proofs.Interpreter.Defects
import DivGuard.Proofs.Editing.Replacement
import DivGuard.Proofs.Graph.Cycles
import DivGuard.Proofs.Lowering.Verdicts
import DivGuard.Proofs.Template.Copies
import DivGuard.Proofs.Stamp.Bracketing
import DivGuard.Proofs.Stamp.Constants
import DivGuard.Proofs.Stamp.Membership
import DivGuard.Proofs.Stamp.Acceptance
import DivGuard.Proofs.Heap.ElementOffsets
import DivGuard.Proofs.Session.Reports
import DivGuard.Proofs.Template.Entries
import DivGuard.Proofs.Lowering.CacheHistory
import DivGuard.Proofs.Stamp.Layouts
import DivGuard.Proofs.Template.Placement
import DivGuard.Proofs.Lowering.Walk
import DivGuard.Proofs.Inspect.Unit
import DivGuard.Proofs.Inspect.Listings
