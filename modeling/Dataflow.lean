import Dataflow.Fault
import Dataflow.Fact.Word
import Dataflow.Fact.Basic
import Dataflow.Fact.Cursor
import Dataflow.Fact.Lemmas
import Dataflow.Assignment
import Dataflow.Store
import Dataflow.Domain
import Dataflow.Domain.Builder
import Dataflow.Handle
import Dataflow.FlowGraph.Basic
import Dataflow.FlowGraph.Table
import Dataflow.FlowGraph.Defect
import Dataflow.Direction
import Dataflow.Client
import Dataflow.Liveness
import Dataflow.Reaching
import Dataflow.Script
import Dataflow.Solver.Event
import Dataflow.Solver.Traced
import Dataflow.Solver.Session
import Dataflow.Solver.Sweep
import Dataflow.Solver.Results
import Dataflow.Solver.Basic
import Dataflow.Ssa.Opcode
import Dataflow.Ssa.Draft
import Dataflow.Ssa.Function
import Dataflow.Ssa.Printer
import Dataflow.Ssa.Flow
import Dataflow.Proofs.Fact.Order
import Dataflow.Proofs.Fact.Refinement
import Dataflow.Proofs.System.Basic
import Dataflow.Proofs.FlowGraph.Program
import Dataflow.Proofs.System.Climb
import Dataflow.Proofs.Solver.Run
import Dataflow.Proofs.Solver.Start
import Dataflow.Proofs.Solver.Loop
import Dataflow.Proofs.Solver.Convergence
import Dataflow.Proofs.FlowGraph.Control
import Dataflow.Proofs.Reaching.Exact
import Dataflow.Proofs.Liveness.Operators
import Dataflow.Proofs.Liveness.Exact
import Dataflow.Proofs.Ssa.Draft
import Dataflow.Proofs.Ssa.Function
import Dataflow.Proofs.Solver.Extremal
import Dataflow.Proofs.Ssa.Invariant
import Dataflow.Proofs.Solver.Equations
import Dataflow.Proofs.Solver.Totality
import Dataflow.Proofs.Ssa.Accepted
import Dataflow.Proofs.Ssa.Definitions
import Dataflow.Proofs.Solver.Stable
import Dataflow.Proofs.Solver.Stepwise
import Dataflow.Proofs.Duality.Recipe
import Dataflow.Proofs.Duality.Mirror
import Dataflow.Proofs.Duality.Directions
import Dataflow.Proofs.Solver.Lifecycle
import Dataflow.Proofs.Solver.Verification
import Dataflow.Proofs.Ssa.Finishing
import Dataflow.Proofs.FlowGraph.Defects
import Dataflow.Ssa.Building
import Dataflow.Proofs.Ssa.Refusal
import Dataflow.Proofs.Exchange
import Dataflow.Proofs.Ssa.Ascending
import Dataflow.Proofs.System.Seed
import Dataflow.Proofs.Solver.Seeded
import Dataflow.Proofs.Domain.Numbering
import Dataflow.Proofs.Solver.Handout
import Dataflow.Proofs.Solver.Listing
import Dataflow.Proofs.Solver.Alike
import Dataflow.Proofs.Solver.Relisting
import Dataflow.Proofs.Fact.Enumeration
