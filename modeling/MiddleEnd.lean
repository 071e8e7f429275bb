import MiddleEnd.Compilation
import MiddleEnd.Json.Code
import MiddleEnd.Json.Settings
import MiddleEnd.Json.Symbol
import MiddleEnd.Options.Folder
import MiddleEnd.Tree.Shorthand
import MiddleEnd.Proofs.Analysis.Events
import MiddleEnd.Proofs.Analysis.History
import MiddleEnd.Proofs.Analysis.Tracking
import MiddleEnd.Proofs.Analysis.Diagnostics
import MiddleEnd.Proofs.Execution.Machine
import MiddleEnd.Proofs.Execution.Simulation
import MiddleEnd.Proofs.Code.Labels
import MiddleEnd.Proofs.Optimizer.Selection
import MiddleEnd.Proofs.Optimizer.Reachability
import MiddleEnd.Proofs.Optimizer.Preservation
import MiddleEnd.Proofs.Execution.Interpreter
import MiddleEnd.Proofs.Lowering.Following
import MiddleEnd.Proofs.Lowering.Meaning
import MiddleEnd.Proofs.Symbols.Runs
import MiddleEnd.Proofs.Symbols.Searches
import MiddleEnd.Proofs.Code.WellFormed
import MiddleEnd.Proofs.Optimizer.WellFormed
import MiddleEnd.Proofs.Compilation.Acceptance
import MiddleEnd.Proofs.Compilation.WellFormed
import MiddleEnd.Proofs.Code.Flow
import MiddleEnd.Proofs.Lowering.Returns
import MiddleEnd.Proofs.Compilation.Survival
import MiddleEnd.Proofs.Compilation.Visibility
import MiddleEnd.Proofs.Lowering.Resolution
import MiddleEnd.Proofs.Optimizer.Settled
import MiddleEnd.Proofs.Tree.Desugaring
import MiddleEnd.Proofs.Json.Lossless
import MiddleEnd.Proofs.Optimizer.Propagation
import MiddleEnd.Proofs.Optimizer.DeadCode
import MiddleEnd.Proofs.Lowering.Renumbering
import MiddleEnd.Proofs.Lowering.Sites
import MiddleEnd.Proofs.Lowering.Structure
import MiddleEnd.Proofs.Optimizer.StraightLine
import MiddleEnd.Proofs.Symbols.Insertion
import MiddleEnd.Proofs.Code.Listing
import MiddleEnd.Proofs.Code.Unambiguous
import MiddleEnd.Proofs.Optimizer.Arithmetic
import MiddleEnd.Proofs.Optimizer.Termination
import MiddleEnd.Proofs.Symbols.Log
import MiddleEnd.Proofs.Symbols.Refinement
