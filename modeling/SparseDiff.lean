import SparseDiff.Matrix
import SparseDiff.Graph.Build
import SparseDiff.Graph.Arena
import SparseDiff.Graph.Stored
import SparseDiff.Evaluate
import SparseDiff.Sweep.SecondOrder
import SparseDiff.Structure.Hessian
import SparseDiff.Assembly.Parallel
import SparseDiff.Assembly.Dense
import SparseDiff.Kinks
import SparseDiff.Source.Program
import SparseDiff.Source.Execution
import SparseDiff.Proofs.Assembly.Hessian
import SparseDiff.Proofs.Assembly.Jacobian
import SparseDiff.Proofs.Meaning
import SparseDiff.Proofs.DualNumbers
import SparseDiff.Proofs.Assembly.Symmetry
import SparseDiff.Proofs.Structure.Reachability
import SparseDiff.Proofs.Rational
import SparseDiff.Proofs.Structure.Confinement
import SparseDiff.Proofs.Coloring.Partition
import SparseDiff.Proofs.Requests
import SparseDiff.Proofs.Revalidation
import SparseDiff.Proofs.Checked.Layouts
import SparseDiff.Proofs.Assembly.Batching
import SparseDiff.Proofs.Checked.Results
import SparseDiff.Proofs.Alike
import SparseDiff.Proofs.Isolation.Results
import SparseDiff.Proofs.Bounds.Strict
import SparseDiff.Proofs.Bounds.Agreement
import SparseDiff.Proofs.Bounds.Calls
import SparseDiff.Proofs.Bounds.Requests
import SparseDiff.Proofs.Pattern.Movement
import SparseDiff.Proofs.Dense.Matrices
import SparseDiff.Proofs.Dense.Expressions
import SparseDiff.Proofs.Building
import SparseDiff.Proofs.Rechecking
import SparseDiff.Proofs.Coloring.Symmetric
import SparseDiff.Proofs.Exported.Programs
import SparseDiff.Proofs.Coloring.Readout
import SparseDiff.Proofs.Pattern.Algebra
import SparseDiff.Proofs.Pattern.Tracking
import SparseDiff.Proofs.Pattern.Construction
import SparseDiff.Proofs.Pattern.Indices
import SparseDiff.Proofs.Exported.Operators
import SparseDiff.Proofs.Kinks.Signature
import SparseDiff.Proofs.Liveness
import SparseDiff.Proofs.Coloring.Thresholds
import SparseDiff.Proofs.Coloring.Gapless
import SparseDiff.Proofs.Assembly.Dense
import SparseDiff.Proofs.Access
import SparseDiff.Proofs.Assembly.Coverage
