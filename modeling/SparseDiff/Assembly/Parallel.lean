import SparseDiff.Assembly.Hessian

/-!
# Independent batches

The batches of a plan share no state, so each can run in a memory of its own. Every batch
writes its entries into zeros, and since no entry is written by two batches, the sum of
all parts is the matrix. The failure of the first batch that fails is reported.
-/

namespace SparseDiff

/-- Sum of parts of equal length, starting from zeros. -/
def sumParts {F : Type} [Zero F] [Add F] (n : Nat) (parts : List (Array F)) : Array F :=
  parts.foldl (fun sum part => sum.zipWith (· + ·) part) (Array.replicate n 0)

namespace Tape

variable {F : Type} [Zero F] [One F] [Add F] [Mul F] [Calculus F]

/-- One batch of forward directions in a memory of its own. -/
def forwardPart (f : Tape F) (tape : List (Segment F)) (inputs : List (List F))
    (plan : JacobianPlan) (b : Batch) : Except Failure (Array F) := do
  let dirs := b.select (directions JacobianPlan.nfwd [plan])
  let found ← (f.forwardDirections tape inputs dirs).alone (f.memory dirs.length 0)
  return overlay plan.pattern (found.fromColumns 0 plan.partition) (zeroValues plan.pattern)

/-- One batch of adjoint directions in a memory of its own, after a value sweep there. -/
def adjointPart (f : Tape F) (op : String) (tape : List (Segment F)) (inputs : List (List F))
    (plan : JacobianPlan) (b : Batch) : Except Failure (Array F) := do
  let dirs := b.select (directions JacobianPlan.nadj [plan])
  let sweep : Run F (Compressed F) := do
    f.loadValues op tape inputs
    f.adjointDirections tape dirs
  let found ← sweep.alone (f.memory 0 dirs.length)
  return overlay plan.pattern (found.fromRows 0 plan.partition) (zeroValues plan.pattern)

/-- Sparse Jacobian by independent batches, forward batches first. -/
def jacobianByParts (f : Tape F) (inputs : List (List F)) (plan : JacobianPlan) :
    Except Failure (SparseMatrix F) := do
  let op := "jacobian_par"
  orReject (f.checkJacobianPlan op plan)
  orReject (f.checkInputValues op inputs)
  let size := f.config.maxDirections
  let shared ← f.segments (f.layout 0)
  let full ← f.segments f.full
  let fwd ← (batches plan.nfwd size).mapM (f.forwardPart shared inputs plan)
  let adj ← (batches plan.nadj size).mapM (f.adjointPart op full inputs plan)
  return ⟨plan.pattern, sumParts plan.pattern.nnz (fwd ++ adj)⟩

/-- One batch of Hessian directions in a memory of its own. -/
def hessianPart (f : Tape F) (tape : List (Segment F)) (inputs : List (List F))
    (plan : HessianPlan) (b : Batch) : Except Failure (Array F) :=
  (f.hessianBatch tape inputs plan b (zeroValues plan.pattern)).alone
    (f.memory b.members.length 1)

/-- Sparse Hessian by independent batches. -/
def hessianByParts (f : Tape F) (inputs : List (List F)) (plan : HessianPlan) :
    Except Failure (SparseMatrix F) := do
  let op := "hessian_par"
  orReject (f.checkHessianPlan op plan)
  orReject (f.checkInputValues op inputs)
  let tape ← f.segments f.full
  let parts ← (batches plan.coloring.ncolors f.config.maxDirections).mapM
    (f.hessianPart tape inputs plan)
  return ⟨plan.pattern, sumParts plan.pattern.nnz parts⟩

end Tape

end SparseDiff
