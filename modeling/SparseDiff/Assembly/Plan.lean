import SparseDiff.Coloring.Greedy
import SparseDiff.Coloring.Verify
import SparseDiff.Matrix
import SparseDiff.Structure.Hessian

/-!
# Plans

A plan holds what does not depend on input values: the pattern of one derivative block
and the colors that its sweeps are grouped by. Colors that share a sweep form a batch.
-/

namespace SparseDiff

/-- Pattern and colors of the Jacobian of one output with respect to one input. -/
structure JacobianPlan where
  output : Nat
  input : Nat
  /-- Output nonzeros by input nonzeros. -/
  pattern : Pattern
  partition : Partition
  deriving DecidableEq, Repr, Inhabited

/-- Pattern and colors of the Hessian of one scalar output with respect to one input. -/
structure HessianPlan where
  output : Nat
  input : Nat
  /-- Symmetric, input nonzeros by input nonzeros. -/
  pattern : Pattern
  coloring : Coloring
  deriving DecidableEq, Repr, Inhabited

namespace JacobianPlan

/-- Number of forward colors. -/
def nfwd (plan : JacobianPlan) : Nat := plan.partition.forward.ncolors

/-- Number of adjoint colors. -/
def nadj (plan : JacobianPlan) : Nat := plan.partition.adjoint.ncolors

/-- Directional sweeps of one evaluation. -/
def nsweeps (plan : JacobianPlan) : Nat := plan.partition.nsweeps

end JacobianPlan

/-- Sweeps of one evaluation. -/
def HessianPlan.nsweeps (plan : HessianPlan) : Nat := plan.coloring.ncolors

/-- The numbers from `start` up to `stop`, without `stop`. -/
structure Batch where
  start : Nat
  stop : Nat
  deriving DecidableEq, Repr, Inhabited

/-- Members of a batch. -/
def Batch.members (b : Batch) : List Nat := List.range' b.start (b.stop - b.start)

/--
Cut `0, …, n - 1` into batches of `size`. The starts advance by at least one, so batches
of size zero are empty, one for every number.
-/
def batches (n size : Nat) : List Batch :=
  let step := max size 1
  (List.range ((n + step - 1) / step)).map fun b => ⟨b * step, min (b * step + size) n⟩

/-- The items of a list at the positions of a batch. -/
def Batch.select {α : Type} (b : Batch) (items : List α) : List α :=
  (items.drop b.start).take (b.stop - b.start)

/-- Values on the entries of a pattern: the picked ones, and the old ones elsewhere. -/
def overlay {F : Type} (p : Pattern) (pick : Nat → Nat → Option F) (values : Array F) :
    Array F :=
  p.entries.zipIdx.foldl
    (fun values ((r, c), k) =>
      match pick r c with
      | some v => values.setIfInBounds k v
      | none => values)
    values

/-- A zero for every nonzero of a pattern. -/
def zeroValues {F : Type} [Zero F] (p : Pattern) : Array F := Array.replicate p.nnz 0

namespace Tape

variable {F : Type}

/-- Pattern and verified partition of the Jacobian block of output `o` and input `i`. -/
def jacobianPlan (f : Tape F) (o i : Nat) : Except Failure JacobianPlan := do
  let pattern ← f.jacobianPattern o i
  return ⟨o, i, pattern, ← Partition.ofPattern pattern f.config.mode⟩

/-- Pattern and verified coloring of the Hessian of output `o` with respect to input `i`. -/
def hessianPlan (f : Tape F) (o i : Nat) : Except Failure HessianPlan := do
  let pattern ← f.hessianPattern o i
  let coloring ← symmetricColoring pattern
  verifySymmetric pattern coloring
  return ⟨o, i, pattern, coloring⟩

/-- A plan must have the shape of the block that it names; rows are checked first. -/
def checkPlanShape (op : String) (expected got : Nat × Nat) : Except Error Unit :=
  if expected.1 ≠ got.1 then
    .error (.mismatch op .planRows expected.1 got.1)
  else if expected.2 ≠ got.2 then
    .error (.mismatch op .planColumns expected.2 got.2)
  else
    .ok ()

/-- The plan fits this tape, whatever tape it was made for. -/
def checkJacobianPlan (f : Tape F) (op : String) (plan : JacobianPlan) : Except Error Unit := do
  let (out, inp) ← f.checkBlock op plan.output plan.input
  checkPlanShape op (out.nnz, inp.nnz) plan.pattern.shape

/-- The plan fits this tape, and its output is a dense scalar. -/
def checkHessianPlan (f : Tape F) (op : String) (plan : HessianPlan) : Except Error Unit := do
  let (out, inp) ← f.checkBlock op plan.output plan.input
  checkScalarOutput op plan.output out
  checkPlanShape op (inp.nnz, inp.nnz) plan.pattern.shape

end Tape

end SparseDiff
