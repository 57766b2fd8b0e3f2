import SparseDiff.Assembly.Jacobian
import SparseDiff.Sweep.SecondOrder

/-!
# Colored Hessians

One forward-over-adjoint sweep per color of the columns. The tangent of a direction is
one on the columns of its color, and the adjoint tangents of the input are then the sum
of these columns of the Hessian. No two columns of one color meet in a row, so every
entry of the pattern can be read from a sum.
-/

namespace SparseDiff

namespace Tape

variable {F : Type} [Zero F] [One F] [Add F] [Mul F] [Calculus F]

/-- Name under which the sweeps of a Hessian report values that are not finite. -/
def hessianOp : String := "hessian"

/--
Products of the Hessian of output `o` with the given input tangents, read at input `i`.
One sweep computes all of them; `tape` is in the full layout.
-/
def hessianProducts (f : Tape F) (tape : List (Segment F)) (inputs : List (List F))
    (o i : Nat) (tangents : List (Nat → Nat → F)) : Run F (List (List F)) := do
  let nfwd := tangents.length
  f.loadInputs f.full inputs
  tangents.zipIdx.forM fun (tangent, d) => do
    f.loadTangent f.full d tangent
    clearAdjointTangent d
  forwardSweep f.config.checkFinite hessianOp nfwd tape
  clearAdjoint 0
  f.seedAdjoint 0 o fun _ => 1
  secondOrderSweep f.config.checkFinite hessianOp nfwd tape
  (List.range nfwd).mapM fun d => f.takeInputAdjointTangent d i

/-- Input tangents of a color: one on the nonzeros of input `i` that have it. -/
def colorTangent (i : Nat) (c : Coloring) (color : Nat) (j k : Nat) : F :=
  if j = i then indicator c color k else 0

/-- Entry `(r, c)` of a Hessian, if its column has a color of the batch. -/
def fromProducts (products : Array (Array F)) (b : Batch) (c : Coloring) (row col : Nat) :
    Option F := do
  let color ← c.colorOf col
  if b.start ≤ color ∧ color < b.stop then
    (products.getD (color - b.start) #[])[row]?
  else
    none

/-- One sweep over the colors of a batch, scattered into the values. -/
def hessianBatch (f : Tape F) (tape : List (Segment F)) (inputs : List (List F))
    (plan : HessianPlan) (b : Batch) (values : Array F) : Run F (Array F) := do
  let tangents := b.members.map (colorTangent plan.input plan.coloring)
  let products ← f.hessianProducts tape inputs plan.output plan.input tangents
  let products := (products.map List.toArray).toArray
  return overlay plan.pattern (fromProducts products b plan.coloring) values

/-- The least memory for a Hessian: one adjoint, and a tangent if there is a color. -/
def leastHessianMemory (f : Tape F) (plan : HessianPlan) : MemorySizes :=
  ⟨f.full.size, min plan.coloring.ncolors 1, 1⟩

/-- Everything that the assembly of a Hessian checks before it writes. -/
def checkHessian (f : Tape F) (op : String) (sizes : MemorySizes) (inputs : List (List F))
    (plan : HessianPlan) : Except Error Unit := do
  f.checkHessianPlan op plan
  f.checkInputValues op inputs
  sizes.check op (f.leastHessianMemory plan)

/-- Sparse Hessian from a plan. -/
def hessianWithPlan (f : Tape F) (inputs : List (List F)) (plan : HessianPlan) :
    Run F (SparseMatrix F) := do
  let sizes := (← get).sizes
  Run.check (f.checkHessian hessianOp sizes inputs plan)
  let tape ← Run.ofExcept (f.segments f.full)
  let size := min f.config.maxDirections sizes.nfwd
  let values ← (batches plan.coloring.ncolors size).foldlM
    (fun values b => f.hessianBatch tape inputs plan b values) (zeroValues plan.pattern)
  return ⟨plan.pattern, values⟩

/-- Sparse Hessian of scalar output `o` with respect to input `i`. -/
def hessian (f : Tape F) (inputs : List (List F)) (o i : Nat) : Run F (SparseMatrix F) := do
  let plan ← Run.ofExcept (f.hessianPlan o i)
  f.hessianWithPlan inputs plan

end Tape

end SparseDiff
