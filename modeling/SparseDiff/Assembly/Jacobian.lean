import SparseDiff.Assembly.Plan
import SparseDiff.Evaluate

/-!
# Colored Jacobians

One sweep per color and a scatter into the pattern. A forward direction is seeded on the
columns of its color and yields sums of columns; an adjoint direction is seeded on the
rows of its color and yields sums of rows. Since no two entries of one sum meet in the
same place, every entry of the pattern can be read from a sum. Directions of several
blocks may share a sweep.
-/

namespace SparseDiff

/-- One color of the plan of a block, as a direction of a sweep. -/
structure Direction where
  /-- Position of the block among the blocks of the sweep. -/
  block : Nat
  plan : JacobianPlan
  color : Nat
  deriving Repr, Inhabited

/-- Every color of every plan, where `count` tells how many colors a plan has. -/
def directions (count : JacobianPlan → Nat) (plans : List JacobianPlan) : List Direction :=
  plans.zipIdx.flatMap fun (plan, block) =>
    (List.range (count plan)).map fun color => ⟨block, plan, color⟩

/-- The result of every direction of a sweep. -/
abbrev Compressed (F : Type) : Type := List (Direction × Array F)

namespace Compressed

variable {F : Type}

/-- Result of a color of a block, if the sweep holds it. -/
def sum? (found : Compressed F) (block color : Nat) : Option (Array F) :=
  (List.find? (fun item => item.1.block == block && item.1.color == color) found).map Prod.snd

/-- Entry `(r, c)` from a sum of columns; rows with an adjoint color have none. -/
def fromColumns (found : Compressed F) (block : Nat) (parts : Partition) (r c : Nat) :
    Option F :=
  if (parts.adjoint.colorOf r).isSome then
    none
  else do
    let color ← parts.forward.colorOf c
    let column ← found.sum? block color
    column[r]?

/-- Entry `(r, c)` from a sum of rows. -/
def fromRows (found : Compressed F) (block : Nat) (parts : Partition) (r c : Nat) :
    Option F := do
  let color ← parts.adjoint.colorOf r
  let row ← found.sum? block color
  row[c]?

end Compressed

/-- How an entry of a block is read from the result of a sweep. -/
abbrev Recovery (F : Type) : Type := Compressed F → Nat → Partition → Nat → Nat → Option F

/-- Write what a sweep has found into the values of all blocks. -/
def scatter {F : Type} (recover : Recovery F) (found : Compressed F)
    (plans : List JacobianPlan) (values : List (Array F)) : List (Array F) :=
  (plans.zip values).zipIdx.map fun ((plan, out), block) =>
    overlay plan.pattern (recover found block plan.partition) out

/-- One on the vertices of a color, zero elsewhere. -/
def indicator {F : Type} [Zero F] [One F] (c : Coloring) (color v : Nat) : F :=
  if c.colorOf v = some color then 1 else 0

namespace Tape

variable {F : Type} [Zero F] [One F] [Add F] [Mul F] [Calculus F]

/-- Name under which the sweeps of a Jacobian report values that are not finite. -/
def jacobianOp : String := "jacobian"

/--
One forward sweep with a direction for every item of `dirs`, each seeded on the input of
its plan. `tape` is in the layout of a sweep without adjoints.
-/
def forwardDirections (f : Tape F) (tape : List (Segment F)) (inputs : List (List F))
    (dirs : List Direction) : Run F (Compressed F) := do
  let l := f.layout 0
  f.loadInputs l inputs
  dirs.zipIdx.forM fun (dir, d) =>
    f.loadTangent l d fun i k =>
      if i = dir.plan.input then indicator dir.plan.partition.forward dir.color k else 0
  forwardSweep f.config.checkFinite jacobianOp dirs.length tape
  let m ← get
  dirs.zipIdx.mapM fun (dir, d) => do
    let column ← Run.ofExcept (f.readOutput l (m.fwd.getD d #[]) dir.plan.output)
    return (dir, column.toArray)

/--
One adjoint sweep with a direction for every item of `dirs`, each seeded on the output of
its plan. The values are in the memory and `tape` is in the full layout.
-/
def adjointDirections (f : Tape F) (tape : List (Segment F)) (dirs : List Direction) :
    Run F (Compressed F) := do
  dirs.zipIdx.forM fun (dir, d) => do
    clearAdjoint d
    f.seedAdjoint d dir.plan.output (indicator dir.plan.partition.adjoint dir.color)
  adjointSweep f.config.checkFinite jacobianOp dirs.length tape
  dirs.zipIdx.mapM fun (dir, d) => do
    let row ← f.takeInputAdjoint d dir.plan.input
    return (dir, row.toArray)

/-- Forward sweeps over all batches of `dirs`. -/
def forwardBatches (f : Tape F) (inputs : List (List F)) (plans : List JacobianPlan)
    (dirs : List Direction) (size : Nat) (values : List (Array F)) :
    Run F (List (Array F)) := do
  let tape ← Run.ofExcept (f.segments (f.layout 0))
  (batches dirs.length size).foldlM
    (fun values b => do
      let found ← f.forwardDirections tape inputs (b.select dirs)
      return scatter Compressed.fromColumns found plans values)
    values

/-- A value sweep, then adjoint sweeps over all batches of `dirs`. -/
def adjointBatches (f : Tape F) (op : String) (inputs : List (List F))
    (plans : List JacobianPlan) (dirs : List Direction) (size : Nat)
    (values : List (Array F)) : Run F (List (Array F)) := do
  let tape ← Run.ofExcept (f.segments f.full)
  f.loadValues op tape inputs
  (batches dirs.length size).foldlM
    (fun values b => do
      let found ← f.adjointDirections tape (b.select dirs)
      return scatter Compressed.fromRows found plans values)
    values

/-- The least memory for sweeps in so many forward and adjoint directions, one at a time. -/
def leastMemory (f : Tape F) (nfwd nadj : Nat) : MemorySizes :=
  f.requiredMemory (min nfwd 1) (min nadj 1)

/-- Everything that the assembly of blocks checks before it writes. -/
def checkJacobians (f : Tape F) (op : String) (sizes : MemorySizes) (inputs : List (List F))
    (plans : List JacobianPlan) : Except Error Unit := do
  plans.forM (f.checkJacobianPlan op)
  f.checkInputValues op inputs
  let nfwd := (directions JacobianPlan.nfwd plans).length
  let nadj := (directions JacobianPlan.nadj plans).length
  sizes.check op (f.leastMemory nfwd nadj)

/--
Values of the Jacobian blocks of all plans. The forward colors of all plans are packed
into common sweeps, then the adjoint colors; as many share a sweep as the configuration
and the memory allow.
-/
def jacobianValues (f : Tape F) (op : String) (inputs : List (List F))
    (plans : List JacobianPlan) : Run F (List (Array F)) := do
  let sizes := (← get).sizes
  Run.check (f.checkJacobians op sizes inputs plans)
  let fwd := directions JacobianPlan.nfwd plans
  let adj := directions JacobianPlan.nadj plans
  let zeros := plans.map fun plan => zeroValues plan.pattern
  let values ← f.forwardBatches inputs plans fwd (min f.config.maxDirections sizes.nfwd) zeros
  if adj.isEmpty then
    return values
  else
    f.adjointBatches op inputs plans adj (min f.config.maxDirections sizes.nadj) values

/-- Sparse Jacobian from a plan. -/
def jacobianWithPlan (f : Tape F) (inputs : List (List F)) (plan : JacobianPlan) :
    Run F (SparseMatrix F) := do
  let values ← f.jacobianValues jacobianOp inputs [plan]
  return ⟨plan.pattern, values.headD #[]⟩

/-- Sparse Jacobian of output `o` with respect to input `i`. -/
def jacobian (f : Tape F) (inputs : List (List F)) (o i : Nat) : Run F (SparseMatrix F) := do
  let plan ← Run.ofExcept (f.jacobianPlan o i)
  f.jacobianWithPlan inputs plan

/-- Sparse Jacobians from several plans, in the order of the plans. -/
def jacobianBlocksWithPlans (f : Tape F) (inputs : List (List F)) (plans : List JacobianPlan) :
    Run F (List (SparseMatrix F)) := do
  let values ← f.jacobianValues "jacobian_blocks" inputs plans
  return plans.zipWith (fun plan values => ⟨plan.pattern, values⟩) values

/-- Sparse Jacobians of several blocks, each an output and an input. -/
def jacobianBlocks (f : Tape F) (inputs : List (List F)) (blocks : List (Nat × Nat)) :
    Run F (List (SparseMatrix F)) := do
  let plans ← Run.ofExcept (blocks.mapM fun (o, i) => f.jacobianPlan o i)
  f.jacobianBlocksWithPlans inputs plans

end Tape

end SparseDiff
