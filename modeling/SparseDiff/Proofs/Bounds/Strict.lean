import SparseDiff.Assembly.Parallel
import SparseDiff.Proofs.Evaluate

/-!
# Calls with every access checked

A work array, a seed, a coloring or the result of a sweep is read in these calls where it is read
in the calls of the same names, and each read or write outside its array ends them with
`Failure.outOfBounds`: the arrays of a direction, the slots of a slice even if it is empty, the
condition of a select even if nothing is selected, the colors of the vertices that are seeded and
scattered, and the places of the scattered values.
Elsewhere such a read gives a default and such a write is lost, so that the two agree exactly where
no access is out of range. The rows of a pattern are lists, and looking through them is no access.
-/

namespace SparseDiff

namespace Strict

variable {F : Type}

/-- An access that is in range if `p` holds. -/
def inRange (p : Prop) [Decidable p] : Except Failure Unit :=
  if p then .ok () else .error .outOfBounds

/-- `n` slots from `start` on lie inside the values. -/
def slice (start n : Nat) : Run F Unit := do
  let m ← get
  Run.ofExcept (inRange (start + n ≤ m.values.size))

/-- There are `n` arrays of a kind, and the first `n` have all the slots that the values have. -/
def arrays (kind : Memory F → Array (Array F)) (n : Nat) : Run F Unit := do
  let m ← get
  Run.ofExcept (inRange (n ≤ (kind m).size ∧
    ∀ w ∈ (kind m).toList.take n, m.values.size ≤ w.size))

/-- A seed has an entry for every nonzero of the patterns. -/
def seedEntries (patterns : List Pattern) (seed : List (List F)) : Except Failure Unit :=
  inRange (∀ item ∈ patterns.zipIdx, item.1.nnz ≤ (seed.getD item.2 []).length)

/-- The first `n` vertices are in the table of a coloring. -/
def vertices (c : Coloring) (n : Nat) : Except Failure Unit := inRange (n ≤ c.colors.size)

section Steps

variable (f : Tape F)

def loadInputs (l : Layout) (inputs : List (List F)) : Run F Unit := do
  (inputs.take f.nIn).zipIdx.forM fun (xs, i) => do
    slice (← Run.ofExcept (l.offset i)) xs.length
  f.loadInputs l inputs

def loadTangent (l : Layout) (d : Nat) (seed : Nat → Nat → F) : Run F Unit := do
  arrays Memory.fwd (d + 1)
  f.loadTangent l d seed

/-- The slots of an output as a slice of `w`. -/
def readOutput [Zero F] (l : Layout) (w : Array F) (o : Nat) : Except Failure (List F) := do
  match f.outputs[o]? with
  | some position => inRange ((← l.offset position) + f.outputLength o ≤ w.size)
  | none => .error .outOfBounds
  f.readOutput l w o

def readOutputs [Zero F] (l : Layout) (w : Array F) : Except Failure (List (List F)) :=
  (List.range f.nOut).mapM (readOutput f l w)

def clearAdjoint [Zero F] (d : Nat) : Run F Unit := do
  arrays Memory.adj (d + 1)
  Tape.clearAdjoint d

def seedAdjoint [Add F] (d o : Nat) (seed : Nat → F) : Run F Unit := do
  arrays Memory.adj (d + 1)
  f.seedAdjoint d o seed

/-- The slots of an input as a slice. -/
def inputSlice (i : Nat) : Run F Unit := do
  let (start, n) ← Run.ofExcept (f.inputRange i)
  slice start n

def takeInputAdjoint [Zero F] (d i : Nat) : Run F (List F) := do
  arrays Memory.adj (d + 1)
  inputSlice f i
  f.takeInputAdjoint d i

def clearAdjointTangent [Zero F] (d : Nat) : Run F Unit := do
  arrays Memory.adjFwd (d + 1)
  Tape.clearAdjointTangent d

def takeInputAdjointTangent [Zero F] (d i : Nat) : Run F (List F) := do
  arrays Memory.adjFwd (d + 1)
  inputSlice f i
  f.takeInputAdjointTangent d i

end Steps

section Sweeps

variable [Zero F] [Add F] [Mul F] [Calculus F]

/--
What an element looks up before its first nonzero, also if it has none: where its operands start,
and the slot of the condition of a select.
-/
def ahead (l : Layout) : Instr F → Except Failure (List Nat)
  | .input .. | .constant _ | .gather .. => return []
  | .unary _ a => do
      let _ ← l.offset a.position
      return []
  | .binary _ a b => do
      let _ ← l.offset a.position
      let _ ← l.offset b.position
      return []
  | .ifElse _ cond branch => do
      let _ ← l.offset branch
      return (← Tape.operandSlot l 0 cond).toList

/-- A segment may read the condition of a select before its first cell runs. -/
def segment (check : Bool) (op : String) (nfwd : Nat) (s : Segment F) : Run F Unit := do
  slice s.start s.cells.length
  Run.requireSlots (s.cells.flatMap Cell.slots)
  s.forward check op nfwd

def forwardSweep (f : Tape F) (l : Layout) (op : String) (nfwd : Nat) (tape : List (Segment F)) :
    Run F Unit := do
  arrays Memory.fwd nfwd
  f.elements.toList.forM fun e => do
    Run.requireSlots (← Run.ofExcept (ahead l e.instr))
  tape.forM (segment f.config.checkFinite op nfwd)

def adjointSweep (check : Bool) (op : String) (nadj : Nat) (tape : List (Segment F)) :
    Run F Unit := do
  arrays Memory.adj nadj
  SparseDiff.adjointSweep check op nadj tape

def secondOrderSweep (check : Bool) (op : String) (nfwd : Nat) (tape : List (Segment F)) :
    Run F Unit := do
  arrays Memory.fwd nfwd
  arrays Memory.adj 1
  arrays Memory.adjFwd nfwd
  SparseDiff.secondOrderSweep check op nfwd tape

end Sweeps

section Evaluate

variable [Zero F] [Add F] [Mul F] [Calculus F] (f : Tape F)

def loadValues (op : String) (tape : List (Segment F)) (inputs : List (List F)) :
    Run F Unit := do
  loadInputs f f.full inputs
  forwardSweep f f.full op 0 tape

def adjointSensitivities (op : String) (tape : List (Segment F))
    (seeds : List (List (List F))) : Run F (List (List (List F))) := do
  seeds.zipIdx.forM fun (seed, d) => do
    clearAdjoint d
    Run.ofExcept (seedEntries f.outputPatterns seed)
    let seed := seed.map List.toArray
    (List.range f.nOut).forM fun o => seedAdjoint f d o (Tape.seedAt seed o)
  adjointSweep f.config.checkFinite op seeds.length tape
  (List.range seeds.length).mapM fun d =>
    (List.range f.nIn).mapM fun i => takeInputAdjoint f d i

def evaluate (inputs : List (List F)) (fwdSeeds adjSeeds : List (List (List F))) :
    Run F (Evaluation F) := do
  let op := "evaluate"
  let (nfwd, nadj) := (fwdSeeds.length, adjSeeds.length)
  Run.check (f.checkEvaluation op (← get).sizes inputs fwdSeeds adjSeeds)
  let l := f.layout nadj
  loadInputs f l inputs
  fwdSeeds.zipIdx.forM fun (seed, d) => do
    Run.ofExcept (seedEntries f.inputPatterns seed)
    loadTangent f l d (Tape.seedAt (seed.map List.toArray))
  let tape ← Run.ofExcept (f.segments l)
  forwardSweep f l op nfwd tape
  arrays Memory.fwd nfwd
  let m ← get
  let outputs ← Run.ofExcept (readOutputs f l m.values)
  let fwd ← (m.fwd.toList.take nfwd).mapM fun t => Run.ofExcept (readOutputs f l t)
  let adj ← if nadj = 0 then pure [] else adjointSensitivities f op tape adjSeeds
  return ⟨outputs, fwd, adj⟩

end Evaluate

section Scatter

/-- Values on the entries of a pattern, each picked one in its place. -/
def overlay (p : Pattern) (pick : Nat → Nat → Except Failure (Option F)) (values : Array F) :
    Except Failure (Array F) :=
  p.entries.zipIdx.foldlM
    (fun values ((r, c), k) => do
      match ← pick r c with
      | some v =>
          inRange (k < values.size)
          return values.setIfInBounds k v
      | none => return values)
    values

/-- Entry `k` of the result of a sweep. -/
def entryAt (sum : Array F) (k : Nat) : Except Failure (Option F) := do
  inRange (k < sum.size)
  return sum[k]?

def fromColumns (found : Compressed F) (block : Nat) (parts : Partition) (r c : Nat) :
    Except Failure (Option F) := do
  if ← parts.isAdjointRow r then
    return none
  match ← parts.forward.color c with
  | none => return none
  | some color =>
      inRange (color < parts.forward.ncolors)
      match found.sum? block color with
      | none => return none
      | some column => entryAt column r

def fromRows (found : Compressed F) (block : Nat) (parts : Partition) (r c : Nat) :
    Except Failure (Option F) := do
  match ← parts.adjoint.color r with
  | none => return none
  | some color =>
      inRange (color < parts.adjoint.ncolors)
      match found.sum? block color with
      | none => return none
      | some row => entryAt row c

/-- Every direction of a block has a place among the colors of its plan. -/
def scatter (count : JacobianPlan → Nat)
    (recover : Compressed F → Nat → Partition → Nat → Nat → Except Failure (Option F))
    (found : Compressed F) (plans : List JacobianPlan) (values : List (Array F)) :
    Except Failure (List (Array F)) :=
  (plans.zip values).zipIdx.mapM fun ((plan, out), block) => do
    inRange (∀ item ∈ found, item.1.block = block → item.1.color < count plan)
    overlay plan.pattern (recover found block plan.partition) out

def fromProducts (products : Array (Array F)) (b : Batch) (c : Coloring) (row col : Nat) :
    Except Failure (Option F) := do
  match ← c.color col with
  | none => return none
  | some color =>
      if b.start ≤ color ∧ color < b.stop then
        inRange (color - b.start < products.size)
        entryAt (products.getD (color - b.start) #[]) row
      else
        return none

/-- The members of a batch as a slice of a list. -/
def selection (b : Batch) (n : Nat) : Except Failure Unit :=
  inRange (b.start ≤ b.stop ∧ b.stop ≤ n)

end Scatter

section Assembly

variable [Zero F] [One F] [Add F] [Mul F] [Calculus F] (f : Tape F)

def forwardDirections (tape : List (Segment F)) (inputs : List (List F))
    (nplans : Nat) (dirs : List Direction) : Run F (Compressed F) := do
  let l := f.layout 0
  loadInputs f l inputs
  dirs.zipIdx.forM fun (dir, d) => do
    Run.ofExcept (inRange (dir.block < nplans))
    Run.ofExcept (vertices dir.plan.partition.forward (f.inputLength dir.plan.input))
    loadTangent f l d fun i k =>
      if i = dir.plan.input then indicator dir.plan.partition.forward dir.color k else 0
  forwardSweep f l Tape.jacobianOp dirs.length tape
  arrays Memory.fwd dirs.length
  let m ← get
  dirs.zipIdx.mapM fun (dir, d) => do
    let column ← Run.ofExcept (readOutput f l (m.fwd.getD d #[]) dir.plan.output)
    return (dir, column.toArray)

def adjointDirections (tape : List (Segment F)) (nplans : Nat) (dirs : List Direction) :
    Run F (Compressed F) := do
  dirs.zipIdx.forM fun (dir, d) => do
    Run.ofExcept (inRange (dir.block < nplans))
    Run.ofExcept (vertices dir.plan.partition.adjoint (f.outputLength dir.plan.output))
    clearAdjoint d
    seedAdjoint f d dir.plan.output (indicator dir.plan.partition.adjoint dir.color)
  adjointSweep f.config.checkFinite Tape.jacobianOp dirs.length tape
  dirs.zipIdx.mapM fun (dir, d) => do
    let row ← takeInputAdjoint f d dir.plan.input
    return (dir, row.toArray)

def forwardBatches (inputs : List (List F)) (plans : List JacobianPlan) (dirs : List Direction)
    (size : Nat) (values : List (Array F)) : Run F (List (Array F)) := do
  let tape ← Run.ofExcept (f.segments (f.layout 0))
  (batches dirs.length size).foldlM
    (fun values b => do
      Run.ofExcept (selection b dirs.length)
      let found ← forwardDirections f tape inputs plans.length (b.select dirs)
      Run.ofExcept (scatter JacobianPlan.nfwd fromColumns found plans values))
    values

def adjointBatches (op : String) (inputs : List (List F)) (plans : List JacobianPlan)
    (dirs : List Direction) (size : Nat) (values : List (Array F)) :
    Run F (List (Array F)) := do
  let tape ← Run.ofExcept (f.segments f.full)
  loadValues f op tape inputs
  (batches dirs.length size).foldlM
    (fun values b => do
      Run.ofExcept (selection b dirs.length)
      let found ← adjointDirections f tape plans.length (b.select dirs)
      Run.ofExcept (scatter JacobianPlan.nadj fromRows found plans values))
    values

def jacobianValues (op : String) (inputs : List (List F)) (plans : List JacobianPlan) :
    Run F (List (Array F)) := do
  let sizes := (← get).sizes
  Run.check (f.checkJacobians op sizes inputs plans)
  let fwd := directions JacobianPlan.nfwd plans
  let adj := directions JacobianPlan.nadj plans
  let zeros := plans.map fun plan => zeroValues plan.pattern
  let values ← forwardBatches f inputs plans fwd (min f.config.maxDirections sizes.nfwd) zeros
  if adj.isEmpty then
    return values
  else
    adjointBatches f op inputs plans adj (min f.config.maxDirections sizes.nadj) values

def jacobianWithPlan (inputs : List (List F)) (plan : JacobianPlan) : Run F (SparseMatrix F) := do
  let values ← jacobianValues f Tape.jacobianOp inputs [plan]
  return ⟨plan.pattern, values.headD #[]⟩

def jacobianBlocksWithPlans (inputs : List (List F)) (plans : List JacobianPlan) :
    Run F (List (SparseMatrix F)) := do
  let values ← jacobianValues f "jacobian_blocks" inputs plans
  return plans.zipWith (fun plan values => ⟨plan.pattern, values⟩) values

def hessianProducts (tape : List (Segment F)) (inputs : List (List F)) (o i : Nat)
    (tangents : List (Nat → Nat → F)) : Run F (List (List F)) := do
  let nfwd := tangents.length
  loadInputs f f.full inputs
  tangents.zipIdx.forM fun (tangent, d) => do
    loadTangent f f.full d tangent
    clearAdjointTangent d
  forwardSweep f f.full Tape.hessianOp nfwd tape
  clearAdjoint 0
  seedAdjoint f 0 o fun _ => 1
  secondOrderSweep f.config.checkFinite Tape.hessianOp nfwd tape
  (List.range nfwd).mapM fun d => takeInputAdjointTangent f d i

def hessianBatch (tape : List (Segment F)) (inputs : List (List F)) (plan : HessianPlan)
    (b : Batch) (values : Array F) : Run F (Array F) := do
  Run.ofExcept (vertices plan.coloring (f.inputLength plan.input))
  let tangents := b.members.map (Tape.colorTangent plan.input plan.coloring)
  let products ← hessianProducts f tape inputs plan.output plan.input tangents
  let products := (products.map List.toArray).toArray
  Run.ofExcept (overlay plan.pattern (fromProducts products b plan.coloring) values)

def hessianWithPlan (inputs : List (List F)) (plan : HessianPlan) : Run F (SparseMatrix F) := do
  let sizes := (← get).sizes
  Run.check (f.checkHessian Tape.hessianOp sizes inputs plan)
  let tape ← Run.ofExcept (f.segments f.full)
  let size := min f.config.maxDirections sizes.nfwd
  let values ← (batches plan.coloring.ncolors size).foldlM
    (fun values b => hessianBatch f tape inputs plan b values) (zeroValues plan.pattern)
  return ⟨plan.pattern, values⟩

def forwardPart (tape : List (Segment F)) (inputs : List (List F)) (plan : JacobianPlan)
    (b : Batch) : Except Failure (Array F) := do
  let dirs := b.select (directions JacobianPlan.nfwd [plan])
  let found ← (forwardDirections f tape inputs 1 dirs).alone (f.memory dirs.length 0)
  overlay plan.pattern (fromColumns found 0 plan.partition) (zeroValues plan.pattern)

def adjointPart (op : String) (tape : List (Segment F)) (inputs : List (List F))
    (plan : JacobianPlan) (b : Batch) : Except Failure (Array F) := do
  let dirs := b.select (directions JacobianPlan.nadj [plan])
  let sweep : Run F (Compressed F) := do
    loadValues f op tape inputs
    adjointDirections f tape 1 dirs
  let found ← sweep.alone (f.memory 0 dirs.length)
  overlay plan.pattern (fromRows found 0 plan.partition) (zeroValues plan.pattern)

def jacobianByParts (inputs : List (List F)) (plan : JacobianPlan) :
    Except Failure (SparseMatrix F) := do
  let op := "jacobian_par"
  orReject (f.checkJacobianPlan op plan)
  orReject (f.checkInputValues op inputs)
  let size := f.config.maxDirections
  let shared ← f.segments (f.layout 0)
  let full ← f.segments f.full
  let fwd ← (batches plan.nfwd size).mapM (forwardPart f shared inputs plan)
  let adj ← (batches plan.nadj size).mapM (adjointPart f op full inputs plan)
  return ⟨plan.pattern, sumParts plan.pattern.nnz (fwd ++ adj)⟩

def hessianPart (tape : List (Segment F)) (inputs : List (List F)) (plan : HessianPlan)
    (b : Batch) : Except Failure (Array F) :=
  (hessianBatch f tape inputs plan b (zeroValues plan.pattern)).alone
    (f.memory b.members.length 1)

def hessianByParts (inputs : List (List F)) (plan : HessianPlan) :
    Except Failure (SparseMatrix F) := do
  let op := "hessian_par"
  orReject (f.checkHessianPlan op plan)
  orReject (f.checkInputValues op inputs)
  let tape ← f.segments f.full
  let parts ← (batches plan.coloring.ncolors f.config.maxDirections).mapM
    (hessianPart f tape inputs plan)
  return ⟨plan.pattern, sumParts plan.pattern.nnz parts⟩

end Assembly

end Strict

end SparseDiff
