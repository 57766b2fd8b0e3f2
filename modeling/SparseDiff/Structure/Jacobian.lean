import SparseDiff.Tape.Cell

/-!
# Structural Jacobians

Which input nonzeros can an output nonzero depend on? Sets of nonzeros are propagated
through the tape in words of 64 bits, block after block: input nonzeros forward, or output
nonzeros backward. Operations with zero derivative and the condition of a select carry no
dependency.
-/

namespace SparseDiff

/-- Number of nonzeros propagated at once. -/
def wordSize : Nat := 64

/-- A set of nonzeros of one block. -/
abbrev Word := BitVec wordSize

/-- Members of a bit set, in increasing order. -/
def members {w : Nat} (bits : BitVec w) : List Nat := (List.range w).filter bits.getLsbD

/-- Number of blocks for `n` nonzeros. -/
def blocks (n : Nat) : Nat := (n + wordSize - 1) / wordSize

namespace Cell

variable {F : Type}

/-- Slots through which a derivative can flow. -/
def dependencies : Cell F → List Nat
  | input _ _ | constant _ => []
  | unary op a => if op.hasZeroDerivative then [] else a.toList
  | binary _ a b => a.toList ++ b.toList
  | select _ _ source => [source]
  | copy source => [source]

/-- Union of the sets at the slots that the cell depends on. -/
def gatherBits {w : Nat} (c : Cell F) (bits : Array (BitVec w)) : BitVec w :=
  c.dependencies.foldl (fun acc s => acc ||| bits.getD s 0) 0

/-- Add the set of the cell to the slots that it depends on. -/
def spreadBits {w : Nat} (c : Cell F) (set : BitVec w) (bits : Array (BitVec w)) :
    Array (BitVec w) :=
  c.dependencies.foldl (fun bits s => bits.modify s (· ||| set)) bits

end Cell

variable {F : Type}

/-- Walk the cells of a tape forward, giving each cell and its slot to `step`. -/
def walkForward {α : Type} (step : α → Cell F → Nat → α) (start : α)
    (tape : List (Segment F)) : α :=
  tape.foldl (fun a s => s.numbered.foldl (fun a (c, k) => step a c (s.start + k)) a) start

/-- Walk the cells of a tape from the last segment to the first. -/
def walkBackward {α : Type} (step : α → Cell F → Nat → α) (start : α)
    (tape : List (Segment F)) : α :=
  walkForward step start tape.reverse

/-- Sets of the cells of a tape, from the sets of its inputs. -/
def propagateForward {w : Nat} (tape : List (Segment F)) (bits : Array (BitVec w)) :
    Array (BitVec w) :=
  walkForward
    (fun bits c slot =>
      if c.isInput then bits else bits.setIfInBounds slot (c.gatherBits bits))
    bits tape

/-- Sets of the slots that reach the seeded ones. -/
def propagateBackward {w : Nat} (tape : List (Segment F)) (bits : Array (BitVec w)) :
    Array (BitVec w) :=
  walkBackward (fun bits c slot => c.spreadBits (bits.getD slot 0) bits) bits tape

/-- Seeds of one block: nonzero `first + i` of the range at `start` holds bit `i`. -/
def seedBlock (size start n first : Nat) : Array Word :=
  (List.range (min wordSize (n - first))).foldl
    (fun bits i => bits.modify (start + first + i) (· ||| BitVec.twoPow wordSize i))
    (Array.replicate size 0)

/-- First nonzero of every block of `n` nonzeros. -/
def blockStarts (n : Nat) : List Nat := (List.range (blocks n)).map (· * wordSize)

/--
Rows of a relation found block by block: `m` rows at slots from `start` on, where the
sets of each block are given with its first nonzero.
-/
def collectRows (m start : Nat) (found : List (Nat × Array Word)) : Array (List Nat) :=
  ((List.range m).map fun r =>
    found.flatMap fun (first, bits) =>
      (members (bits.getD (start + r) 0)).map (first + ·)).toArray

namespace Tape

/-- First slot of output `o` in the full layout, and its number of nonzeros. -/
def outputRange (f : Tape F) (o : Nat) : Except Failure (Nat × Nat) := do
  match f.outputs[o]?, f.outputPatterns[o]? with
  | some position, some p => return (← f.full.offset position, p.nnz)
  | _, _ => .error .outOfBounds

/-- First slot of input `i` in the full layout, and its number of nonzeros. -/
def inputSlots (f : Tape F) (i : Nat) : Except Failure (Nat × Nat) := do
  match f.inputPatterns[i]? with
  | some p => return (← f.full.offset i, p.nnz)
  | none => .error .outOfBounds

/-- Jacobian pattern by propagating input nonzeros forward. -/
def jacobianForward (f : Tape F) (tape : List (Segment F)) (input output : Nat × Nat) :
    Pattern :=
  let found := (blockStarts input.2).map fun first =>
    (first, propagateForward tape (seedBlock f.full.size input.1 input.2 first))
  ⟨input.2, collectRows output.2 output.1 found⟩

/-- Jacobian pattern by propagating output nonzeros backward. -/
def jacobianBackward (f : Tape F) (tape : List (Segment F)) (input output : Nat × Nat) :
    Pattern :=
  let found := (blockStarts output.2).map fun first =>
    (first, propagateBackward tape (seedBlock f.full.size output.1 output.2 first))
  Pattern.transpose ⟨output.2, collectRows input.2 input.1 found⟩

/-- Output and input of a block must exist; the output is checked first. -/
def checkBlock (f : Tape F) (op : String) (o i : Nat) : Except Error (Pattern × Pattern) := do
  return (← f.outputPattern op o, ← f.inputPattern op i)

/--
Structural Jacobian of output `o` with respect to input `i`: rows are output nonzeros,
columns input nonzeros. The direction with fewer blocks is taken, forward on a tie.
-/
def jacobianPattern (f : Tape F) (o i : Nat) : Except Failure Pattern := do
  let (out, inp) ← orReject (f.checkBlock "jacobian_sparsity" o i)
  let tape ← f.segments f.full
  let input ← f.inputSlots i
  let output ← f.outputRange o
  if blocks inp.nnz ≤ blocks out.nnz then
    return f.jacobianForward tape input output
  else
    return f.jacobianBackward tape input output

end Tape

end SparseDiff
