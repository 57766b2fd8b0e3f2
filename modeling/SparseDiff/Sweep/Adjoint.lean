import SparseDiff.Sweep.Forward

/-!
# Adjoint sweep

From the last segment to the first, every cell takes its adjoint out of its slot and adds
its contributions to the slots it reads. Input adjoints are left for the caller. A cell
whose adjoint is zero in all directions is skipped; with checking on, an adjoint that is
not finite stops the sweep before it contributes.
-/

namespace SparseDiff

variable {F : Type} [Zero F] [Add F] [Mul F] [Calculus F]

namespace Cell

/--
Add the contributions of a cell with value `r` and adjoint `lam` to the adjoints in
`acc`, where `w` holds the values.
-/
def backward (w : Array F) (r lam : F) (acc : Array F) : Cell F → Array F
  | input _ _ | constant _ => acc
  | unary op a =>
      let d := Calculus.unaryDerivative op (readSlot w a) r
      modifySlot acc a (· + seedMul d lam)
  | binary op a b =>
      let d := Calculus.binaryPartials op (readSlot w a) (readSlot w b) r
      modifySlot (modifySlot acc a (· + seedMul d.1 lam)) b (· + seedMul d.2 lam)
  | select tol cond source =>
      if Calculus.selects (readSlot w cond) tol then acc.modify source (· + lam) else acc
  | copy source => acc.modify source (· + lam)

end Cell

/-- Values at `slot` in the first `n` arrays. -/
def readFirst (n slot : Nat) (arrays : Array (Array F)) : List F :=
  (arrays.toList.take n).map (·.getD slot 0)

/-- Put zero at `slot` in the first `n` arrays. -/
def clearFirst (n slot : Nat) (arrays : Array (Array F)) : Array (Array F) :=
  updateFirst n (fun _ w => w.setIfInBounds slot 0) arrays

/-- With checking on, refuse adjoints that are not finite. -/
def checkAdjoints (check : Bool) (op : String) (node : NodeId) (k : Nat) (lams : List F) :
    Run F Unit :=
  if check && !lams.all Calculus.isFinite then
    Run.reject (.numeric op node k)
  else
    pure ()

namespace Cell

/-- One cell of an adjoint sweep: nonzero `k` of `node`, with its value at `dest`. -/
def adjoint (check : Bool) (op : String) (nadj : Nat) (node : NodeId) (k dest : Nat)
    (c : Cell F) : Run F Unit :=
  if c.isInput then
    pure ()
  else do
    Run.requireSlots [dest]
    let lams := readFirst nadj dest (← get).adj
    modify fun m => { m with adj := clearFirst nadj dest m.adj }
    if lams.all Calculus.isZero then
      return ()
    checkAdjoints check op node k lams
    Run.requireSlots c.slots
    modify fun m =>
      let w := m.values
      let r := w.getD dest 0
      { m with adj := updateFirst nadj (fun d acc => c.backward w r (lams.getD d 0) acc) m.adj }

end Cell

/-- Adjoint sweep over one segment. -/
def Segment.adjoint (check : Bool) (op : String) (nadj : Nat) (s : Segment F) : Run F Unit :=
  s.numbered.forM fun (c, k) => c.adjoint check op nadj s.node k (s.start + k)

/-- Adjoint sweep in `nadj` directions; values and output adjoints are in the memory. -/
def adjointSweep (check : Bool) (op : String) (nadj : Nat) (tape : List (Segment F)) :
    Run F Unit :=
  tape.reverse.forM (Segment.adjoint check op nadj)

namespace Tape

/-- Zero an adjoint array. -/
def clearAdjoint (d : Nat) : Run F Unit :=
  modify fun m => { m with adj := m.adj.modify d fun w => w.map fun _ => 0 }

/-- Add `seed k` at nonzero `k` of output `o` in adjoint array `d`. -/
def seedAdjoint (f : Tape F) (d o : Nat) (seed : Nat → F) : Run F Unit := do
  match f.outputs[o]?, f.outputPatterns[o]? with
  | some position, some p =>
      let start ← Run.ofExcept (f.full.offset position)
      Run.requireSlots (slotsFrom start p.nnz)
      modify fun m =>
        { m with
          adj := m.adj.modify d fun w =>
            (List.range p.nnz).foldl (fun w k => w.modify (start + k) (· + seed k)) w }
  | _, _ => throw .outOfBounds

/-- First slot and length of input `i` in the full layout. -/
def inputRange (f : Tape F) (i : Nat) : Except Failure (Nat × Nat) := do
  match f.inputPatterns[i]? with
  | some p => return (← f.full.offset i, p.nnz)
  | none => .error .outOfBounds

/-- Read the adjoint of input `i` from array `d` and clear it. -/
def takeInputAdjoint (f : Tape F) (d i : Nat) : Run F (List F) := do
  let (start, n) ← Run.ofExcept (f.inputRange i)
  Run.requireSlots (slotsFrom start n)
  let m ← get
  let w := m.adj.getD d #[]
  modify fun m => { m with adj := m.adj.modify d (writeAt start (List.replicate n 0)) }
  return (slotsFrom start n).map (w.getD · 0)

end Tape

end SparseDiff
