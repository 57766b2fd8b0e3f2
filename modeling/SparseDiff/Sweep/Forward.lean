import SparseDiff.Sweep.Memory

/-!
# Forward sweep

Values and tangents, segment by segment. Input values and input tangents are loaded
first; every other slot is written before it is read. With checking on, a value or a
tangent that is not finite stops the sweep after its segment.
-/

namespace SparseDiff

variable {F : Type} [Zero F] [Add F] [Mul F] [Calculus F]

namespace Cell

/-- Decide a select by the values in `w`: it copies its source, or is zero. -/
def settle (w : Array F) : Cell F → Cell F
  | select tol cond source =>
      if Calculus.selects (readSlot w cond) tol then .copy source else .constant 0
  | c => c

/-- Value of a cell, from the values in `w`. -/
def value (w : Array F) : Cell F → F
  | input _ _ => 0
  | constant v => v
  | unary op a => Calculus.unary op (readSlot w a)
  | binary op a b => Calculus.binary op (readSlot w a) (readSlot w b)
  | select tol cond source =>
      if Calculus.selects (readSlot w cond) tol then w.getD source 0 else 0
  | copy source => w.getD source 0

/-- Tangent along one operand with partial `d`. -/
def along (d : F) (t : Array F) : Option Nat → F
  | some s => seedMul d (t.getD s 0)
  | none => 0

/-- Tangent of a cell with value `r`, from the values in `w` and the tangents in `t`. -/
def tangent (w : Array F) (r : F) (t : Array F) : Cell F → F
  | input _ _ => 0
  | constant _ => 0
  | unary op a => along (Calculus.unaryDerivative op (readSlot w a) r) t a
  | binary op a b =>
      let d := Calculus.binaryPartials op (readSlot w a) (readSlot w b) r
      along d.1 t a + along d.2 t b
  | select tol cond source =>
      if Calculus.selects (readSlot w cond) tol then t.getD source 0 else 0
  | copy source => t.getD source 0

/-- Write value and tangents of a cell at `dest`. -/
def advance (nfwd dest : Nat) (c : Cell F) (m : Memory F) : Memory F :=
  let w := m.values
  let r := c.value w
  let fwd := updateFirst nfwd (fun _ t => t.setIfInBounds dest (c.tangent w r t)) m.fwd
  { m with fwd, values := w.setIfInBounds dest r }

/-- One cell of a forward sweep; input cells are loaded already. -/
def forward (nfwd dest : Nat) (c : Cell F) : Run F Unit :=
  if c.isInput then
    pure ()
  else do
    Run.requireSlots (dest :: c.slots)
    modify (c.advance nfwd dest)

end Cell

/-- The value at `slot` and the first `nfwd` tangents there are finite. -/
def Memory.isFiniteAt (m : Memory F) (nfwd slot : Nat) : Bool :=
  Calculus.isFinite (m.values.getD slot 0) &&
    (m.fwd.toList.take nfwd).all fun t => Calculus.isFinite (t.getD slot 0)

namespace Segment

/-- Report the first nonzero of a segment that is not finite. -/
def checkFinite (op : String) (nfwd : Nat) (s : Segment F) : Run F Unit := do
  let m ← get
  match (List.range s.cells.length).find? fun k => !m.isFiniteAt nfwd (s.start + k) with
  | some k => Run.reject (.numeric op s.node k)
  | none => pure ()

/-- Forward sweep over one segment. Its selects are decided before its first cell runs. -/
def forward (check : Bool) (op : String) (nfwd : Nat) (s : Segment F) : Run F Unit := do
  let m ← get
  let cells := s.cells.map (Cell.settle m.values)
  cells.zipIdx.forM fun (c, k) => c.forward nfwd (s.start + k)
  if check then
    s.checkFinite op nfwd

end Segment

/-- Forward sweep with `nfwd` tangents. -/
def forwardSweep (check : Bool) (op : String) (nfwd : Nat) (tape : List (Segment F)) :
    Run F Unit :=
  tape.forM (Segment.forward check op nfwd)

/-- Write a list of values into consecutive slots of an array. -/
def writeAt (start : Nat) (xs : List F) (w : Array F) : Array F :=
  xs.zipIdx.foldl (fun w (x, k) => w.setIfInBounds (start + k) x) w

namespace Tape

/-- Write the values of every input. -/
def loadInputs (f : Tape F) (l : Layout) (inputs : List (List F)) : Run F Unit :=
  (inputs.take f.nIn).zipIdx.forM fun (xs, i) => do
    let start ← Run.ofExcept (l.offset i)
    Run.requireSlots (slotsFrom start xs.length)
    modify fun m => { m with values := writeAt start xs m.values }

/-- Write tangent `d` of every input: `seed i k` at nonzero `k` of input `i`. -/
def loadTangent (f : Tape F) (l : Layout) (d : Nat) (seed : Nat → Nat → F) : Run F Unit :=
  f.inputPatterns.zipIdx.forM fun (p, i) => do
    let start ← Run.ofExcept (l.offset i)
    Run.requireSlots (slotsFrom start p.nnz)
    let xs := (List.range p.nnz).map (seed i)
    modify fun m => { m with fwd := m.fwd.modify d (writeAt start xs) }

end Tape

end SparseDiff
