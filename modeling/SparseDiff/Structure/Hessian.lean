import SparseDiff.Structure.Jacobian

/-!
# Structural Hessians

Two input nonzeros interact when a nonlinear operation in the cone of the output combines
values that depend on them. A backward walk marks the cone, a forward walk carries the
set of input nonzeros of every slot and marks the interactions.
-/

namespace SparseDiff

variable {F : Type}

/-- Slots with a structurally nonzero adjoint, when `output` has one. -/
def liveSlots (size output : Nat) (tape : List (Segment F)) : Array Bool :=
  walkBackward
    (fun live c slot =>
      if live.getD slot false then
        c.dependencies.foldl (fun live s => live.setIfInBounds s true) live
      else
        live)
    ((Array.replicate size false).setIfInBounds output true) tape

/-- Every member of `a` interacts with every member of `b`; one direction only. -/
def markPairs {n : Nat} (a b : BitVec n) (rows : Array (BitVec n)) : Array (BitVec n) :=
  (members a).foldl (fun rows i => rows.modify i (· ||| b)) rows

/-- Set at an operand slot; a structural zero depends on nothing. -/
def operandBits {n : Nat} (bits : Array (BitVec n)) : Option Nat → BitVec n
  | some s => bits.getD s 0
  | none => 0

namespace Cell

/-- Mark the interactions of a live cell whose operands depend on the sets in `bits`. -/
def markInteractions {n : Nat} (c : Cell F) (bits : Array (BitVec n))
    (rows : Array (BitVec n)) : Array (BitVec n) :=
  match c with
  | unary op a =>
      if op.isNonlinear && !op.hasZeroDerivative then
        let da := operandBits bits a
        markPairs da da rows
      else
        rows
  | binary op a b =>
      let da := operandBits bits a
      let db := operandBits bits b
      let so := op.secondOrder
      let rows := if so.aa then markPairs da da rows else rows
      let rows := if so.bb then markPairs db db rows else rows
      if so.ab then markPairs db da (markPairs da db rows) else rows
  | _ => rows

end Cell

/-- Dependency sets of all slots and interactions found so far. -/
structure Interactions (n : Nat) where
  bits : Array (BitVec n)
  rows : Array (BitVec n)

/-- Mark the interactions of a cell, then give it the union of its operand sets. -/
def Interactions.step {n : Nat} (live : Array Bool) (s : Interactions n) (c : Cell F)
    (slot : Nat) : Interactions n :=
  if c.isInput then
    s
  else
    let rows := if live.getD slot false then c.markInteractions s.bits s.rows else s.rows
    { bits := s.bits.setIfInBounds slot (c.gatherBits s.bits), rows }

/-- Before the walk, every nonzero of the input depends on itself. -/
def Interactions.start (size first n : Nat) : Interactions n :=
  { bits := (List.range n).foldl
      (fun bits c => bits.setIfInBounds (first + c) (BitVec.twoPow n c))
      (Array.replicate size 0)
    rows := Array.replicate n 0 }

namespace Tape

/-- The output of a Hessian must be a dense scalar. -/
def checkScalarOutput (op : String) (o : Nat) (p : Pattern) : Except Error Unit :=
  if p.isDenseScalar then .ok ()
  else .error (.dimension op (.notScalar o p.nrow p.ncol p.nnz))

/-- Structural Hessian of scalar output `o` with respect to input `i`. -/
def hessianPattern (f : Tape F) (o i : Nat) : Except Failure Pattern := do
  let op := "hessian_sparsity"
  let (out, inp) ← orReject (f.checkBlock op o i)
  orReject (checkScalarOutput op o out)
  let tape ← f.segments f.full
  let (input, _) ← f.inputSlots i
  let (output, _) ← f.outputRange o
  let live := liveSlots f.full.size output tape
  let found := walkForward (Interactions.step live)
    (Interactions.start f.full.size input inp.nnz) tape
  return ⟨inp.nnz, found.rows.map members⟩

end Tape

end SparseDiff
