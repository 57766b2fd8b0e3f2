import SparseDiff.Coloring.Split
import SparseDiff.Graph.Basic

/-!
# Tapes

A tape is a graph in an order of evaluation: the declared inputs first, then every other
element after its operands. An element owns one work slot per nonzero of its value, and
a layout says where its slots start.
-/

namespace SparseDiff

/-- How an operand nonzero is found for result nonzero `k`. -/
inductive Access where
  /-- Operand and result have one pattern: nonzero `k`. -/
  | same
  /-- Nonzero `map[k]`, or a structural zero. -/
  | mapped (map : Array (Option Nat))
  /-- A `1 × 1` operand, broadcast to every result nonzero. -/
  | scalar
  /-- A `1 × 1` operand without a nonzero, zero everywhere. -/
  | zero
  deriving DecidableEq, Repr, Inhabited

namespace Access

/-- Access from a result pattern to an operand pattern of the same shape. -/
def between (result operand : Pattern) : Access :=
  if result = operand then .same else .mapped (result.nonzeroMap operand).toArray

/-- Access to a broadcast operand. -/
def broadcast (operand : Pattern) : Access :=
  if operand.nnz = 0 then .zero else .scalar

/-- Work slot of the operand nonzero for result nonzero `k`; none for a structural zero. -/
def slot (start k : Nat) : Access → Except Failure (Option Nat)
  | same => .ok (some (start + k))
  | mapped map =>
      match map[k]? with
      | some entry => .ok (entry.map (start + ·))
      | none => .error .outOfBounds
  | scalar => .ok (some start)
  | zero => .ok none

end Access

/-- An operand: the position of its element and the access to its nonzeros. -/
structure Operand where
  position : Nat
  access : Access
  deriving DecidableEq, Repr, Inhabited

/-- Operation of a tape element. -/
inductive Instr (F : Type) where
  /-- Declared input. The operands that a stored leaf may list play no part in a sweep. -/
  | input (number : Nat) (listed : List Nat)
  | constant (values : Array F)
  | unary (op : UnaryOp) (a : Operand)
  /-- Elementwise or broadcast. -/
  | binary (op : BinaryOp) (a b : Operand)
  /-- The element at `branch` where the condition is within `tol` of zero. -/
  | ifElse (tol : F) (cond : Operand) (branch : Nat)
  /-- Element and nonzero for every result nonzero. -/
  | gather (kind : GatherKind) (parts : List Nat) (moves : Array (Nat × Nat))
  deriving Inhabited

namespace Instr

variable {F : Type}

/-- Positions of the operands, in operand order. -/
def reads : Instr F → List Nat
  | input _ listed => listed
  | constant _ => []
  | unary _ a => [a.position]
  | binary _ a b => [a.position, b.position]
  | ifElse _ cond branch => [cond.position, branch]
  | gather _ parts _ => parts

def isSmooth : Instr F → Bool
  | unary op _ => !op.isNonsmooth
  | binary op _ _ => !op.isNonsmooth
  | ifElse _ _ _ => false
  | _ => true

end Instr

/-- One tape entry. -/
structure Element (F : Type) where
  node : NodeId
  instr : Instr F
  /-- Nonzeros of the value. -/
  nnz : Nat
  deriving Inhabited

/-- First work slot of every element, and the number of slots. -/
structure Layout where
  offsets : Array Nat
  size : Nat
  deriving DecidableEq, Repr, Inhabited

namespace Layout

/-- First slot of the element at `position`. -/
def offset (l : Layout) (position : Nat) : Except Failure Nat :=
  match l.offsets[position]? with
  | some o => .ok o
  | none => .error .outOfBounds

end Layout

/-- The slots from `start` on, one per item. -/
def slotsFrom (start count : Nat) : List Nat := (List.range count).map (start + ·)

/-- Options fixed at compilation. -/
structure Config where
  /-- Use the compact layout when no adjoints are requested. -/
  reuseWork : Bool := true
  /-- Most seed directions that share a sweep in Jacobian and Hessian assembly. -/
  maxDirections : Nat := 8
  /-- Refuse values that are not finite. -/
  checkFinite : Bool := true
  /-- Direction preference of Jacobians. -/
  mode : SweepMode := .auto
  deriving DecidableEq, Repr, Inhabited

/-- Set the number of shared directions, at least one. -/
def Config.withMaxDirections (c : Config) (n : Nat) : Config :=
  { c with maxDirections := max n 1 }

/-- A compiled graph. Input `i` is the element at position `i`. -/
structure Tape (F : Type) where
  graph : Graph F
  elements : Array (Element F)
  /-- Position of every output. -/
  outputs : List Nat
  inputPatterns : List Pattern
  outputPatterns : List Pattern
  full : Layout
  compact : Layout
  config : Config

namespace Tape

variable {F : Type}

/-- Number of declared inputs. -/
def nIn (f : Tape F) : Nat := f.inputPatterns.length

/-- Number of outputs. -/
def nOut (f : Tape F) : Nat := f.outputPatterns.length

/-- No element has a kink or a jump. -/
def isSmooth (f : Tape F) : Bool := f.elements.all (·.instr.isSmooth)

/-- Layout of a sweep with `nadj` adjoint directions. -/
def layout (f : Tape F) (nadj : Nat) : Layout :=
  if nadj = 0 ∧ f.config.reuseWork then f.compact else f.full

/-- Pattern of input `i`. -/
def inputPattern (f : Tape F) (op : String) (i : Nat) : Except Error Pattern :=
  match f.inputPatterns[i]? with
  | some p => .ok p
  | none => .error (.outOfRange op "input" i f.nIn)

/-- Pattern of output `o`. -/
def outputPattern (f : Tape F) (op : String) (o : Nat) : Except Error Pattern :=
  match f.outputPatterns[o]? with
  | some p => .ok p
  | none => .error (.outOfRange op "output" o f.nOut)

end Tape

end SparseDiff
