import SparseDiff.Tape.Compile

/-!
# Cells

Under a layout every nonzero of every element becomes a cell: one scalar operation on
work slots. A tape is then a list of segments, one per element, and every analysis of a
tape is a walk over cells, forward or from the last segment to the first.
-/

namespace SparseDiff

/-- A scalar operation on work slots; an operand without a slot is a structural zero. -/
inductive Cell (F : Type) where
  /-- Nonzero of a declared input, loaded before a sweep. -/
  | input (number nonzero : Nat)
  | constant (value : F)
  | unary (op : UnaryOp) (a : Option Nat)
  | binary (op : BinaryOp) (a b : Option Nat)
  /-- The value at `source` where the condition is within `tol` of zero. -/
  | select (tol : F) (cond : Option Nat) (source : Nat)
  | copy (source : Nat)
  deriving Inhabited

namespace Cell

variable {F : Type}

/-- Slots that the cell reads. -/
def slots : Cell F → List Nat
  | input _ _ | constant _ => []
  | unary _ a => a.toList
  | binary _ a b => a.toList ++ b.toList
  | select _ cond source => cond.toList ++ [source]
  | copy source => [source]

def isInput : Cell F → Bool
  | input _ _ => true
  | _ => false

end Cell

/-- The cells of one element; cell `k` writes slot `start + k`. -/
structure Segment (F : Type) where
  node : NodeId
  start : Nat
  cells : List (Cell F)
  deriving Inhabited

/-- The cells of a segment with their nonzero numbers. -/
def Segment.numbered {F : Type} (s : Segment F) : List (Cell F × Nat) := s.cells.zipIdx

namespace Tape

variable {F : Type}

/-- Slot of an operand for result nonzero `k`. -/
def operandSlot (l : Layout) (k : Nat) (a : Operand) : Except Failure (Option Nat) := do
  a.access.slot (← l.offset a.position) k

/-- Cell of an instruction for result nonzero `k`. -/
def cell (l : Layout) (k : Nat) : Instr F → Except Failure (Cell F)
  | .input number _ => .ok (.input number k)
  | .constant values =>
      match values[k]? with
      | some v => .ok (.constant v)
      | none => .error .outOfBounds
  | .unary op a => do return .unary op (← operandSlot l k a)
  | .binary op a b => do return .binary op (← operandSlot l k a) (← operandSlot l k b)
  | .ifElse tol cond branch => do
      return .select tol (← operandSlot l 0 cond) ((← l.offset branch) + k)
  | .gather _ _ moves =>
      match moves[k]? with
      | some (position, nonzero) => do return .copy ((← l.offset position) + nonzero)
      | none => .error .outOfBounds

/-- Segment of the element at a position. -/
def segment (l : Layout) (e : Element F) (position : Nat) : Except Failure (Segment F) := do
  let start ← l.offset position
  let cells ← (List.range e.nnz).mapM fun k => cell l k e.instr
  return ⟨e.node, start, cells⟩

/-- The tape as segments, in tape order. -/
def segments (f : Tape F) (l : Layout) : Except Failure (List (Segment F)) :=
  f.elements.toList.zipIdx.mapM fun (e, position) => segment l e position

end Tape

end SparseDiff
