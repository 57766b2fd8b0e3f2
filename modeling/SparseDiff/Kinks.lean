import SparseDiff.Evaluate

/-!
# Kinks

At an operation with a kink or a jump, the derivative depends on the side from which the
operands come. An evaluation records, for every nonzero of every such operation, how far
its operands are from the switching surface and which side was taken. Two points with the
same sides lie on one smooth piece as far as the tape can tell.
-/

namespace SparseDiff

/-- The operation behind a kink. -/
inductive KinkOp where
  | unary (op : UnaryOp)
  | binary (op : BinaryOp)
  | ifElse
  deriving DecidableEq, Repr

def KinkOp.name : KinkOp → String
  | unary op => op.name
  | binary op => op.name
  | ifElse => "if_else"

/-- The side of a switching surface. -/
inductive Side where
  /-- The first operand, the copied branch, or at least zero. -/
  | upper
  | lower
  deriving DecidableEq, Repr

namespace Side

/-- The upper side if the test holds. -/
def ofTest (test : Bool) : Side := if test then upper else lower

def sign : Side → Int
  | upper => 1
  | lower => -1

end Side

/-- One kink of an evaluation. -/
structure Kink (F : Type) where
  node : NodeId
  /-- Nonzero of the value of the node. -/
  nonzero : Nat
  op : KinkOp
  /-- Signed distance from the switching surface. -/
  distance : F
  side : Side

variable {F : Type}

/-- The kink lies within `tol` of its switching surface. -/
def Kink.isActive [Elementary F] (tol : F) (k : Kink F) : Bool :=
  Elementary.lt (Elementary.abs k.distance) tol

section Rules

variable [Zero F] [One F] [Add F] [Sub F] [Div F] [Elementary F]

/--
Distance and side of a unary operation at operand `a`. A rounding operation switches at
whole numbers, and its upper side is the lower half of a unit; the others switch at zero.
-/
def unaryKink (op : UnaryOp) (a : F) : F × Side :=
  match op with
  | .floor | .ceil =>
      let half : F := 1 / (1 + 1)
      (a - Elementary.round a, .ofTest (Elementary.lt (a - Elementary.floor a) half))
  | _ => (a, .ofTest (Elementary.le 0 a))

/-- Distance and side of a minimum or a maximum: the upper side takes the first operand. -/
def binaryKink (op : BinaryOp) (a b : F) : F × Side :=
  match op with
  | .min => (a - b, .ofTest (Elementary.le a b))
  | _ => (a - b, .ofTest (Elementary.le b a))

/-- Distance and side of a select: the upper side copies the branch. -/
def selectKink (tol cond : F) : F × Side :=
  let c := Elementary.abs cond
  (c - tol, .ofTest (Elementary.lt c tol))

/-- Kink of a cell, from the values in `w`; a smooth cell has none. -/
def Cell.kink? (w : Array F) : Cell F → Option (KinkOp × F × Side)
  | unary op a => if op.isNonsmooth then some (.unary op, unaryKink op (readSlot w a)) else none
  | binary op a b =>
      if op.isNonsmooth then
        some (.binary op, binaryKink op (readSlot w a) (readSlot w b))
      else
        none
  | select tol cond _ => some (.ifElse, selectKink tol (readSlot w cond))
  | _ => none

/-- Kinks of one element. -/
def Segment.kinks (w : Array F) (s : Segment F) : List (Kink F) :=
  s.numbered.filterMap fun (c, k) =>
    (c.kink? w).map fun (op, distance, side) => ⟨s.node, k, op, distance, side⟩

end Rules

/-- All kinks of one evaluation, in tape order. -/
structure Kinks (F : Type) where
  list : List (Kink F)

namespace Kinks

/-- Kinks within `tol` of their switching surface. -/
def active [Elementary F] (ks : Kinks F) (tol : F) : List (Kink F) :=
  ks.list.filter (Kink.isActive tol)

/-- No kink is active. -/
def isSmooth [Elementary F] (ks : Kinks F) (tol : F) : Bool :=
  !ks.list.any (Kink.isActive tol)

/-- The side taken at every kink. -/
def signature (ks : Kinks F) : List Side := ks.list.map Kink.side

end Kinks

/-- Evaluate a tape and record its kinks. -/
def Tape.kinks [Zero F] [One F] [Add F] [Sub F] [Mul F] [Div F] [Elementary F] [Calculus F]
    (f : Tape F) (inputs : List (List F)) : Except Failure (Kinks F) := do
  let op := "nonsmooth"
  orReject (f.checkInputValues op inputs)
  let tape ← f.segments f.full
  let sweep : Run F (Memory F) := do
    f.loadValues op tape inputs
    get
  let m ← sweep.alone (Memory.new ⟨f.full.size, 0, 0⟩)
  return ⟨tape.flatMap (Segment.kinks m.values)⟩

end SparseDiff
