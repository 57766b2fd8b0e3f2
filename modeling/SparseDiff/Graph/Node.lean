import SparseDiff.Op.Binary
import SparseDiff.Op.Unary
import SparseDiff.Pattern.Algebra

/-!
# Nodes of an expression graph

A node is an operation, its operands and the pattern of its value. Operation nodes take
their pattern from their operands; leaves and gathers carry their own.
-/

namespace SparseDiff

/-- Which structural operation a gather stands for; used for printing only. -/
inductive GatherKind where
  | reshape
  | transpose
  | slice
  | horzcat
  | vertcat
  deriving DecidableEq, Repr, Inhabited

namespace GatherKind

def all : List GatherKind := [reshape, transpose, slice, horzcat, vertcat]

def name : GatherKind → String
  | reshape => "reshape"
  | transpose => "transpose"
  | slice => "slice"
  | horzcat => "horzcat"
  | vertcat => "vertcat"

/-- Name of the kind in stored graphs. -/
def tag : GatherKind → String
  | reshape => "Reshape"
  | transpose => "Transpose"
  | slice => "Slice"
  | horzcat => "Horzcat"
  | vertcat => "Vertcat"

def ofTag? (tag : String) : Option GatherKind :=
  all.find? (·.tag == tag)

end GatherKind

/-- Operation carried by a node. -/
inductive NodeKind (F : Type) where
  /-- Leaf bound to a function input. -/
  | symbolic (name : String)
  /-- Leaf with one value per nonzero. -/
  | constant (values : Array F)
  /-- `op a` on every nonzero. -/
  | unary (op : UnaryOp)
  /-- `op a b` on operands of one shape. -/
  | binary (op : BinaryOp)
  /-- `op s m` with a `1 × 1` first operand; without a nonzero it reads as zero. -/
  | scalarMatrix (op : BinaryOp)
  /-- `op m s` with a `1 × 1` second operand. -/
  | matrixScalar (op : BinaryOp)
  /-- Operands `[c, a]`: `a` where `|c| < tol`, zero otherwise. -/
  | ifElse (tol : F)
  /-- Result nonzero `k` is nonzero `map[k].2` of operand `map[k].1`. -/
  | gather (kind : GatherKind) (map : List (Nat × Nat))
  deriving Inhabited

namespace NodeKind

variable {F : Type}

/-- Short name used in messages. -/
def name : NodeKind F → String
  | symbolic _ => "symbolic"
  | constant _ => "constant"
  | unary _ => "unary"
  | binary _ => "binary"
  | scalarMatrix _ => "scalar_matrix"
  | matrixScalar _ => "matrix_scalar"
  | ifElse _ => "if_else"
  | gather kind _ => kind.name

/-- Number of operands; a gather takes any number. -/
def arity? : NodeKind F → Option Nat
  | symbolic _ | constant _ => some 0
  | unary _ => some 1
  | binary _ | scalarMatrix _ | matrixScalar _ | ifElse _ => some 2
  | gather _ _ => none

/-- The kind has no kink and no jump. -/
def isSmooth : NodeKind F → Bool
  | unary op => !op.isNonsmooth
  | binary op | scalarMatrix op | matrixScalar op => !op.isNonsmooth
  | ifElse _ => false
  | _ => true

def isSymbolic : NodeKind F → Bool
  | symbolic _ => true
  | _ => false

/-- The number of operands must be the arity. -/
def checkArity (kind : NodeKind F) (got : Nat) : Except Error Unit :=
  match kind.arity? with
  | none => .ok ()
  | some expected =>
      if expected = got then .ok ()
      else .error (.structural "push_node" (.arityMismatch kind.name expected got))

end NodeKind

/-- One vertex of an expression graph. -/
structure Node (F : Type) where
  kind : NodeKind F
  operands : List NodeId
  pattern : Pattern
  deriving Inhabited

namespace Node

variable {F : Type}

/-- Text of a node; an operand that is not there has the last id. -/
def display [ElementText F] (n : Node F) : String :=
  let operand := fun i => nodeText (n.operands.getD i missingId)
  match n.kind with
  | .symbolic name => name
  | .constant #[v] => ElementText.display v
  | .constant _ => s!"const({n.pattern.display})"
  | .unary op => s!"{op.name}({operand 0})"
  | .binary op | .scalarMatrix op | .matrixScalar op => op.display (operand 0) (operand 1)
  | .ifElse tol =>
      s!"if_else({operand 0}, {operand 1}, tol=" ++ ElementText.display tol ++ ")"
  | .gather kind _ => s!"{kind.name}(" ++ ", ".intercalate (n.operands.map nodeText) ++ ")"

end Node

/-- A broadcast operand must be `1 × 1`. -/
def requireScalar (kind : String) (p : Pattern) : Except Error Unit :=
  if p.isScalar then .ok ()
  else .error (.structural "push_node" (.notScalar kind p.nrow p.ncol p.nnz))

/-- Elementwise operands must have one shape. -/
def requireSameShape (kind : String) (p q : Pattern) : Except Error Unit :=
  if p.shape = q.shape then .ok ()
  else .error (.structural "push_node" (.shapeMismatch kind p.shape q.shape))

/-- The dense pattern of the same shape. -/
def fill (p : Pattern) : Except Error Pattern :=
  if p.isDense then .ok p else Pattern.dense p.nrow p.ncol

/--
Pattern of an operation node from the patterns of its operands. Leaves and gathers have
none to infer, and neither has a node with the wrong number of operands.
-/
def inferPattern {F : Type} (kind : NodeKind F) (operands : List Pattern) :
    Except Error (Option Pattern) :=
  match kind, operands with
  | .unary op, [a] =>
      if op.preservesZero then .ok (some a) else (fill a).map some
  | .binary op, [a, b] => do
      requireSameShape kind.name a b
      if op.preservesZero then
        (a.union b).map some
      else
        (fill a).map some
  | .scalarMatrix _, [s, m] => do
      requireScalar kind.name s
      return some m
  | .matrixScalar _, [m, s] => do
      requireScalar kind.name s
      return some m
  | .ifElse _, [c, a] => do
      requireScalar kind.name c
      return some a
  | _, _ => .ok none

end SparseDiff
