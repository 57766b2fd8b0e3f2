import SparseDiff.Op.Binary
import SparseDiff.Op.Unary

/-!
# What a sweep needs of its numbers

A sweep adds, multiplies and applies the operation tables, tests for zero, and reads the
condition of a select. `Calculus` holds the tables and the tests as plain functions, so
that one sweep serves machine numbers, exact numbers and numbers that carry derivatives
of their own. The low-priority instance takes the tables of the operations.
-/

namespace SparseDiff

/-- Operation tables and tests of a number type. No law is assumed. -/
class Calculus (F : Type) where
  isZero : F → Bool
  isFinite : F → Bool
  /-- The condition of a select lies within the tolerance of zero. -/
  selects : (cond tol : F) → Bool
  unary : UnaryOp → F → F
  /-- First derivative at an operand and the result there. -/
  unaryDerivative : UnaryOp → F → F → F
  /-- Second derivative at an operand and the result there. -/
  unarySecond : UnaryOp → F → F → F
  binary : BinaryOp → F → F → F
  /-- First partials at both operands and the result there. -/
  binaryPartials : BinaryOp → F → F → F → F × F
  /-- Second partials `aa`, `ab`, `bb` at both operands and the result there. -/
  binarySecond : BinaryOp → F → F → F → F × F × F

/-- The tables of the operations. -/
instance (priority := low) Calculus.ofTables {F : Type} [Zero F] [One F] [Add F] [Sub F] [Neg F]
    [Mul F] [Div F] [Elementary F] : Calculus F where
  isZero x := Elementary.eq x 0
  isFinite := Elementary.isFinite
  selects cond tol := Elementary.lt (Elementary.abs cond) tol
  unary := UnaryOp.eval
  unaryDerivative := UnaryOp.derivative
  unarySecond := UnaryOp.secondDerivative
  binary := BinaryOp.eval
  binaryPartials := BinaryOp.partials
  binarySecond := BinaryOp.secondPartials

/--
The product `d * t`, or zero for a zero seed `t`: an infinite partial must not turn an
inactive direction into a NaN.
-/
def seedMul {F : Type} [Zero F] [Mul F] [Calculus F] (d t : F) : F :=
  if Calculus.isZero t then 0 else d * t

end SparseDiff
