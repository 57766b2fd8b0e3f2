import SparseDiff.Elementary

/-!
# Unary elementwise operations

Each operation has a value, a first derivative and a second derivative, all as
functions of the operand `a` and, where that is cheaper, of the result `r`. The
structural flags tell which patterns and dependencies the operation keeps.
-/

namespace SparseDiff

/-- Unary elementwise operations. -/
inductive UnaryOp where
  | neg
  | recip
  | sq
  | sqrt
  | exp
  | ln
  | sin
  | cos
  | tan
  | asin
  | acos
  | atan
  | sinh
  | cosh
  | tanh
  | abs
  | sign
  | floor
  | ceil
  deriving DecidableEq, Repr

/-- `-1`, `0` or `1`; a NaN passes through and both zeros give `0`. -/
def sign {F : Type} [Zero F] [One F] [Neg F] [Elementary F] (a : F) : F :=
  if Elementary.lt 0 a then 1
  else if Elementary.lt a 0 then -1
  else if Elementary.isNaN a then a
  else 0

namespace UnaryOp

/-- All operations, in declaration order. -/
def all : List UnaryOp :=
  [neg, recip, sq, sqrt, exp, ln, sin, cos, tan, asin, acos, atan, sinh, cosh, tanh,
    abs, sign, floor, ceil]

/-- Function name as printed and exported. -/
def name : UnaryOp → String
  | neg => "neg"
  | recip => "recip"
  | sq => "sq"
  | sqrt => "sqrt"
  | exp => "exp"
  | ln => "log"
  | sin => "sin"
  | cos => "cos"
  | tan => "tan"
  | asin => "asin"
  | acos => "acos"
  | atan => "atan"
  | sinh => "sinh"
  | cosh => "cosh"
  | tanh => "tanh"
  | abs => "fabs"
  | sign => "sign"
  | floor => "floor"
  | ceil => "ceil"

/-- Name of the operation in stored graphs. -/
def tag : UnaryOp → String
  | neg => "Neg"
  | recip => "Recip"
  | sq => "Sq"
  | sqrt => "Sqrt"
  | exp => "Exp"
  | ln => "Ln"
  | sin => "Sin"
  | cos => "Cos"
  | tan => "Tan"
  | asin => "Asin"
  | acos => "Acos"
  | atan => "Atan"
  | sinh => "Sinh"
  | cosh => "Cosh"
  | tanh => "Tanh"
  | abs => "Abs"
  | sign => "Sign"
  | floor => "Floor"
  | ceil => "Ceil"

def ofTag? (tag : String) : Option UnaryOp :=
  all.find? (·.tag == tag)

/-- The operation maps `0` to `0`, so the result keeps the operand's pattern. -/
def preservesZero : UnaryOp → Bool
  | recip | exp | ln | cos | acos | cosh => false
  | _ => true

/-- The second derivative is not identically zero. -/
def isNonlinear : UnaryOp → Bool
  | neg | abs | sign | floor | ceil => false
  | _ => true

/-- The operation has a kink or a jump. -/
def isNonsmooth : UnaryOp → Bool
  | abs | sign | floor | ceil => true
  | _ => false

/-- The derivative is identically zero, so the result depends on no operand. -/
def hasZeroDerivative : UnaryOp → Bool
  | sign | floor | ceil => true
  | _ => false

section Tables

variable {F : Type} [Zero F] [One F] [Add F] [Sub F] [Neg F] [Mul F] [Div F] [Elementary F]

/-- Value at operand `a`. -/
def eval (op : UnaryOp) (a : F) : F :=
  match op with
  | neg => -a
  | recip => 1 / a
  | sq => a * a
  | sqrt => Elementary.sqrt a
  | exp => Elementary.exp a
  | ln => Elementary.log a
  | sin => Elementary.sin a
  | cos => Elementary.cos a
  | tan => Elementary.tan a
  | asin => Elementary.asin a
  | acos => Elementary.acos a
  | atan => Elementary.atan a
  | sinh => Elementary.sinh a
  | cosh => Elementary.cosh a
  | tanh => Elementary.tanh a
  | abs => Elementary.abs a
  | sign => SparseDiff.sign a
  | floor => Elementary.floor a
  | ceil => Elementary.ceil a

/-- First derivative at operand `a` with result `r`. -/
def derivative (op : UnaryOp) (a r : F) : F :=
  let two : F := 1 + 1
  match op with
  | neg => -1
  | recip => -r * r
  | sq => two * a
  | sqrt => 1 / (two * r)
  | exp => r
  | ln => 1 / a
  | sin => Elementary.cos a
  | cos => -Elementary.sin a
  | tan => 1 + r * r
  | asin => 1 / Elementary.sqrt (1 - a * a)
  | acos => -1 / Elementary.sqrt (1 - a * a)
  | atan => 1 / (1 + a * a)
  | sinh => Elementary.cosh a
  | cosh => Elementary.sinh a
  | tanh => 1 - r * r
  | abs => SparseDiff.sign a
  | sign | floor | ceil => 0

/-- Second derivative at operand `a` with result `r`. -/
def secondDerivative (op : UnaryOp) (a r : F) : F :=
  let two : F := 1 + 1
  match op with
  | neg | abs | sign | floor | ceil => 0
  | recip => two * r * r * r
  | sq => two
  | sqrt => -1 / (two * two * r * r * r)
  | exp => r
  | ln => -1 / (a * a)
  | sin => -r
  | cos => -r
  | tan => two * r * (1 + r * r)
  | asin =>
      let s : F := 1 - a * a;
      a / (s * Elementary.sqrt s)
  | acos =>
      let s : F := 1 - a * a;
      -a / (s * Elementary.sqrt s)
  | atan =>
      let s : F := 1 + a * a;
      -two * a / (s * s)
  | sinh => r
  | cosh => r
  | tanh => -two * r * (1 - r * r)

end Tables

end UnaryOp

end SparseDiff
