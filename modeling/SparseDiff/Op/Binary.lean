import SparseDiff.Elementary

/-!
# Binary elementwise operations

Values, first partials and second partials of the binary operations, with the
flags that tell which patterns and second-order interactions they produce.
-/

namespace SparseDiff

/-- Binary elementwise operations. -/
inductive BinaryOp where
  | add
  | sub
  | mul
  | div
  | pow
  | atan2
  | min
  | max
  deriving DecidableEq, Repr

/-- The four operations that are written with a sign. -/
inductive Arith where
  | add
  | sub
  | mul
  | div
  deriving DecidableEq, Repr

def Arith.symbol : Arith → String
  | add => "+"
  | sub => "-"
  | mul => "*"
  | div => "/"

/-- Which second partials of a binary operation are structurally nonzero. -/
structure SecondOrder where
  aa : Bool
  ab : Bool
  bb : Bool
  deriving DecidableEq, Repr

namespace BinaryOp

/-- All operations, in declaration order. -/
def all : List BinaryOp := [add, sub, mul, div, pow, atan2, min, max]

/-- Function name as printed and exported. -/
def name : BinaryOp → String
  | add => "add"
  | sub => "sub"
  | mul => "mul"
  | div => "div"
  | pow => "pow"
  | atan2 => "atan2"
  | min => "fmin"
  | max => "fmax"

/-- Name of the operation in stored graphs. -/
def tag : BinaryOp → String
  | add => "Add"
  | sub => "Sub"
  | mul => "Mul"
  | div => "Div"
  | pow => "Pow"
  | atan2 => "Atan2"
  | min => "Min"
  | max => "Max"

def ofTag? (tag : String) : Option BinaryOp :=
  all.find? (·.tag == tag)

/-- The arithmetic operations among the binary ones. -/
def arith? : BinaryOp → Option Arith
  | add => some .add
  | sub => some .sub
  | mul => some .mul
  | div => some .div
  | _ => none

/-- Sign between the operands of an arithmetic operation. -/
def symbol? (op : BinaryOp) : Option String := op.arith?.map Arith.symbol

/-- Text of the operation on two operand texts. -/
def display (op : BinaryOp) (a b : String) : String :=
  match op.symbol? with
  | some s => s!"({a}{s}{b})"
  | none => s!"{op.name}({a}, {b})"

/-- The operation maps `(0, 0)` to `0`, so the result lies in the union of the patterns. -/
def preservesZero : BinaryOp → Bool
  | div | pow => false
  | _ => true

/-- Structurally nonzero second partials. -/
def secondOrder : BinaryOp → SecondOrder
  | add | sub | min | max => ⟨false, false, false⟩
  | mul => ⟨false, true, false⟩
  | div => ⟨false, true, true⟩
  | pow | atan2 => ⟨true, true, true⟩

/-- The operation has a kink. -/
def isNonsmooth : BinaryOp → Bool
  | min | max => true
  | _ => false

section Tables

variable {F : Type} [Zero F] [One F] [Add F] [Sub F] [Neg F] [Mul F] [Div F] [Elementary F]

/-- Value at operands `a`, `b`. -/
def eval (op : BinaryOp) (a b : F) : F :=
  match op with
  | add => a + b
  | sub => a - b
  | mul => a * b
  | div => a / b
  | pow => Elementary.pow a b
  | atan2 => Elementary.atan2 a b
  | min => if Elementary.le a b then a else b
  | max => if Elementary.le b a then a else b

/--
First partials in `a` and `b`, at operands `a`, `b` with result `r`. The partial
of a power in its exponent exists for a positive base only; the partials of
`atan2` are zero at the origin.
-/
def partials (op : BinaryOp) (a b r : F) : F × F :=
  match op with
  | add => (1, 1)
  | sub => (1, -1)
  | mul => (b, a)
  | div =>
      let inv := 1 / b
      (inv, -r * inv)
  | pow =>
      (b * Elementary.pow a (b - 1), if Elementary.lt 0 a then r * Elementary.log a else 0)
  | atan2 =>
      let d := a * a + b * b
      if Elementary.eq d 0 then (0, 0) else (b / d, -a / d)
  | min => if Elementary.le a b then (1, 0) else (0, 1)
  | max => if Elementary.le b a then (1, 0) else (0, 1)

/-- Second partials `aa`, `ab` and `bb`, at operands `a`, `b` with result `r`. -/
def secondPartials (op : BinaryOp) (a b r : F) : F × F × F :=
  let two : F := 1 + 1
  match op with
  | add | sub | min | max => (0, 0, 0)
  | mul => (0, 1, 0)
  | div =>
      let inv := 1 / b
      (0, -inv * inv, two * r * inv * inv)
  | pow =>
      let aa := b * (b - 1) * Elementary.pow a (b - two)
      if Elementary.lt 0 a then
        let log := Elementary.log a
        (aa, Elementary.pow a (b - 1) * (1 + b * log), r * log * log)
      else
        (aa, Elementary.pow a (b - 1), 0)
  | atan2 =>
      let d := a * a + b * b
      if Elementary.eq d 0 then
        (0, 0, 0)
      else
        let d2 := d * d
        (-two * a * b / d2, (a * a - b * b) / d2, two * a * b / d2)

end Tables

end BinaryOp

end SparseDiff
