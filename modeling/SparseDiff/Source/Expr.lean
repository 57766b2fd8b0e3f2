import SparseDiff.Op.Binary
import SparseDiff.Op.Unary

/-!
# Source expressions

Operations as expressions of a target language. The two languages differ in the functions
that they offer: C has no reciprocal but a minimum and a maximum, Rust the reverse; so each
operation has one expression per target. An expression prints to text, given the texts of
its leaves.
-/

namespace SparseDiff

/-- Language of exported source. -/
inductive Target where
  | c
  | rust
  deriving DecidableEq, Repr, Inhabited

namespace Target

def all : List Target := [c, rust]

/-- Name of the target in requests. -/
def tag : Target → String
  | c => "C"
  | rust => "Rust"

def ofTag? (tag : String) : Option Target := all.find? (·.tag == tag)

end Target

/-- Tests on leaves. -/
inductive Condition (α : Type) where
  | positive (a : α)
  | negative (a : α)
  /-- The magnitude of `a` is below `tol`. -/
  | within (a tol : α)
  | atMost (a b : α)
  | atLeast (a b : α)
  deriving DecidableEq, Repr

/-- Expressions over leaves of type `α`. -/
inductive Expr (α : Type) where
  | leaf (a : α)
  | whole (n : Int)
  | negate (a : Expr α)
  | arith (op : Arith) (a b : Expr α)
  /-- The function of an operation, by its name in the target. -/
  | call (op : UnaryOp) (a : Expr α)
  | call₂ (op : BinaryOp) (a b : Expr α)
  | choose (cond : Condition α) (yes no : Expr α)
  deriving DecidableEq, Repr

/-- Expression of a unary operation on a leaf. -/
def UnaryOp.expr {α : Type} (op : UnaryOp) (t : Target) (a : α) : Expr α :=
  match op, t with
  | .neg, _ => .negate (.leaf a)
  | .sq, _ => .arith .mul (.leaf a) (.leaf a)
  | .recip, .c => .arith .div (.whole 1) (.leaf a)
  | .sign, _ => .choose (.positive a) (.whole 1) (.choose (.negative a) (.whole (-1)) (.whole 0))
  | op, _ => .call op (.leaf a)

/-- Expression of a binary operation on two leaves. -/
def BinaryOp.expr {α : Type} (op : BinaryOp) (t : Target) (a b : α) : Expr α :=
  match op.arith?, op, t with
  | some s, _, _ => .arith s (.leaf a) (.leaf b)
  | none, .min, .rust => .choose (.atMost a b) (.leaf a) (.leaf b)
  | none, .max, .rust => .choose (.atLeast a b) (.leaf a) (.leaf b)
  | none, op, _ => .call₂ op (.leaf a) (.leaf b)

/-- Name of a unary function as a method. -/
def UnaryOp.method : UnaryOp → String
  | .ln => "ln"
  | .abs => "abs"
  | op => op.name

/-- Name of a binary function as a method. -/
def BinaryOp.method : BinaryOp → String
  | .pow => "powf"
  | .min => "min"
  | .max => "max"
  | op => op.name

namespace Condition

variable {α : Type}

def cText (leaf : α → String) : Condition α → String
  | positive a => leaf a ++ ">0"
  | negative a => leaf a ++ "<0"
  | within a tol => "fabs(" ++ leaf a ++ ") < " ++ leaf tol
  | atMost a b => leaf a ++ " <= " ++ leaf b
  | atLeast a b => leaf a ++ " >= " ++ leaf b

def rustText (leaf : α → String) : Condition α → String
  | positive a => leaf a ++ " > 0.0"
  | negative a => leaf a ++ " < 0.0"
  | within a tol => leaf a ++ ".abs() < " ++ leaf tol
  | atMost a b => leaf a ++ " <= " ++ leaf b
  | atLeast a b => leaf a ++ " >= " ++ leaf b

end Condition

/-- A whole number with a point. -/
def wholeText (n : Int) : String := s!"{n}.0"

/-- Text in parentheses. -/
def parens (text : String) : String := "(" ++ text ++ ")"

/-- Text in braces. -/
def braces (text : String) : String := "\x7b " ++ text ++ " \x7d"

namespace Expr

variable {α : Type}

def cText (leaf : α → String) : Expr α → String
  | .leaf a => leaf a
  | whole n => wholeText n
  | negate a => parens ("-" ++ cText leaf a)
  | arith op a b => parens (cText leaf a ++ op.symbol ++ cText leaf b)
  | call op a => op.name ++ parens (cText leaf a)
  | call₂ op a b => op.name ++ parens (cText leaf a ++ ", " ++ cText leaf b)
  | choose cond yes no =>
      parens (cond.cText leaf ++ " ? " ++ cText leaf yes ++ " : " ++ cText leaf no)

/-- Text of an expression; as the last branch of a conditional it continues the chain. -/
def rustText (leaf : α → String) (last : Bool) : Expr α → String
  | choose cond yes no =>
      let text := "if " ++ cond.rustText leaf ++ " " ++ braces (rustText leaf false yes) ++
        " else " ++ rustText leaf true no
      if last then text else parens text
  | .leaf a => closed (leaf a)
  | whole n => closed (wholeText n)
  | negate a => closed (parens ("-" ++ rustText leaf false a))
  | arith op a b =>
      closed (parens (rustText leaf false a ++ " " ++ op.symbol ++ " " ++ rustText leaf false b))
  | call op a => closed (rustText leaf false a ++ "." ++ op.method ++ "()")
  | call₂ op a b =>
      closed (rustText leaf false a ++ "." ++ op.method ++ parens (rustText leaf false b))
where
  closed (text : String) : String := if last then braces text else text

/-- Text of an expression in a target language. -/
def text (t : Target) (leaf : α → String) (e : Expr α) : String :=
  match t with
  | .c => e.cText leaf
  | .rust => e.rustText leaf false

end Expr

end SparseDiff
