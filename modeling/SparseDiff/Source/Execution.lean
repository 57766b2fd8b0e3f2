import SparseDiff.Source.Program

/-!
# Running exported programs

What the statements of an exported program do, one after the other, when every operator, call,
literal and conditional is read as the operation or the number that it names. Nothing is known
of the work array but its length. Every index into `w`, `arg` and `res` is checked: one outside
of its array fails.
-/

namespace SparseDiff

/-- An entry that has to be there. -/
def inBounds {α : Type} : Option α → Except Failure α
  | some a => .ok a
  | none => .error .outOfBounds

section Values

variable {F α : Type} [Zero F] [One F] [Add F] [Sub F] [Neg F] [Mul F] [Div F] [Elementary F]

/-- The number that a literal without a fraction names. -/
def natural : Nat → F
  | 0 => 0
  | 1 => 1
  | n + 2 => natural (n + 1) + 1

/-- The number that a literal without a fraction names, with its sign. -/
def whole : Int → F
  | .ofNat n => natural n
  | .negSucc n => -natural (n + 1)

/-- The operation that a sign names. -/
def Arith.eval (op : Arith) (a b : F) : F :=
  match op with
  | add => a + b
  | sub => a - b
  | mul => a * b
  | div => a / b

variable (read : α → Except Failure F)

/-- Outcome of a test, where `read` gives the numbers of the leaves. -/
def Condition.outcome : Condition α → Except Failure Bool
  | positive a => do return Elementary.lt 0 (← read a)
  | negative a => do return Elementary.lt (← read a) 0
  | within a tol => do return Elementary.lt (Elementary.abs (← read a)) (← read tol)
  | atMost a b => do return Elementary.le (← read a) (← read b)
  | atLeast a b => do return Elementary.le (← read b) (← read a)

/-- Number of an expression; a conditional runs one of its branches. -/
def Expr.value : Expr α → Except Failure F
  | .leaf a => read a
  | .whole n => .ok (SparseDiff.whole n)
  | negate a => do return -(← value a)
  | arith op a b => do return op.eval (← value a) (← value b)
  | call op a => do return op.eval (← value a)
  | call₂ op a b => do return op.eval (← value a) (← value b)
  | choose cond yes no => do
      if ← cond.outcome read then value yes else value no

end Values

/-- Number of a leaf, with the work array `w`. -/
def Leaf.read {F : Type} (w : Array F) : Leaf F → Except Failure F
  | slot s => inBounds w[s]?
  | literal v => .ok v

/-- The arrays that an exported function writes. -/
structure Machine (F : Type) where
  /-- The work array `w`. -/
  work : Array F
  /-- The output pointers `res`; none is a null pointer. -/
  results : List (Option (Array F))

namespace Machine

variable {F : Type}

/-- The assignment `w[s] = x`. -/
def setSlot (m : Machine F) (s : Nat) (x : F) : Except Failure (Machine F) :=
  if s < m.work.size then
    .ok { m with work := m.work.setIfInBounds s x }
  else
    .error .outOfBounds

/-- The assignment `res[o][k] = x`. -/
def setResult (m : Machine F) (o k : Nat) (x : F) : Except Failure (Machine F) :=
  match m.results[o]? with
  | some (some ys) =>
      if k < ys.size then
        .ok { m with results := m.results.set o (some (ys.setIfInBounds k x)) }
      else
        .error .outOfBounds
  | _ => .error .outOfBounds

/-- The assignments `res[o][k] = w[s]`, for the slots `s` of an output. -/
def store (m : Machine F) (o : Nat) (slots : List Nat) : Except Failure (Machine F) :=
  slots.zipIdx.foldlM (fun m item => do m.setResult o item.2 (← inBounds m.work[item.1]?)) m

end Machine

section Execution

variable {F : Type} [Zero F] [One F] [Add F] [Sub F] [Neg F] [Mul F] [Div F] [Elementary F]

/-- Run a statement on the inputs `arg`. -/
def Statement.run (t : Target) (arg : List (List F)) (m : Machine F) :
    Statement F → Except Failure (Machine F)
  | load slot input nonzero => do
      m.setSlot slot (← inBounds (← inBounds arg[input]?)[nonzero]?)
  | assign slot value => do m.setSlot slot (← value.value (Leaf.read m.work))
  | store o slots =>
      match t with
      | .c => do
          -- a null pointer is skipped
          if (← inBounds m.results[o]?).isSome then m.store o slots else return m
      | .rust => m.store o slots

/-- Run the statements of a program in order. -/
def Program.run (p : Program F) (t : Target) (arg : List (List F)) (m : Machine F) :
    Except Failure (Machine F) :=
  p.body.foldlM (Statement.run t arg) m

end Execution

/-- Length of the work array as the program declares it. -/
def Program.declared {F : Type} (p : Program F) : Target → Nat
  | .c => max p.work 1
  | .rust => p.work

end SparseDiff
