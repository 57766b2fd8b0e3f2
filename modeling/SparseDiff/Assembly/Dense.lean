import SparseDiff.Assembly.Hessian
import SparseDiff.Dense

/-!
# Derivatives as dense matrices

Jacobians and Hessians in memories of their own, sized for the directions that the
configuration lets share a sweep, and their dense copies.
-/

namespace SparseDiff

namespace Tape

variable {F : Type} [Zero F] [One F] [Add F] [Mul F] [Calculus F] [ElementWidth F]

/-- Sparse Jacobian in a memory of its own. -/
def jacobianAlone (f : Tape F) (inputs : List (List F)) (o i : Nat) :
    Except Failure (SparseMatrix F) := do
  (f.jacobian inputs o i).alone (← f.allocate f.config.maxDirections f.config.maxDirections)

/-- Sparse Hessian in a memory of its own. -/
def hessianAlone (f : Tape F) (inputs : List (List F)) (o i : Nat) :
    Except Failure (SparseMatrix F) := do
  (f.hessian inputs o i).alone (← f.allocate f.config.maxDirections 1)

/-- Dense Jacobian. -/
def denseJacobian (f : Tape F) (inputs : List (List F)) (o i : Nat) :
    Except Failure (DenseMatrix F) :=
  (f.jacobianAlone inputs o i).map DenseMatrix.ofSparse

/-- Dense Hessian. -/
def denseHessian (f : Tape F) (inputs : List (List F)) (o i : Nat) :
    Except Failure (DenseMatrix F) :=
  (f.hessianAlone inputs o i).map DenseMatrix.ofSparse

end Tape

end SparseDiff
