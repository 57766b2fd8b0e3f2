import SparseDiff.Elementary
import SparseDiff.Pattern.Basic

/-!
# Sparse matrices

A pattern with one value per structural nonzero, and its dense views.
-/

namespace SparseDiff

/-- Values on a pattern, in row-major order. -/
structure SparseMatrix (F : Type) where
  pattern : Pattern
  values : Array F

namespace SparseMatrix

variable {F : Type}

/-- Pair a pattern with its values. -/
def ofValues (pattern : Pattern) (values : Array F) : Except Error (SparseMatrix F) :=
  if values.size ≠ pattern.nnz then
    .error (.mismatch "SparseMatrix::new" .values pattern.nnz values.size)
  else
    .ok ⟨pattern, values⟩

/-- Row, column and value of every stored nonzero. -/
def triplets (m : SparseMatrix F) : List (Nat × Nat × F) :=
  (m.pattern.entries.zip m.values.toList).map fun ((r, c), v) => (r, c, v)

/-- Entry `(r, c)`, zero where nothing is stored; none outside the matrix. -/
def get? [Zero F] (m : SparseMatrix F) (r c : Nat) : Option F :=
  if r < m.pattern.nrow ∧ c < m.pattern.ncol then
    match m.pattern.nzIndex? r c with
    | none => some 0
    | some k => m.values[k]?
  else
    none

/-- Dense copy, row by row: zeros overwritten by the triplets. -/
def toDense [Zero F] (m : SparseMatrix F) : Array (Array F) :=
  m.triplets.foldl
    (fun dense (r, c, v) => dense.modify r (·.setIfInBounds c v))
    (Array.replicate m.pattern.nrow (Array.replicate m.pattern.ncol 0))

/-- One line with the shape and every triplet. -/
def display [ElementText F] (m : SparseMatrix F) : String :=
  let items := m.triplets.map fun (r, c, v) => s!"({r},{c}): " ++ ElementText.display v
  s!"sparse {m.pattern.display} [" ++ ", ".intercalate items ++ "]"

end SparseMatrix

end SparseDiff
