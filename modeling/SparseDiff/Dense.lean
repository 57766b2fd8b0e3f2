import SparseDiff.Matrix

/-!
# Dense matrices

A dense matrix keeps its entries column by column. It is made from a sparse one by writing
the stored entries into zeros, or by tabulating a function of row and column.
-/

namespace SparseDiff

/-- Entries of a matrix; entry `(r, c)` is at position `c * nrow + r`. -/
structure DenseMatrix (F : Type) where
  nrow : Nat
  ncol : Nat
  entries : Array F

namespace DenseMatrix

variable {F : Type}

/-- Entry `(r, c)`, if it lies in the matrix. -/
def get? (m : DenseMatrix F) (r c : Nat) : Option F :=
  if r < m.nrow ∧ c < m.ncol then m.entries[c * m.nrow + r]? else none

/-- Replace entry `(r, c)`. -/
def set (m : DenseMatrix F) (r c : Nat) (v : F) : DenseMatrix F :=
  { m with entries := m.entries.setIfInBounds (c * m.nrow + r) v }

/-- Zeros, overwritten by the stored entries. -/
def ofSparse [Zero F] (m : SparseMatrix F) : DenseMatrix F :=
  m.triplets.foldl (fun dense (r, c, v) => dense.set r c v)
    ⟨m.pattern.nrow, m.pattern.ncol, Array.replicate m.pattern.numel 0⟩

/-- The matrix of a function of row and column. -/
def tabulate (nrow ncol : Nat) (entry : Nat → Nat → F) : DenseMatrix F :=
  ⟨nrow, ncol,
    ((List.range ncol).flatMap fun c => (List.range nrow).map fun r => entry r c).toArray⟩

/-- A sparse matrix read entry by entry from its dense rows. -/
def ofRows [Zero F] (m : SparseMatrix F) : DenseMatrix F :=
  let rows := m.toDense
  tabulate m.pattern.nrow m.pattern.ncol fun r c => (rows.getD r #[]).getD c 0

/-- Row by row. -/
def toRows [Zero F] (m : DenseMatrix F) : List (List F) :=
  (List.range m.nrow).map fun r => (List.range m.ncol).map fun c => (m.get? r c).getD 0

end DenseMatrix

end SparseDiff
