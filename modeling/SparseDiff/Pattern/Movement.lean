import SparseDiff.Pattern.Basic

/-!
# Movement of nonzeros

Submatrices, reshaping and concatenation. Each result nonzero stands for exactly one
nonzero of an operand; the maps list these in the numbering of the result.
-/

namespace SparseDiff

namespace Pattern

/-- New columns that take each old column, from the left. -/
def takers (ncol : Nat) (cols : List Nat) : Array (List Nat) := sortInto ncol cols.zipIdx

/--
New columns that take something from a row, each with the nonzero that it takes; `start` numbers
the first nonzero of the row.
-/
def selectRow (takers : Array (List Nat)) (start : Nat) (row : List Nat) : List (Nat × Nat) :=
  let taken := (row.zipIdx start).flatMap fun (c, k) => (takers.getD c []).map fun j => (j, k)
  taken.mergeSort inOrder

/-- The selected part of every row of the submatrix at `rows × cols`. -/
def selection (p : Pattern) (rows cols : List Nat) : List (List (Nat × Nat)) :=
  let starts := p.rowPtr.toArray
  let takers := takers p.ncol cols
  rows.map fun r => selectRow takers (starts.getD r 0) (p.row r)

/--
Submatrix at `rows × cols`, which may repeat and come in any order, with the nonzero
that each of its nonzeros is taken from.
-/
def sub (p : Pattern) (rows cols : List Nat) : Except Error (Pattern × List Nat) := do
  let op := "Sparsity::sub"
  if let some r := rows.find? (p.nrow ≤ ·) then
    throw (.outOfRange op "row" r p.nrow)
  if let some c := cols.find? (p.ncol ≤ ·) then
    throw (.outOfRange op "column" c p.ncol)
  checkShape op rows.length cols.length
  let parts := p.selection rows cols
  let result ← checked op ⟨cols.length, (parts.map fun row => row.map Prod.fst).toArray⟩
  return (result, parts.flatMap fun row => row.map Prod.snd)

/-- The same entries read as `nrow × ncol` in row-major order; the numbering stays. -/
def reshape (p : Pattern) (nrow ncol : Nat) : Except Error Pattern := do
  let op := "Sparsity::reshape"
  checkShape op nrow ncol
  if nrow * ncol ≠ p.numel then
    throw (.mismatch op .elementCount p.numel (nrow * ncol))
  let moved := p.entries.map fun (r, c) =>
    let l := r * p.ncol + c
    (l / ncol, l % ncol)
  return ofSortedEntries nrow ncol moved

/-- Row `r` of the parts side by side, the first part starting at column `offset`. -/
def joinRow (r : Nat) (offset : Nat) : List Pattern → List Nat
  | [] => []
  | p :: parts => (p.row r).map (· + offset) ++ joinRow r (offset + p.ncol) parts

/-- Patterns side by side; all have the rows of the first. -/
def horzcat (parts : List Pattern) : Except Error Pattern := do
  let op := "Sparsity::horzcat"
  let nrow := (parts.head?.map nrow).getD 0
  if let some p := parts.find? (·.nrow ≠ nrow) then
    throw (.mismatch op .rowCount nrow p.nrow)
  let ncol := total (parts.map Pattern.ncol)
  checkShape op nrow ncol
  checked op ⟨ncol, ((List.range nrow).map fun r => joinRow r 0 parts).toArray⟩

/-- Patterns on top of each other; all have the columns of the first. -/
def vertcat (parts : List Pattern) : Except Error Pattern := do
  let op := "Sparsity::vertcat"
  let ncol := (parts.head?.map Pattern.ncol).getD 0
  if let some p := parts.find? (·.ncol ≠ ncol) then
    throw (.mismatch op .columnCount ncol p.ncol)
  checkShape op (total (parts.map nrow)) ncol
  checked op ⟨ncol, (parts.flatMap fun p => p.rows.toList).toArray⟩

end Pattern

end SparseDiff
