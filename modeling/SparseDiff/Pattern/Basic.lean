import SparseDiff.Error

/-!
# Sparsity patterns

A pattern says which entries of a matrix are structurally nonzero. It keeps, for
every row, the increasing list of its nonzero columns. Nonzeros are numbered in
row-major order, and this numbering is the layout of every list of values.

The compressed form (row pointers and one list of columns) is a view of a pattern;
`ofCompressed` is the checked way back.
-/

namespace SparseDiff

/-- Structural nonzeros of a matrix: the columns of every row. -/
structure Pattern where
  ncol : Nat
  rows : Array (List Nat)
  deriving DecidableEq, Repr, Inhabited

/-- Sum of a list of numbers. -/
def total (ns : List Nat) : Nat := ns.foldr (· + ·) 0

/-- The totals before each item, and the grand total at the end. -/
def runningTotals (start : Nat) : List Nat → List Nat
  | [] => [start]
  | n :: rest => start :: runningTotals (start + n) rest

/-- Sort items into `n` numbered lists; the order within a list is kept. -/
def sortInto {α : Type} (n : Nat) (items : List (Nat × α)) : Array (List α) :=
  items.foldr
    (fun item lists => lists.modify item.1 (item.2 :: ·))
    (Array.replicate n [])

namespace Pattern

section Views

variable (p : Pattern)

def nrow : Nat := p.rows.size

def shape : Nat × Nat := (p.nrow, p.ncol)

/-- Number of structural nonzeros. -/
def nnz : Nat := total (p.rows.toList.map List.length)

/-- Number of entries, zero or not. -/
def numel : Nat := p.nrow * p.ncol

/-- Every entry is structurally nonzero. -/
def isDense : Bool := p.nnz == p.numel

/-- A `1 × 1` pattern, with or without its nonzero. -/
def isScalar : Bool := p.nrow == 1 && p.ncol == 1

def isDenseScalar : Bool := p.isScalar && p.nnz == 1

/-- Columns of row `r`; none outside the pattern. -/
def row (r : Nat) : List Nat := p.rows.getD r []

/-- Number of the first nonzero of every row, and at the end the number of nonzeros. -/
def rowPtr : List Nat := runningTotals 0 (p.rows.toList.map List.length)

/-- Column of every nonzero. -/
def columns : List Nat := p.rows.toList.flatten

/-- Row and column of every nonzero, in row-major order. -/
def entries : List (Nat × Nat) :=
  p.rows.toList.zipIdx.flatMap fun (cols, r) => cols.map fun c => (r, c)

/-- Row of every nonzero. -/
def rowIndices : List Nat := p.entries.map Prod.fst

/-- Number of the first nonzero of row `r`. -/
def rowStart (r : Nat) : Nat := total ((p.rows.toList.take r).map List.length)

/-- Number of the nonzero at entry `(r, c)`, if there is one. -/
def nzIndex? (r c : Nat) : Option Nat :=
  if r < p.nrow ∧ c < p.ncol then
    ((p.row r).idxOf? c).map (p.rowStart r + ·)
  else
    none

def hasNonzero (r c : Nat) : Bool := (p.nzIndex? r c).isSome

/-- Shape, and the number of nonzeros unless every entry is one. -/
def display : String :=
  if p.isDense then s!"{p.nrow}x{p.ncol}" else s!"{p.nrow}x{p.ncol},{p.nnz}nz"

end Views

/-- Columns increase along every row and stay inside the pattern. -/
structure WellFormed (p : Pattern) : Prop where
  increasing : ∀ cols ∈ p.rows.toList, cols.Pairwise (· < ·)
  bounded : ∀ cols ∈ p.rows.toList, ∀ c ∈ cols, c < p.ncol

/-- Both dimensions and the number of nonzeros stay within the index range. -/
structure Indexable (p : Pattern) : Prop where
  nrow_le : p.nrow ≤ maxIndex
  ncol_le : p.ncol ≤ maxIndex
  nnz_le : p.nnz ≤ maxIndex

/-- Both dimensions must fit the index range; the row count is checked first. -/
def checkShape (op : String) (nrow ncol : Nat) : Except Error Unit :=
  if maxIndex < nrow then
    .error (.dimension op (.tooLarge "row count" nrow maxIndex))
  else if maxIndex < ncol then
    .error (.dimension op (.tooLarge "column count" ncol maxIndex))
  else
    .ok ()

/-- The number of nonzeros must fit the index range. -/
def checkCount (op : String) (nnz : Nat) : Except Error Unit :=
  if maxIndex < nnz then
    .error (.dimension op (.tooLarge "nonzero count" nnz maxIndex))
  else
    .ok ()

/-- A pattern is handed out only if its shape and its count fit the index range. -/
def checked (op : String) (p : Pattern) : Except Error Pattern := do
  checkShape op p.nrow p.ncol
  checkCount op p.nnz
  return p

/-- Columns of one stored row: each in range and above the one before. -/
def checkColumns (op : String) (ncol r : Nat) : Option Nat → List Nat → Except Error Unit
  | _, [] => .ok ()
  | before?, c :: rest =>
      if ncol ≤ c then
        .error (.outOfRange op "column" c ncol)
      else
        match before? with
        | some before =>
            if c ≤ before then
              .error (.mismatch op (.increasingColumns r) (before + 1) c)
            else
              checkColumns op ncol r (some c) rest
        | none => checkColumns op ncol r (some c) rest

/--
Cut a column list at the row pointers. `low` is the pointer before `pointers`,
`rest` the columns from there on, `total` the length of the whole list.
-/
def cutRows (op : String) (ncol total r low : Nat) (rest : List Nat) :
    List Nat → Except Error (List (List Nat))
  | [] => .ok []
  | high :: pointers =>
      if high < low ∨ total < high then
        .error (.outOfRange op "row pointer" high (total + 1))
      else do
        let cols := rest.take (high - low)
        checkColumns op ncol r none cols
        let rows ← cutRows op ncol total (r + 1) high (rest.drop (high - low)) pointers
        return cols :: rows

/-- Build from compressed arrays, checking everything that a pattern promises. -/
def ofCompressed (nrow ncol : Nat) (rowPtr columns : List Nat) : Except Error Pattern := do
  let op := "Sparsity::from_crs"
  checkShape op nrow ncol
  checkCount op columns.length
  if rowPtr.length ≠ nrow + 1 then
    throw (.mismatch op .rowPointerLength (nrow + 1) rowPtr.length)
  let first := rowPtr.headD 0
  if first ≠ 0 then
    throw (.mismatch op .firstRowPointer 0 first)
  let last := rowPtr.getLastD 0
  if last ≠ columns.length then
    throw (.mismatch op .lastRowPointer columns.length last)
  let rows ← cutRows op ncol columns.length 0 0 columns rowPtr.tail
  return ⟨ncol, rows.toArray⟩

/-- Every coordinate must lie in the shape; the first offender is reported. -/
def checkTriplets (op : String) (nrow ncol : Nat) : List (Nat × Nat) → Except Error Unit
  | [] => .ok ()
  | (r, c) :: rest =>
      if nrow ≤ r then .error (.outOfRange op "row" r nrow)
      else if ncol ≤ c then .error (.outOfRange op "column" c ncol)
      else checkTriplets op nrow ncol rest

/-- Pairs are ordered by the first item and then by the second. -/
def inOrder (a b : Nat × Nat) : Bool := a.1 < b.1 ∨ a.1 = b.1 ∧ a.2 ≤ b.2

/-- Coordinates in row-major order, each of them once. -/
def distinctEntries (entries : List (Nat × Nat)) : List (Nat × Nat) :=
  (entries.mergeSort inOrder).eraseReps

/-- Build from entries in row-major order, none of them repeated. -/
def ofSortedEntries (nrow ncol : Nat) (entries : List (Nat × Nat)) : Pattern :=
  ⟨ncol, sortInto nrow entries⟩

/-- Build from coordinates in any order; repeated coordinates count once. -/
def ofTriplets (nrow ncol : Nat) (rows cols : List Nat) : Except Error Pattern := do
  let op := "Sparsity::from_triplets"
  checkShape op nrow ncol
  if rows.length ≠ cols.length then
    throw (.mismatch op .columnList rows.length cols.length)
  checkTriplets op nrow ncol (rows.zip cols)
  let entries := distinctEntries (rows.zip cols)
  checkCount op entries.length
  return ofSortedEntries nrow ncol entries

/-- Every entry is nonzero. -/
def dense (nrow ncol : Nat) : Except Error Pattern := do
  let op := "Sparsity::dense"
  checkShape op nrow ncol
  checkCount op (nrow * ncol)
  return ⟨ncol, Array.replicate nrow (List.range ncol)⟩

/-- No entry is nonzero. -/
def empty (nrow ncol : Nat) : Except Error Pattern := do
  checkShape "Sparsity::empty" nrow ncol
  return ⟨ncol, Array.replicate nrow []⟩

/-- Dense `1 × 1` pattern. -/
def scalar : Pattern := ⟨1, #[[0]]⟩

/-- Dense column of length `n`. -/
def column (n : Nat) : Except Error Pattern := dense n 1

/-- Diagonal pattern of order `n`. -/
def diagonal (n : Nat) : Except Error Pattern := do
  checkShape "Sparsity::diagonal" n n
  return ⟨n, ((List.range n).map fun i => [i]).toArray⟩

end Pattern

end SparseDiff
