import SparseDiff.Pattern.Basic

/-!
# Algebra of patterns

Union, intersection, product and transpose. Rows are increasing lists, so the union
of two rows is a merge. A product marks the columns that a row of it already has, and
the transpose sorts the nonzeros by column, counting them first.
-/

namespace SparseDiff

namespace Pattern

/-- Union of two increasing lists. -/
def mergeRows : List Nat → List Nat → List Nat
  | [], bs => bs
  | a :: as, [] => a :: as
  | a :: as, b :: bs =>
      if a < b then a :: mergeRows as (b :: bs)
      else if b < a then b :: mergeRows (a :: as) bs
      else a :: mergeRows as bs
termination_by as bs => as.length + bs.length

/-- The second pattern must have the shape of the first. -/
def checkSameShape (op : String) (p q : Pattern) : Except Error Unit :=
  if p.shape ≠ q.shape then
    .error (.mismatch op (.shapes q.shape p.shape) p.numel q.numel)
  else
    .ok ()

/-- Entries nonzero in either pattern. -/
def union (p q : Pattern) : Except Error Pattern := do
  checkSameShape "Sparsity::union" p q
  return ⟨p.ncol, p.rows.zipWith mergeRows q.rows⟩

/-- Entries nonzero in both patterns. -/
def inter (p q : Pattern) : Except Error Pattern := do
  checkSameShape "Sparsity::intersection" p q
  return ⟨p.ncol, p.rows.zipWith (fun a b => a.filter b.contains) q.rows⟩

/-- Where the nonzeros of every column start in the order of columns, and where they end. -/
def columnStarts (p : Pattern) : Array Nat :=
  let counts := p.columns.foldl (fun counts c => counts.modify c (· + 1))
    (Array.replicate p.ncol 0)
  (runningTotals 0 counts.toList).toArray

/-- Nonzeros put in the order of columns, and the next free place of every column. -/
structure Placed where
  next : Array Nat
  slots : Array (Nat × Nat)

/-- A nonzero of column `c` takes the next place of its column. -/
def Placed.add : Placed → Nat × (Nat × Nat) → Placed
  | ⟨next, slots⟩, (c, item) =>
      let slot := next.getD c 0
      ⟨next.modify c (· + 1), slots.setIfInBounds slot item⟩

/-- Column of every nonzero, with its row and its number. -/
def byRow (p : Pattern) : List (Nat × (Nat × Nat)) :=
  p.entries.zipIdx.map fun ((r, c), k) => (c, (r, k))

/-- Nonzeros of every column: row and nonzero number, from the top down. -/
def byColumn (p : Pattern) : Array (List (Nat × Nat)) :=
  let starts := p.columnStarts
  let placed := p.byRow.foldl Placed.add ⟨starts, Array.replicate p.nnz (0, 0)⟩
  (Array.range p.ncol).map fun c =>
    (placed.slots.extract (starts.getD c 0) (starts.getD (c + 1) 0)).toList

/-- Rows and columns exchanged. -/
def transpose (p : Pattern) : Pattern :=
  ⟨p.nrow, p.byColumn.map fun col => col.map Prod.fst⟩

/-- For every nonzero `(c, r)` of the transpose, the number of `(r, c)`. -/
def transposeMap (p : Pattern) : List Nat :=
  p.byColumn.toList.flatMap fun col => col.map Prod.snd

/-- The last row of a product that met each column, and the columns that this row has so far. -/
structure Marked where
  marks : Array (Option Nat)
  columns : Array Nat

/-- Row `r` takes up a column, unless it already has. -/
def Marked.add (r : Nat) : Marked → Nat → Marked
  | ⟨marks, columns⟩, c =>
      if marks.getD c none = some r then
        ⟨marks, columns⟩
      else
        ⟨marks.setIfInBounds c (some r), columns.push c⟩

/-- The marks after row `r`, and the columns of all rows of `q` that `ks` names. -/
def collectRow (q : Pattern) (marks : Array (Option Nat)) (r : Nat) (ks : List Nat) : Marked :=
  ks.foldl (fun found k => (q.row k).foldl (Marked.add r) found) ⟨marks, #[]⟩

/-- Rows of a product from row `r` on; marks of earlier rows are never cleared. -/
def productRows (q : Pattern) (marks : Array (Option Nat)) (r : Nat) :
    List (List Nat) → List (List Nat)
  | [] => []
  | ks :: rest =>
      let found := collectRow q marks r ks
      found.columns.toList.mergeSort :: productRows q found.marks (r + 1) rest

/-- Pattern of a matrix product: a row is the union of the rows that its columns name. -/
def product (p q : Pattern) : Except Error Pattern := do
  let op := "Sparsity::product"
  if p.ncol ≠ q.nrow then
    throw (.mismatch op .innerDimension p.ncol q.nrow)
  checkShape op p.nrow q.ncol
  let rows := productRows q (Array.replicate q.ncol none) 0 p.rows.toList
  checked op ⟨q.ncol, rows.toArray⟩

/--
For every column of `cols`, its place in the increasing list `others`, counted from
`start`, or none.
-/
def alignRow (start : Nat) : List Nat → List Nat → List (Option Nat)
  | [], _ => []
  | c :: cols, others =>
      let below := others.takeWhile (· < c)
      let rest := others.dropWhile (· < c)
      let place := start + below.length
      (if rest.head? = some c then some place else none) :: alignRow place cols rest

/--
For every nonzero of `p`, the number of the nonzero of `q` at the same entry, or none
where `q` has none there. The shapes are the same.
-/
def nonzeroMap (p q : Pattern) : List (Option Nat) :=
  ((p.rows.toList.zip q.rows.toList).zip q.rowPtr).flatMap fun ((cols, others), start) =>
    alignRow start cols others

end Pattern

end SparseDiff
