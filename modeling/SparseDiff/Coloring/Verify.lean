import SparseDiff.Coloring.Basic
import SparseDiff.Pattern.Algebra

/-!
# Verification of colorings

A compressed entry can be recovered only if no other entry of its row (in the adjoint
half: of its column) is summed into the same place. The checks report the first entry
for which this fails: the forward half goes through the entries row by row, the adjoint
half column by column. One table of marks serves all lines of a half.
-/

namespace SparseDiff

namespace Coloring

/-- For every color the row or column, whichever is checked, that used it last. -/
abbrev Marks := Array (Option Nat)

/--
Use color `k` for entry `(r, c)` of row or column `line`, which may use each color once.
Marks are never cleared: those of other lines are stale.
-/
def useColor (op : String) (r c line k : Nat) (marks : Marks) : Except Failure Marks :=
  match marks[k]? with
  | none => .error .outOfBounds
  | some last =>
      if last = some line then
        .error (.rejected (.collision op r c (some k)))
      else
        .ok (marks.setIfInBounds k (some line))

/-- Column `col` of row `r` must have a color that is new to the row. -/
def checkEntry (op : String) (c : Coloring) (r : Nat) (marks : Marks) (col : Nat) :
    Except Failure Marks := do
  match ← c.color col with
  | none => throw (.rejected (.collision op r col none))
  | some k => useColor op r col r k marks

/-- Every row that `selected` keeps must have colored, pairwise distinct columns. -/
def checkRows (op : String) (p : Pattern) (c : Coloring)
    (selected : Nat → Except Failure Bool) : Except Failure Unit := do
  let _ ← (List.range p.nrow).foldlM
    (fun marks r => do
      if ← selected r then (p.row r).foldlM (checkEntry op c r) marks else return marks)
    (Array.replicate c.ncolors none)

/-- Row `r` of column `c` needs no color; one that it has must be new to the column. -/
def checkAdjointEntry (op : String) (adjoint : Coloring) (c : Nat) (marks : Marks) (r : Nat) :
    Except Failure Marks := do
  match ← adjoint.color r with
  | none => return marks
  | some k => useColor op r c c k marks

/-- The colored rows of every column, given by the transpose, must be pairwise distinct. -/
def checkColumns (op : String) (pt : Pattern) (adjoint : Coloring) : Except Failure Unit := do
  let _ ← (List.range pt.nrow).foldlM
    (fun marks c => (pt.row c).foldlM (checkAdjointEntry op adjoint c) marks)
    (Array.replicate adjoint.ncolors none)

end Coloring

open Coloring

/-- No row holds two columns of one color, and every nonzero column has a color. -/
def verifyColumns (p : Pattern) (c : Coloring) : Except Failure Unit :=
  checkRows "verify_columns" p c fun _ => .ok true

/-- The same check for a coloring of a symmetric pattern. -/
def verifySymmetric (p : Pattern) (c : Coloring) : Except Failure Unit :=
  checkRows "verify_symmetric" p c fun _ => .ok true

/-- Both halves of a partition: first the forward rows, then the adjoint rows by column. -/
def verifyPartition (p : Pattern) (parts : Partition) : Except Failure Unit := do
  let op := "verify_partition"
  checkRows op p parts.forward fun r => return !(← parts.isAdjointRow r)
  checkColumns op p.transpose parts.adjoint

end SparseDiff
