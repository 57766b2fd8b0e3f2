import SparseDiff.Coloring.Greedy
import SparseDiff.Coloring.Verify

/-!
# Splitting a pattern between the two sweep directions

Rows with more nonzeros than a threshold are left to adjoint sweeps, the other rows to
forward sweeps. The mode chooses the threshold; the result is verified before it is
handed out.
-/

namespace SparseDiff

/-- Direction preference for colored Jacobian sweeps. -/
inductive SweepMode where
  /-- Forward sweeps only. -/
  | forward
  /-- Adjoint sweeps only. -/
  | adjoint
  /-- Heavy rows by adjoint sweeps, the rest by forward sweeps. -/
  | bidirectional
  /-- Cheapest of the three; ties prefer forward, then adjoint. -/
  | auto
  deriving DecidableEq, Repr, Inhabited

namespace SweepMode

/-- Name of the mode in requests. -/
def tag : SweepMode → String
  | forward => "Forward"
  | adjoint => "Adjoint"
  | bidirectional => "Bidirectional"
  | auto => "Auto"

def all : List SweepMode := [forward, adjoint, bidirectional, auto]

def ofTag? (tag : String) : Option SweepMode :=
  all.find? (·.tag == tag)

end SweepMode

namespace Partition

/-- Greedy split: rows with more than `threshold` nonzeros go to adjoint sweeps. -/
def split (p : Pattern) (threshold : Nat) : Partition :=
  let heavy := fun r => decide (threshold < (p.row r).length)
  let pt := p.transpose
  { forward := Coloring.greedyColumns p pt (fun r => !heavy r) (fun _ => true)
    adjoint := Coloring.greedyColumns pt p (fun _ => true) heavy }

/-- The first of the candidates with the fewest sweeps. -/
def cheapest (first : Partition) (others : List Partition) : Partition :=
  others.foldl (fun best q => if q.nsweeps < best.nsweeps then q else best) first

/-- Insert into an increasing list, keeping one copy of each number. -/
def insertSorted (x : Nat) : List Nat → List Nat
  | [] => [x]
  | y :: rest =>
      if x < y then x :: y :: rest
      else if x = y then y :: rest
      else y :: insertSorted x rest

/-- Lengths of the rows, each once, in increasing order. -/
def rowLengths (p : Pattern) : List Nat :=
  (p.rows.toList.map List.length).foldr insertSorted []

/-- Forward sweeps only: no row is heavier than the longest. -/
def forwardOnly (p : Pattern) : Partition :=
  split p ((p.rows.toList.map List.length).foldl max 0)

/-- Adjoint sweeps only: every row with a nonzero is heavy. -/
def adjointOnly (p : Pattern) : Partition := split p 0

/-- The cheapest split over all row lengths as thresholds, the smallest on a tie. -/
def mixed (p : Pattern) : Partition :=
  match (rowLengths p).map (split p) with
  | [] => split p 0
  | first :: others => cheapest first others

/-- The split that a mode asks for, before verification. -/
def choose (p : Pattern) : SweepMode → Partition
  | .forward => forwardOnly p
  | .adjoint => adjointOnly p
  | .bidirectional => mixed p
  | .auto => cheapest (forwardOnly p) [adjointOnly p, mixed p]

/-- Verified split of a pattern. -/
def ofPattern (p : Pattern) (mode : SweepMode) : Except Failure Partition := do
  let parts := choose p mode
  verifyPartition p parts
  return parts

end Partition

end SparseDiff
