import SparseDiff.Coloring.Basic
import SparseDiff.Pattern.Algebra

/-!
# Greedy colorings

Vertices are colored one after the other, those with most conflicts first, each with
the least color that no conflicting vertex holds. `columnColoring` and `rowColoring`
let two vertices conflict when they share a row or a column; `symmetricColoring` when
they are adjacent or share a neighbor.
-/

namespace SparseDiff

/-- The least number that is not in `used`. -/
def leastUnused (used : List Nat) : Nat :=
  ((List.range (used.length + 1)).find? fun k => !used.contains k).getD used.length

namespace Coloring

/-- Give `v` the least color that none of its conflicting vertices holds. -/
def colorNext (conflicts : Nat → List Nat) (colors : Array (Option Nat)) (v : Nat) :
    Array (Option Nat) :=
  let used := (conflicts v).filterMap fun u => (colors[u]?).join
  colors.setIfInBounds v (some (leastUnused used))

/-- Color the vertices of `order`, of `n` in all, in this order. -/
def greedy (n : Nat) (order : List Nat) (conflicts : Nat → List Nat) : Coloring :=
  ⟨order.foldl (colorNext conflicts) (Array.replicate n none)⟩

/-- Largest degree first; equal degrees keep their order. -/
def byDegree (degree : Nat → Nat) (vertices : List Nat) : List Nat :=
  vertices.mergeSort fun a b => degree b ≤ degree a

/-- Colors given so far, and for every color the vertex that marked it last. -/
structure Marking where
  colors : Array (Option Nat)
  marks : Array (Option Nat)

/--
Mark the colors in use around `v`, then give `v` the first color that does not carry its mark.
Marks are never cleared: those of other vertices are stale.
-/
def Marking.colorNext (around : Nat → List Nat) (s : Marking) (v : Nat) : Marking :=
  let used := (around v).filterMap fun u => (s.colors[u]?).join
  let marks := used.foldl (fun marks k => marks.setIfInBounds k (some v)) s.marks
  { colors := s.colors.setIfInBounds v (some (marks.toList.findIdx (· != some v))), marks }

/-- Color the vertices of `order`, of `n` in all, in this order, with one array of marks. -/
def greedyMarked (n : Nat) (order : List Nat) (around : Nat → List Nat) : Coloring :=
  ⟨(order.foldl (Marking.colorNext around) ⟨Array.replicate n none, Array.replicate n none⟩).colors⟩

/-- Stamp `d` with column `c` and count it, unless it is no other vertex or has the stamp. -/
def stampNext (vertex : Nat → Bool) (c : Nat) (s : Array (Option Nat) × Nat) (d : Nat) :
    Array (Option Nat) × Nat :=
  -- `vertex` comes last: it may count a whole row, and most vertices are met more than once
  if d != c && (s.1[d]?).join != some c && vertex d then
    (s.1.setIfInBounds d (some c), s.2 + 1)
  else
    s

/--
The stamps and the degrees so far, with column `c` counted. Stamps are never cleared: those of
other columns are stale.
-/
def degreeNext (vertex : Nat → Bool) (around : Nat → List Nat)
    (s : Array (Option Nat) × Array Nat) (c : Nat) : Array (Option Nat) × Array Nat :=
  if vertex c then
    let (stamps, degree) := (around c).foldl (stampNext vertex c) (s.1, 0)
    (stamps, s.2.push degree)
  else
    (s.1, s.2.push 0)

/-- Conflicts of every vertex among `n` columns, counted with one array of stamps. -/
def degrees (n : Nat) (vertex : Nat → Bool) (around : Nat → List Nat) : Array Nat :=
  ((List.range n).foldl (degreeNext vertex around) (Array.replicate n none, #[])).2

/-- Nonzeros in the usable rows of column `c`, row by row: itself and its conflicts. -/
def sharing (p pt : Pattern) (usable : Nat → Bool) (c : Nat) : List Nat :=
  ((pt.row c).filter usable).flatMap p.row

/--
Greedy coloring of the columns of `p`, where `pt` is its transpose. A column is a vertex
when `vertex` holds and it has a nonzero in a usable row; two vertices conflict when they
share such a row.
-/
def greedyColumns (p pt : Pattern) (usable vertex : Nat → Bool) : Coloring :=
  let around := sharing p pt usable
  let degrees := degrees p.ncol vertex around
  let needed := (List.range p.ncol).filter fun c =>
    vertex c && (pt.row c).any usable
  greedyMarked p.ncol (byDegree (degrees.getD · 0) needed) around

end Coloring

open Coloring

/-- Color the columns so that no two columns of one color share a row. -/
def columnColoring (p : Pattern) : Coloring :=
  greedyColumns p p.transpose (fun _ => true) (fun _ => true)

/-- Color the rows so that no two rows of one color share a column. -/
def rowColoring (p : Pattern) : Coloring :=
  greedyColumns p.transpose p (fun _ => true) (fun _ => true)

/-- Vertices other than `v` at distance one or two from it. -/
def withinTwo (adjacent : Nat → List Nat) (v : Nat) : List Nat :=
  (adjacent v).foldl
    (fun acc u => Pattern.mergeRows acc (Pattern.mergeRows [u] ((adjacent u).filter (· != v))))
    []

/--
Distance-two coloring of a symmetric pattern: every row has at most one nonzero of each
color. Vertices with an empty row stay uncolored. A column outside the square has no
vertex, so a pattern that has one is out of bounds.
-/
def symmetricColoring (p : Pattern) : Except Failure Coloring :=
  if p.columns.any (p.nrow ≤ ·) then
    .error .outOfBounds
  else
    let adjacent := fun v => (p.row v).filter (· != v)
    let neighbors := ((List.range p.nrow).map (withinTwo adjacent)).toArray
    let conflicts := fun v => neighbors.getD v []
    let needed := (List.range p.nrow).filter fun v => !(p.row v).isEmpty
    .ok (greedy p.nrow (byDegree (fun v => (conflicts v).length) needed) conflicts)

end SparseDiff
