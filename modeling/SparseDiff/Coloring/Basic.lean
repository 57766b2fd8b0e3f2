import SparseDiff.Pattern.Basic

/-!
# Colorings

A coloring gives some vertices (columns or rows of a pattern) a color. Vertices of one
color share a directional sweep; a vertex without a color needs none.
-/

namespace SparseDiff

/-- A color, or none, for every vertex. -/
structure Coloring where
  colors : Array (Option Nat)
  deriving DecidableEq, Repr, Inhabited

namespace Coloring

/-- One past the largest color in use. -/
def ncolors (c : Coloring) : Nat :=
  c.colors.toList.foldl (fun n color => max n ((color.map (· + 1)).getD 0)) 0

/-- Color of vertex `v`; asking for a vertex outside the coloring is out of bounds. -/
def color (c : Coloring) (v : Nat) : Except Failure (Option Nat) :=
  match c.colors[v]? with
  | some color => .ok color
  | none => .error .outOfBounds

/-- Color of vertex `v`, none outside the coloring. -/
def colorOf (c : Coloring) (v : Nat) : Option Nat := (c.colors[v]?).join

/-- Vertices with their colors; uncolored vertices are left out. -/
def colored (c : Coloring) : List (Nat × Nat) :=
  c.colors.toList.zipIdx.filterMap fun (color, v) => color.map fun k => (k, v)

/-- Seed pattern: row `k` holds the vertices of color `k`. -/
def seeds (c : Coloring) : Pattern :=
  ⟨c.colors.size, sortInto c.ncolors c.colored⟩

end Coloring

/--
Split of the entries of a pattern between forward and adjoint sweeps. Rows with an
adjoint color are recovered from adjoint sweeps, all other rows from forward sweeps.
-/
structure Partition where
  /-- Colors of the columns. -/
  forward : Coloring
  /-- Colors of the rows. -/
  adjoint : Coloring
  deriving DecidableEq, Repr, Inhabited

namespace Partition

/-- Number of directional sweeps. -/
def nsweeps (p : Partition) : Nat := p.forward.ncolors + p.adjoint.ncolors

/-- Row `r` is recovered from adjoint sweeps. -/
def isAdjointRow (p : Partition) (r : Nat) : Except Failure Bool :=
  (p.adjoint.color r).map Option.isSome

end Partition

end SparseDiff
