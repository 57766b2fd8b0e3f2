import SparseDiff.Graph.Basic

/-!
# Stored graphs

The form in which a graph is written to and read from a file. Reading checks the
patterns only: operands may be missing, point forward or form cycles, and compilation
checks them later.
-/

namespace SparseDiff

/-- A pattern in compressed form, not yet checked. -/
structure StoredPattern where
  nrow : Nat
  ncol : Nat
  rowPtr : List Nat
  columns : List Nat
  deriving DecidableEq, Repr

/-- A node whose pattern is not yet checked. -/
structure StoredNode (F : Type) where
  kind : NodeKind F
  operands : List NodeId
  pattern : StoredPattern

namespace StoredPattern

def ofPattern (p : Pattern) : StoredPattern := ⟨p.nrow, p.ncol, p.rowPtr, p.columns⟩

def toPattern (s : StoredPattern) : Except Error Pattern :=
  Pattern.ofCompressed s.nrow s.ncol s.rowPtr s.columns

end StoredPattern

namespace Graph

variable {F : Type}

/-- The stored form of every node. -/
def toStored (g : Graph F) : List (StoredNode F) :=
  g.nodes.toList.map fun n => ⟨n.kind, n.operands, .ofPattern n.pattern⟩

/-- Read a stored graph; a pattern that breaks a promise is refused. -/
def ofStored (nodes : List (StoredNode F)) : Except Error (Graph F) := do
  let nodes ← nodes.mapM fun n => do
    return { kind := n.kind, operands := n.operands, pattern := ← n.pattern.toPattern }
  return ⟨nodes.toArray⟩

end Graph

end SparseDiff
