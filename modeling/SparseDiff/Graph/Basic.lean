import SparseDiff.Graph.Node

/-!
# Expression graphs

A graph is a list of nodes that grows at its end; a node is addressed by its position.
`checkNode` tests one node against its operands, wherever the graph comes from.
-/

namespace SparseDiff

/-- Nodes in the order of their creation. -/
structure Graph (F : Type) where
  nodes : Array (Node F)
  deriving Inhabited

namespace Graph

variable {F : Type}

/-- The graph without nodes. -/
def empty : Graph F := ⟨#[]⟩

def size (g : Graph F) : Nat := g.nodes.size

/-- Look up a node. -/
def node (g : Graph F) (id : NodeId) : Except Error (Node F) :=
  match g.nodes[id]? with
  | some n => .ok n
  | none => .error (.structural "ExprGraph::node" (.unknownNode id))

/-- Pattern of a node. -/
def pattern (g : Graph F) (id : NodeId) : Except Error Pattern :=
  (g.node id).map Node.pattern

/-- No node has a kink or a jump. -/
def isSmooth (g : Graph F) : Bool := g.nodes.all (·.kind.isSmooth)

/-- Add a node at the end; its id is the number of nodes before it. -/
def push (g : Graph F) (n : Node F) : NodeId × Graph F :=
  (g.size, ⟨g.nodes.push n⟩)

/-- A select tolerance is finite and not negative. -/
def isTolerance [Zero F] [Elementary F] (tol : F) : Bool :=
  Elementary.isFinite tol && !Elementary.lt tol 0

/-- Every entry of a gather map names an operand and one of its nonzeros. -/
def checkMoves (id : NodeId) (operands : List Pattern) : List (Nat × Nat) → Except Error Unit
  | [] => .ok ()
  | (d, k) :: moves =>
      match operands[d]? with
      | none => .error (.structural "gather" (.invalidNode id (.operandOutOfRange d)))
      | some p =>
          if p.nnz ≤ k then
            .error (.structural "gather" (.invalidNode id (.nonzeroOutOfRange d k p.nnz)))
          else
            checkMoves id operands moves

/-- A gather map has one valid entry per nonzero of the result. -/
def checkGather (id : NodeId) (operands : List Pattern) (result : Pattern)
    (map : List (Nat × Nat)) : Except Error Unit :=
  if map.length ≠ result.nnz then
    .error (.structural "gather" (.invalidNode id (.mapLength map.length result.nnz)))
  else
    checkMoves id operands map

/-- One value per nonzero. -/
def checkConstant (op : String) (expected got : Nat) : Except Error Unit :=
  if got ≠ expected then
    .error (.structural op (.constantLength expected got))
  else
    .ok ()

/-- An operation node must carry the pattern that its operands imply. -/
def checkInferred (id : NodeId) (n : Node F) (operands : List Pattern) : Except Error Unit := do
  let inferred ← inferPattern n.kind operands
  if inferred ≠ some n.pattern then
    throw (.structural "compile" (.invalidNode id (.storedPattern n.pattern.display)))

/-- Check one node against its operands. -/
def checkNode [Zero F] [Elementary F] [ElementText F] (g : Graph F) (id : NodeId) :
    Except Error Unit := do
  let n ← g.node id
  let operands ← n.operands.mapM g.pattern
  n.kind.checkArity n.operands.length
  match n.kind with
  | .symbolic _ => return ()
  | .constant values => checkConstant "compile" n.pattern.nnz values.size
  | .gather _ map => checkGather id operands n.pattern map
  | .ifElse tol =>
      if isTolerance tol then
        checkInferred id n operands
      else
        throw (.structural "compile" (.invalidNode id (.storedTolerance (ElementText.display tol))))
  | _ => checkInferred id n operands

end Graph

end SparseDiff
