import SparseDiff.Graph.Basic
import SparseDiff.Pattern.Movement

/-!
# Building a graph

Each builder call adds one node at the end of the graph or refuses. `Build` is the type
of all calls and `Graph.build` performs one; since a refusal returns no graph, a graph
never changes by a refused call.
-/

namespace SparseDiff

namespace Graph

variable {F : Type}

/-- Symbolic leaf. -/
def symbol (g : Graph F) (name : String) (p : Pattern) : NodeId × Graph F :=
  g.push ⟨.symbolic name, [], p⟩

/-- Constant leaf with one value per nonzero. -/
def constant (g : Graph F) (p : Pattern) (values : Array F) :
    Except Error (NodeId × Graph F) := do
  checkConstant "ExprGraph::constant" p.nnz values.size
  return g.push ⟨.constant values, [], p⟩

/-- Operation node; arity, operands and shapes are checked in this order. -/
def pushNode (g : Graph F) (kind : NodeKind F) (operands : List NodeId) :
    Except Error (NodeId × Graph F) := do
  kind.checkArity operands.length
  let patterns ← operands.mapM g.pattern
  match ← inferPattern kind patterns with
  | some p => return g.push ⟨kind, operands, p⟩
  | none =>
      throw (.structural "push_node" (.invalidNode g.size (.needsOwnConstructor kind.name)))

def unary (g : Graph F) (op : UnaryOp) (a : NodeId) : Except Error (NodeId × Graph F) :=
  g.pushNode (.unary op) [a]

/-- The kind of a binary node: a `1 × 1` operand is broadcast against another shape. -/
def binaryKind (op : BinaryOp) (a b : Pattern) : NodeKind F :=
  if a.shape = b.shape then .binary op
  else if a.isScalar then .scalarMatrix op
  else if b.isScalar then .matrixScalar op
  else .binary op

def binary (g : Graph F) (op : BinaryOp) (a b : NodeId) :
    Except Error (NodeId × Graph F) := do
  let pa ← g.pattern a
  let pb ← g.pattern b
  g.pushNode (binaryKind op pa pb) [a, b]

/-- `a` where `|c| < tol`, zero otherwise. -/
def ifElse [Zero F] [Elementary F] [ElementText F] (g : Graph F) (c a : NodeId) (tol : F) :
    Except Error (NodeId × Graph F) :=
  if isTolerance tol then
    g.pushNode (.ifElse tol) [c, a]
  else
    .error (.structural "ExprGraph::if_else"
      (.invalidNode g.size (.rejectedTolerance (ElementText.display tol))))

/-- Gather node with an explicit map. -/
def gather (g : Graph F) (kind : GatherKind) (operands : List NodeId) (p : Pattern)
    (map : List (Nat × Nat)) : Except Error (NodeId × Graph F) := do
  let patterns ← operands.mapM g.pattern
  checkGather g.size patterns p map
  return g.push ⟨.gather kind map, operands, p⟩

/-- A map whose entries all come from the only operand. -/
def fromOnly (nonzeros : List Nat) : List (Nat × Nat) := nonzeros.map fun k => (0, k)

def reshape (g : Graph F) (a : NodeId) (nrow ncol : Nat) :
    Except Error (NodeId × Graph F) := do
  let p ← (← g.pattern a).reshape nrow ncol
  g.gather .reshape [a] p (fromOnly (List.range p.nnz))

def transpose (g : Graph F) (a : NodeId) : Except Error (NodeId × Graph F) := do
  let p ← g.pattern a
  g.gather .transpose [a] p.transpose (fromOnly p.transposeMap)

def slice (g : Graph F) (a : NodeId) (rows cols : List Nat) :
    Except Error (NodeId × Graph F) := do
  let (p, map) ← (← g.pattern a).sub rows cols
  g.gather .slice [a] p (fromOnly map)

/-- Nonzeros of row `r` of one operand: its index, and the numbers from `start` on. -/
def rowMoves (index start count : Nat) : List (Nat × Nat) :=
  (List.range count).map fun j => (index, start + j)

/-- The nonzeros of the parts side by side, row by row. -/
def horzcatMap (nrow : Nat) (parts : List Pattern) : List (Nat × Nat) :=
  let parts := parts.zipIdx.map fun (p, i) => (i, p, p.rowPtr.toArray)
  (List.range nrow).flatMap fun r =>
    parts.flatMap fun (i, p, starts) => rowMoves i (starts.getD r 0) (p.row r).length

/-- The nonzeros of the parts one after the other. -/
def vertcatMap (parts : List Pattern) : List (Nat × Nat) :=
  parts.zipIdx.flatMap fun (p, i) => rowMoves i 0 p.nnz

def horzcat (g : Graph F) (parts : List NodeId) : Except Error (NodeId × Graph F) := do
  let patterns ← parts.mapM g.pattern
  let p ← Pattern.horzcat patterns
  g.gather .horzcat parts p (horzcatMap p.nrow patterns)

def vertcat (g : Graph F) (parts : List NodeId) : Except Error (NodeId × Graph F) := do
  let patterns ← parts.mapM g.pattern
  let p ← Pattern.vertcat patterns
  g.gather .vertcat parts p (vertcatMap patterns)

end Graph

/-- A builder call. -/
inductive Build (F : Type) where
  | symbol (name : String) (p : Pattern)
  | scalarSymbol (name : String)
  | vectorSymbol (name : String) (n : Nat)
  | matrixSymbol (name : String) (nrow ncol : Nat)
  | constant (p : Pattern) (values : Array F)
  | scalar (value : F)
  | denseConstant (nrow ncol : Nat) (values : Array F)
  | push (kind : NodeKind F) (operands : List NodeId)
  | unary (op : UnaryOp) (a : NodeId)
  | binary (op : BinaryOp) (a b : NodeId)
  | scalarMatrix (op : BinaryOp) (s m : NodeId)
  | matrixScalar (op : BinaryOp) (m s : NodeId)
  /-- A select with the default tolerance. -/
  | ifElse (c a : NodeId)
  | ifElseWithin (c a : NodeId) (tol : F)
  | reshape (a : NodeId) (nrow ncol : Nat)
  | transpose (a : NodeId)
  | slice (a : NodeId) (rows cols : List Nat)
  | horzcat (parts : List NodeId)
  | vertcat (parts : List NodeId)
  | gather (kind : GatherKind) (operands : List NodeId) (p : Pattern) (map : List (Nat × Nat))

namespace Graph

variable {F : Type} [Zero F] [OfScientific F] [Elementary F] [ElementText F]

/-- Tolerance of a select that names none. -/
def defaultTolerance : F := OfScientific.ofScientific 1 true 6

/-- Perform one builder call: the id of the new node and the graph with it. -/
def build (g : Graph F) : Build F → Except Error (NodeId × Graph F)
  | .symbol name p => .ok (g.symbol name p)
  | .scalarSymbol name => .ok (g.symbol name Pattern.scalar)
  | .vectorSymbol name n => do return g.symbol name (← Pattern.column n)
  | .matrixSymbol name nrow ncol => do return g.symbol name (← Pattern.dense nrow ncol)
  | .constant p values => g.constant p values
  | .scalar value => .ok (g.push ⟨.constant #[value], [], Pattern.scalar⟩)
  | .denseConstant nrow ncol values => do g.constant (← Pattern.dense nrow ncol) values
  | .push kind operands => g.pushNode kind operands
  | .unary op a => g.unary op a
  | .binary op a b => g.binary op a b
  | .scalarMatrix op s m => g.pushNode (.scalarMatrix op) [s, m]
  | .matrixScalar op m s => g.pushNode (.matrixScalar op) [m, s]
  | .ifElse c a => g.ifElse c a defaultTolerance
  | .ifElseWithin c a tol => g.ifElse c a tol
  | .reshape a nrow ncol => g.reshape a nrow ncol
  | .transpose a => g.transpose a
  | .slice a rows cols => g.slice a rows cols
  | .horzcat parts => g.horzcat parts
  | .vertcat parts => g.vertcat parts
  | .gather kind operands p map => g.gather kind operands p map

/-- Perform a call and keep the graph as it was if the call is refused. -/
def buildOrKeep (g : Graph F) (call : Build F) : Graph F :=
  match g.build call with
  | .ok (_, g') => g'
  | .error _ => g

/-- The graph after a sequence of calls, refused ones included. -/
def buildAll (g : Graph F) (calls : List (Build F)) : Graph F :=
  calls.foldl buildOrKeep g

end Graph

end SparseDiff
