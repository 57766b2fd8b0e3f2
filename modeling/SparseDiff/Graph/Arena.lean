import SparseDiff.Graph.Build

/-!
# Building in place

A builder works on one graph that its caller owns. Its methods look nodes up, check and at last
add a node; what a method has added before it refuses would stay. `Arena.perform` is a builder
call of this kind, step by step, and `Arena.performAll` makes a sequence of calls by a caller who
goes on after a refusal.
-/

namespace SparseDiff

/-- A computation on a graph that is changed in place; a refusal does not undo its changes. -/
abbrev Arena (F : Type) : Type → Type := ExceptT Error (StateM (Graph F))

namespace Arena

variable {F α : Type}

/-- A step that leaves the graph alone. -/
def ofExcept : Except Error α → Arena F α
  | .ok a => pure a
  | .error e => throw e

/-- Look at the graph as it is now. -/
def look (read : Graph F → Except Error α) : Arena F α := do
  ofExcept (read (← get))

/-- Refuse, with a reason that may name the node that would have been next. -/
def refuse (reason : NodeId → Error) : Arena F α := do
  throw (reason (← get).size)

/-- Add a node at the end and return its id. -/
def append (n : Node F) : Arena F NodeId := do
  let id := (← get).size
  modify fun g => (g.push n).2
  return id

/-- The patterns of some nodes; the first unknown node is reported. -/
def patterns (ids : List NodeId) : Arena F (List Pattern) :=
  look fun g => ids.mapM g.pattern

def constant (p : Pattern) (values : Array F) : Arena F NodeId := do
  ofExcept (Graph.checkConstant "ExprGraph::constant" p.nnz values.size)
  append ⟨.constant values, [], p⟩

def pushNode (kind : NodeKind F) (operands : List NodeId) : Arena F NodeId := do
  ofExcept (kind.checkArity operands.length)
  let found ← patterns operands
  match ← ofExcept (inferPattern kind found) with
  | some p => append ⟨kind, operands, p⟩
  | none =>
      refuse fun id => .structural "push_node" (.invalidNode id (.needsOwnConstructor kind.name))

def binary (op : BinaryOp) (a b : NodeId) : Arena F NodeId := do
  let pa ← look (·.pattern a)
  let pb ← look (·.pattern b)
  pushNode (Graph.binaryKind op pa pb) [a, b]

def ifElse [Zero F] [Elementary F] [ElementText F] (c a : NodeId) (tol : F) : Arena F NodeId :=
  if Graph.isTolerance tol then
    pushNode (.ifElse tol) [c, a]
  else
    refuse fun id => .structural "ExprGraph::if_else"
      (.invalidNode id (.rejectedTolerance (ElementText.display tol)))

def gather (kind : GatherKind) (operands : List NodeId) (p : Pattern) (map : List (Nat × Nat)) :
    Arena F NodeId := do
  let found ← patterns operands
  look fun g => Graph.checkGather g.size found p map
  append ⟨.gather kind map, operands, p⟩

def reshape (a : NodeId) (nrow ncol : Nat) : Arena F NodeId := do
  let old ← look (·.pattern a)
  let p ← ofExcept (old.reshape nrow ncol)
  gather .reshape [a] p (Graph.fromOnly (List.range p.nnz))

def transpose (a : NodeId) : Arena F NodeId := do
  let p ← look (·.pattern a)
  gather .transpose [a] p.transpose (Graph.fromOnly p.transposeMap)

def slice (a : NodeId) (rows cols : List Nat) : Arena F NodeId := do
  let old ← look (·.pattern a)
  let sub ← ofExcept (old.sub rows cols)
  gather .slice [a] sub.1 (Graph.fromOnly sub.2)

def horzcat (parts : List NodeId) : Arena F NodeId := do
  let found ← patterns parts
  let p ← ofExcept (Pattern.horzcat found)
  gather .horzcat parts p (Graph.horzcatMap p.nrow found)

def vertcat (parts : List NodeId) : Arena F NodeId := do
  let found ← patterns parts
  let p ← ofExcept (Pattern.vertcat found)
  gather .vertcat parts p (Graph.vertcatMap found)

variable [Zero F] [OfScientific F] [Elementary F] [ElementText F]

/-- A builder call in place; it returns the id of the new node. -/
def perform : Build F → Arena F NodeId
  | .symbol name p => append ⟨.symbolic name, [], p⟩
  | .scalarSymbol name => append ⟨.symbolic name, [], Pattern.scalar⟩
  | .vectorSymbol name n => do append ⟨.symbolic name, [], ← ofExcept (Pattern.column n)⟩
  | .matrixSymbol name nrow ncol => do
      append ⟨.symbolic name, [], ← ofExcept (Pattern.dense nrow ncol)⟩
  | .constant p values => constant p values
  | .scalar value => append ⟨.constant #[value], [], Pattern.scalar⟩
  | .denseConstant nrow ncol values => do constant (← ofExcept (Pattern.dense nrow ncol)) values
  | .push kind operands => pushNode kind operands
  | .unary op a => pushNode (.unary op) [a]
  | .binary op a b => binary op a b
  | .scalarMatrix op s m => pushNode (.scalarMatrix op) [s, m]
  | .matrixScalar op m s => pushNode (.matrixScalar op) [m, s]
  | .ifElse c a => ifElse c a Graph.defaultTolerance
  | .ifElseWithin c a tol => ifElse c a tol
  | .reshape a nrow ncol => reshape a nrow ncol
  | .transpose a => transpose a
  | .slice a rows cols => slice a rows cols
  | .horzcat parts => horzcat parts
  | .vertcat parts => vertcat parts
  | .gather kind operands p map => gather kind operands p map

/-- A sequence of calls, each answered by an id or a refusal. -/
def performAll (calls : List (Build F)) : StateM (Graph F) (List (Except Error NodeId)) :=
  calls.mapM fun call => (perform call).run

end Arena

end SparseDiff
