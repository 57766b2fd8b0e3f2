import SparseDiff.Tape.Layout
import SparseDiff.Tape.Order

/-!
# Compilation

A request names a graph, the symbolic leaves that become inputs and the nodes that
become outputs. Compilation checks the request, orders the nodes that the outputs need,
resolves every operand to a tape position and lays out the work slots.
-/

namespace SparseDiff

namespace Tape

variable {F : Type}

/-- Inputs exist, are symbolic leaves and are declared once; `seen` were declared before. -/
def checkInputs (g : Graph F) : (seen : List NodeId) → List NodeId → Except Error Unit
  | _, [] => .ok ()
  | seen, id :: rest =>
      match g.nodes[id]? with
      | none => .error (.structural "compile" (.unknownNode id))
      | some n =>
          if !n.kind.isSymbolic then
            .error (.structural "compile" (.notSymbolic id))
          else if seen.contains id then
            .error (.structural "compile" (.duplicateInput id))
          else
            checkInputs g (id :: seen) rest

/-- Outputs exist. -/
def checkOutputs (g : Graph F) : List NodeId → Except Error Unit
  | [] => .ok ()
  | id :: rest =>
      if id < g.size then checkOutputs g rest
      else .error (.structural "compile" (.unknownNode id))

/-- Name under which a free leaf is reported. -/
def freeName (g : Graph F) (id : NodeId) : String :=
  match g.nodes[id]? with
  | some { kind := .symbolic name, .. } => name
  | _ => nodeText id

/-- The outputs may depend on declared inputs only. -/
def checkFree (g : Graph F) (free : List NodeId) : Except Error Unit :=
  if free.isEmpty then .ok ()
  else .error (.structural "compile" (.freeSymbols free (free.map (freeName g))))

/-- The nodes of the tape in order: inputs, then everything the outputs need. -/
def order [Zero F] [Elementary F] [ElementText F] (g : Graph F) (inputs outputs : List NodeId) :
    Except Error (List NodeId) := do
  checkInputs g [] inputs
  checkOutputs g outputs
  let found ← Search.run g (Search.start g.size inputs) [] outputs
  checkFree g found.free.toList
  return found.order.toList

/-- Tape position of every node of the graph that the order places. -/
def positions (size : Nat) (order : List NodeId) : Array (Option Nat) :=
  order.zipIdx.foldl
    (fun table (id, position) => table.setIfInBounds id (some position))
    (Array.replicate size none)

/-- Tape position of a node; a node that was not placed is out of bounds. -/
def positionOf (table : Array (Option Nat)) (id : NodeId) : Except Failure Nat :=
  match (table[id]?).join with
  | some position => .ok position
  | none => .error .outOfBounds

/-- Look up a node that is known to be there. -/
def placedNode (g : Graph F) (id : NodeId) : Except Failure (Node F) :=
  match g.nodes[id]? with
  | some n => .ok n
  | none => .error .outOfBounds

/-- A gather entry with its operand index replaced by the operand's position. -/
def resolveMove (parts : List Nat) (move : Nat × Nat) : Except Failure (Nat × Nat) :=
  match parts[move.1]? with
  | some position => .ok (position, move.2)
  | none => .error .outOfBounds

/--
Instruction of a node at a tape position, with the positions and patterns of its
operands. A checked node has as many operands as its kind takes.
-/
def instruction (position : Nat) (n : Node F) (parts : List Nat) (patterns : List Pattern) :
    Except Failure (Instr F) :=
  match n.kind, parts, patterns with
  | .symbolic _, parts, _ => .ok (.input position parts)
  | .constant values, _, _ => .ok (.constant values)
  | .unary op, [a], [pa] => .ok (.unary op ⟨a, .between n.pattern pa⟩)
  | .binary op, [a, b], [pa, pb] =>
      .ok (.binary op ⟨a, .between n.pattern pa⟩ ⟨b, .between n.pattern pb⟩)
  | .scalarMatrix op, [a, b], [pa, pb] =>
      .ok (.binary op ⟨a, .broadcast pa⟩ ⟨b, .between n.pattern pb⟩)
  | .matrixScalar op, [a, b], [pa, pb] =>
      .ok (.binary op ⟨a, .between n.pattern pa⟩ ⟨b, .broadcast pb⟩)
  | .ifElse tol, [c, a], [pc, _] => .ok (.ifElse tol ⟨c, .broadcast pc⟩ a)
  | .gather kind map, parts, _ => do
      return .gather kind parts (← map.mapM (resolveMove parts)).toArray
  | _, _, _ => .error .outOfBounds

/-- Tape element of a node. -/
def element (g : Graph F) (table : Array (Option Nat)) (id : NodeId) (position : Nat) :
    Except Failure (Element F) := do
  let n ← placedNode g id
  let parts ← n.operands.mapM (positionOf table)
  let patterns ← n.operands.mapM fun d => (placedNode g d).map Node.pattern
  let instr ← instruction position n parts patterns
  return ⟨id, instr, n.pattern.nnz⟩

/-- What the layouts need to know of an element. -/
def span (e : Element F) : Span := ⟨e.nnz, e.instr.reads⟩

/-- Compile the part of a graph that the outputs need. -/
def compile [Zero F] [Elementary F] [ElementText F] (g : Graph F)
    (inputs outputs : List NodeId) (config : Config) : Except Failure (Tape F) := do
  let order ← orReject (order g inputs outputs)
  let table := positions g.size order
  let elements ← order.zipIdx.mapM fun (id, position) => element g table id position
  let outputPositions ← outputs.mapM (positionOf table)
  let patternOf := fun id => (placedNode g id).map Node.pattern
  let spans := elements.map span
  return {
    graph := g
    elements := elements.toArray
    outputs := outputPositions
    inputPatterns := ← inputs.mapM patternOf
    outputPatterns := ← outputs.mapM patternOf
    full := Layout.ofLengths spans
    compact := Layout.reusing spans outputPositions
    config }

/-- Node of the element at `position`, as text. -/
def nameAt (f : Tape F) (position : Nat) : String :=
  nodeText (((f.elements[position]?).map Element.node).getD missingId)

/-- Pattern of the value of an element. -/
def patternAt (f : Tape F) (e : Element F) : Pattern :=
  ((f.graph.nodes[e.node]?).map Node.pattern).getD default

/-- Right-hand side of the line of an element. -/
def describe [ElementText F] (f : Tape F) (e : Element F) : String :=
  match e.instr with
  | .input i _ => s!"input[{i}]"
  | .constant #[v] => ElementText.display v
  | .constant _ => s!"const({(f.patternAt e).display})"
  | .unary op a => s!"{op.name}({f.nameAt a.position})"
  | .binary op a b => op.display (f.nameAt a.position) (f.nameAt b.position)
  | .ifElse tol cond branch =>
      s!"if_else({f.nameAt cond.position}, {f.nameAt branch}, tol=" ++
        ElementText.display tol ++ ")"
  | .gather kind parts _ => s!"{kind.name}(" ++ ", ".intercalate (parts.map f.nameAt) ++ ")"

/-- One line per element, then one per output. -/
def display [ElementText F] (f : Tape F) : String :=
  let lines := f.elements.toList.map fun e => s!"{nodeText e.node} = " ++ f.describe e ++ "\n"
  let outputs := f.outputs.zipIdx.map fun (position, o) =>
    s!"output[{o}] = {f.nameAt position}\n"
  String.join (lines ++ outputs)

end Tape

end SparseDiff
