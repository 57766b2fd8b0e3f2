/-!
# Errors

Every refusal names the operation that met it and its cause. `Error.message` is the
only place where a cause becomes text. A `Failure` is either such a refusal or a read
outside the arrays at hand, which no well-formed request causes.
-/

namespace SparseDiff

/-- Position of a node in its graph. -/
abbrev NodeId := Nat

/-- The id that stands for a missing operand. -/
def missingId : NodeId := UInt32.size - 1

/-- Text of a node id. -/
def nodeText (id : NodeId) : String := s!"@{id}"

/-- Largest dimension or nonzero count of a pattern. -/
def maxIndex : Nat := UInt32.size - 2

/-- Number written for a vertex without a color. -/
def uncoloredIndex : Nat := UInt32.size - 1

/-- What is wrong with a single node. -/
inductive NodeDefect where
  /-- The kind has a constructor of its own. -/
  | needsOwnConstructor (kind : String)
  | rejectedTolerance (tol : String)
  | storedTolerance (tol : String)
  | storedPattern (pattern : String)
  | mapLength (entries nonzeros : Nat)
  | operandOutOfRange (operand : Nat)
  | nonzeroOutOfRange (operand nonzero nonzeros : Nat)
  deriving DecidableEq, Repr

/-- Causes that lie in the graph or in a request about it. -/
inductive StructuralCause where
  | arityMismatch (kind : String) (expected got : Nat)
  | cycle (node : NodeId)
  | unknownNode (node : NodeId)
  | freeSymbols (nodes : List NodeId) (names : List String)
  | notSymbolic (node : NodeId)
  | duplicateInput (node : NodeId)
  | shapeMismatch (kind : String) (lhs rhs : Nat × Nat)
  | notScalar (kind : String) (nrow ncol nnz : Nat)
  | constantLength (expected got : Nat)
  | invalidNode (node : NodeId) (defect : NodeDefect)
  | invalidName (name : String)
  deriving DecidableEq, Repr

/-- A length that a caller got wrong. -/
inductive Quantity where
  | rowPointerLength
  | firstRowPointer
  | lastRowPointer
  | increasingColumns (row : Nat)
  | columnList
  | shapes (lhs rhs : Nat × Nat)
  | innerDimension
  | elementCount
  | rowCount
  | columnCount
  | values
  | inputs
  | inputNonzeros (input : Nat)
  | planRows
  | planColumns
  | forwardSeedInputs (direction : Nat)
  | forwardSeedNonzeros (direction input : Nat)
  | adjointSeedOutputs (direction : Nat)
  | adjointSeedNonzeros (direction output : Nat)
  deriving DecidableEq, Repr

/-- Causes that lie in a length, an index or the size of a buffer. -/
inductive DimensionCause where
  | mismatch (what : Quantity) (expected got : Nat)
  | outOfRange (what : String) (index length : Nat)
  | notScalar (output nrow ncol nnz : Nat)
  | memory (what : String) (needed available : Nat)
  | tooLarge (what : String) (size max : Nat)
  deriving DecidableEq, Repr

/-- A refused request, with the operation that refused it. -/
inductive Error where
  | structural (op : String) (cause : StructuralCause)
  | dimension (op : String) (cause : DimensionCause)
  /-- A value that is not finite arose at a nonzero of a node. -/
  | numeric (op : String) (node : NodeId) (nonzero : Nat)
  /-- A colored entry cannot be told apart, or has no color. -/
  | collision (op : String) (row col : Nat) (color : Option Nat)
  deriving DecidableEq, Repr

/-- Text of a shape as a pair. -/
def shapeText (shape : Nat × Nat) : String := s!"({shape.1}, {shape.2})"

namespace NodeDefect

def message : NodeDefect → String
  | needsOwnConstructor kind => s!"{kind} nodes must be built with their own constructor"
  | rejectedTolerance tol => s!"tolerance {tol} must be finite and non-negative"
  | storedTolerance tol => s!"invalid tolerance {tol}"
  | storedPattern pattern => s!"stored sparsity {pattern} does not match its operands"
  | mapLength entries nonzeros => s!"map has {entries} entries for {nonzeros} nonzeros"
  | operandOutOfRange operand => s!"operand {operand} out of range"
  | nonzeroOutOfRange operand nonzero nonzeros =>
      s!"nonzero {nonzero} of operand {operand} out of range ({nonzeros})"

end NodeDefect

namespace StructuralCause

def message : StructuralCause → String
  | arityMismatch kind expected got => s!"{kind} expects {expected} operand(s), got {got}"
  | cycle node => s!"cycle through node {nodeText node}"
  | unknownNode node => s!"unknown node {nodeText node}"
  | freeSymbols _ names => "free symbolic input(s): " ++ ", ".intercalate names
  | notSymbolic node => s!"declared input {nodeText node} is not a symbolic leaf"
  | duplicateInput node => s!"node {nodeText node} declared as input more than once"
  | shapeMismatch kind lhs rhs =>
      s!"{kind}: incompatible shapes {shapeText lhs} and {shapeText rhs}"
  | notScalar kind nrow ncol nnz =>
      s!"{kind}: operand must be a 1x1 scalar, got {nrow}x{ncol} with {nnz} nonzero(s)"
  | constantLength expected got => s!"constant has {got} value(s) for {expected} nonzero(s)"
  | invalidNode node defect => s!"node {nodeText node}: {defect.message}"
  | invalidName name => "\x60" ++ name ++ "\x60 is not a valid function name"

end StructuralCause

namespace Quantity

def message : Quantity → String
  | rowPointerLength => "row pointer length"
  | firstRowPointer => "first row pointer"
  | lastRowPointer => "last row pointer"
  | increasingColumns row => s!"strictly increasing columns in row {row}"
  | columnList => "column list"
  | shapes lhs rhs => s!"shape {shapeText lhs} against {shapeText rhs}"
  | innerDimension => "inner dimension"
  | elementCount => "element count"
  | rowCount => "row count"
  | columnCount => "column count"
  | values => "values"
  | inputs => "inputs"
  | inputNonzeros input => s!"nonzeros of input {input}"
  | planRows => "plan rows"
  | planColumns => "plan columns"
  | forwardSeedInputs direction => s!"forward seed {direction}: inputs"
  | forwardSeedNonzeros direction input =>
      s!"forward seed {direction}: nonzeros of input {input}"
  | adjointSeedOutputs direction => s!"adjoint seed {direction}: outputs"
  | adjointSeedNonzeros direction output =>
      s!"adjoint seed {direction}: nonzeros of output {output}"

end Quantity

namespace DimensionCause

def message : DimensionCause → String
  | mismatch what expected got => s!"{what.message}: expected {expected}, got {got}"
  | outOfRange what index length => s!"{what} {index} out of range (len {length})"
  | notScalar output nrow ncol nnz =>
      s!"output {output} must be a dense 1x1 scalar, got {nrow}x{ncol} with {nnz} nonzero(s)"
  | memory what needed available =>
      s!"memory block too small: {what} needs {needed}, has {available}"
  | tooLarge what size max => s!"{what} {size} exceeds the limit {max}"

end DimensionCause

namespace Error

/-- The text of a refusal. -/
def message : Error → String
  | structural op cause => s!"structural error in {op}: {cause.message}"
  | dimension op cause => s!"dimension error in {op}: {cause.message}"
  | numeric op node nonzero =>
      s!"non-finite value in {op}: node {nodeText node}, nonzero {nonzero}"
  | collision op row col color =>
      s!"coloring collision in {op}: entry ({row}, {col}) shares color " ++
        s!"{color.getD uncoloredIndex} with another entry"

/-- A length differs from the one that is required. -/
def mismatch (op : String) (what : Quantity) (expected got : Nat) : Error :=
  dimension op (.mismatch what expected got)

/-- An index is not below the length it indexes. -/
def outOfRange (op what : String) (index length : Nat) : Error :=
  dimension op (.outOfRange what index length)

end Error

/-- How a request can fail. -/
inductive Failure where
  | rejected (error : Error)
  /-- An array was read or written outside its bounds. -/
  | outOfBounds
  /-- An array would span more bytes than one array may. -/
  | tooLarge
  deriving DecidableEq, Repr

/-- A refusal as a failure. -/
def orReject {α : Type} (x : Except Error α) : Except Failure α :=
  x.mapError .rejected

end SparseDiff
