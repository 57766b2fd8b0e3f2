import SparseDiff.Source.Expr
import SparseDiff.Tape.Cell

/-!
# Exported programs

The value computation of a tape as a straight-line program: one statement per cell over
the work array `w`, in the layout of a sweep without adjoints, then one per output. The
program reads nonzero `k` of input `i` as `arg[i][k]` and leaves nonzero `k` of output `o`
in `res[o][k]`.
-/

namespace SparseDiff

/-- Leaves of exported expressions. -/
inductive Leaf (F : Type) where
  | slot (s : Nat)
  | literal (value : F)
  deriving DecidableEq, Repr

/-- Statements of an exported program. -/
inductive Statement (F : Type) where
  /-- Copy an input nonzero into a slot. -/
  | load (slot input nonzero : Nat)
  | assign (slot : Nat) (value : Expr (Leaf F))
  /-- Copy slots to the nonzeros of an output. -/
  | store (output : Nat) (slots : List Nat)
  deriving DecidableEq, Repr

/-- An exported function. -/
structure Program (F : Type) where
  name : String
  nIn : Nat
  nOut : Nat
  /-- Slots of the work array. -/
  work : Nat
  body : List (Statement F)

/-- A letter or an underscore, then letters, digits and underscores; not `_` alone. -/
def isIdentifier (name : String) : Bool :=
  match name.toList with
  | [] => false
  | c :: rest =>
      (c.isAlpha || c == '_') && name != "_" && rest.all fun c => c.isAlphanum || c == '_'

section Building

variable {F : Type} [Zero F]

/-- Leaf of an operand; a structural zero is written out. -/
def Leaf.ofSlot : Option Nat → Leaf F
  | some s => .slot s
  | none => .literal 0

/-- Statement of a cell that writes `slot`. -/
def Cell.statement (t : Target) (slot : Nat) : Cell F → Statement F
  | input number nonzero => .load slot number nonzero
  | constant v => .assign slot (.leaf (.literal v))
  | unary op a => .assign slot (op.expr t (.ofSlot a))
  | binary op a b => .assign slot (op.expr t (.ofSlot a) (.ofSlot b))
  | select tol cond source =>
      .assign slot
        (.choose (.within (.ofSlot cond) (.literal tol)) (.leaf (.slot source))
          (.leaf (.literal 0)))
  | copy source => .assign slot (.leaf (.slot source))

/-- Statements of one element. -/
def Segment.statements (t : Target) (s : Segment F) : List (Statement F) :=
  s.numbered.map fun (c, k) => c.statement t (s.start + k)

namespace Tape

/-- Statements that hand out the outputs. -/
def stores (f : Tape F) (l : Layout) : Except Failure (List (Statement F)) :=
  (f.outputs.zip f.outputPatterns).zipIdx.mapM fun ((position, p), o) => do
    return .store o (slotsFrom (← l.offset position) p.nnz)

/-- The program of a tape; the name must be an identifier. -/
def program (f : Tape F) (t : Target) (name : String) : Except Failure (Program F) := do
  if !isIdentifier name then
    throw (.rejected (.structural "export_source" (.invalidName name)))
  let l := f.layout 0
  let tape ← f.segments l
  let stores ← f.stores l
  return ⟨name, f.nIn, f.nOut, l.size, tape.flatMap (Segment.statements t) ++ stores⟩

end Tape

end Building

section Text

variable {F : Type} [ElementText F]

/-- Magnitudes below zero are parenthesised; `suffix` names the type of the number. -/
def signedLiteral (suffix : String) (negative : Bool) (x : Decimal.Dyadic) : String :=
  let text := Decimal.Style.literal.text (.finite negative x) ++ suffix
  if negative && x.mantissa != 0 then parens text else text

def cLiteral : Decimal.Reading → String
  | .nan => "NAN"
  | .infinite negative => if negative then "(-INFINITY)" else "INFINITY"
  | .finite negative x => signedLiteral "" negative x

def rustLiteral (type : String) : Decimal.Reading → String
  | .nan => type ++ "::NAN"
  | .infinite negative => type ++ (if negative then "::NEG_INFINITY" else "::INFINITY")
  | .finite negative x => signedLiteral ("_" ++ type) negative x

/-- Text of a leaf in a target language. -/
def Leaf.text (t : Target) : Leaf F → String
  | slot s => s!"w[{s}]"
  | literal v =>
      match t with
      | .c => cLiteral (ElementText.wideReading v)
      | .rust => rustLiteral (ElementText.rustType F) (ElementText.wideReading v)

/-- Line that copies the slots of an output, one per nonzero. -/
def storeLines (o : Nat) (slots : List Nat) : String :=
  String.join (slots.zipIdx.map fun (s, k) => s!"    res[{o}][{k}] = w[{s}];\n")

namespace Statement

def text (t : Target) (statement : Statement F) : String :=
  let indent := match t with
    | .c => "  "
    | .rust => "    "
  match statement, t with
  | load slot input nonzero, _ => indent ++ s!"w[{slot}] = arg[{input}][{nonzero}];\n"
  | assign slot value, _ => indent ++ s!"w[{slot}] = " ++ value.text t (Leaf.text t) ++ ";\n"
  | store o slots, .c => s!"  if (res[{o}]) \x7b\n" ++ storeLines o slots ++ "  \x7d\n"
  | store o slots, .rust => storeLines o slots

end Statement

namespace Program

/-- Opening lines of the C function; a work array has at least one slot. -/
def cHeader (p : Program F) : String :=
  let type := ElementText.cType F
  "#include <math.h>\n\n" ++
    s!"/* {p.name}: {p.nIn} input(s), {p.nOut} output(s) */\n" ++
    s!"int {p.name}(const {type}** arg, {type}** res) \x7b\n" ++
    s!"  {type} w[{max p.work 1}];\n"

/-- Opening lines of the Rust function. -/
def rustHeader (p : Program F) : String :=
  let type := ElementText.rustType F
  s!"/// {p.name}: {p.nIn} input(s), {p.nOut} output(s).\n" ++
    "#[allow(unused_variables, unused_mut, clippy::all)]\n" ++
    s!"pub fn {p.name}(arg: &[&[{type}]], res: &mut [&mut [{type}]]) \x7b\n" ++
    s!"    let mut w = vec![0.0_{type}; {p.work}];\n"

/-- Source text of a program. -/
def text (t : Target) (p : Program F) : String :=
  let body := String.join (p.body.map (Statement.text t))
  match t with
  | .c => p.cHeader ++ body ++ "  return 0;\n\x7d\n"
  | .rust => p.rustHeader ++ body ++ "\x7d\n"

end Program

end Text

/-- Source text of the value computation of a tape. -/
def Tape.exportSource {F : Type} [Zero F] [ElementText F] (f : Tape F) (t : Target)
    (name : String) : Except Failure String := do
  return (← f.program t name).text t

end SparseDiff
