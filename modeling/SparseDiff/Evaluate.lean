import SparseDiff.Sweep.Adjoint

/-!
# Evaluation

Outputs of a tape together with forward sensitivities `J * u` for input seeds `u` and
adjoint sensitivities `Jᵀ * v` for output seeds `v`, all on the structural nonzeros. Every
length and the size of the memory are checked before anything is written.
-/

namespace SparseDiff

/-- Result of an evaluation. -/
structure Evaluation (F : Type) where
  /-- Nonzeros of every output. -/
  outputs : List (List F)
  /-- Forward sensitivities by direction and output. -/
  fwd : List (List (List F))
  /-- Adjoint sensitivities by direction and input. -/
  adj : List (List (List F))
  deriving Inhabited

/-- Each list must have one value per nonzero of its pattern; the first that fails is named. -/
def checkNonzeros {F : Type} (op : String) (what : Nat → Quantity) :
    (index : Nat) → List Pattern → List (List F) → Except Error Unit
  | index, p :: patterns, xs :: lists =>
      if xs.length ≠ p.nnz then
        .error (.mismatch op (what index) p.nnz xs.length)
      else
        checkNonzeros op what (index + 1) patterns lists
  | _, _, _ => .ok ()

/-- One list per pattern, and one value per nonzero. -/
def checkLists {F : Type} (op : String) (count : Quantity) (what : Nat → Quantity)
    (patterns : List Pattern) (lists : List (List F)) : Except Error Unit :=
  if lists.length ≠ patterns.length then
    .error (.mismatch op count patterns.length lists.length)
  else
    checkNonzeros op what 0 patterns lists

namespace Tape

variable {F : Type}

/-- Input values fit the input patterns. -/
def checkInputValues (f : Tape F) (op : String) (inputs : List (List F)) : Except Error Unit :=
  checkLists op .inputs .inputNonzeros f.inputPatterns inputs

/-- Every seed fits the patterns that it seeds; `d` is the direction of the first. -/
def checkSeeds (op : String) (count : Nat → Quantity) (what : Nat → Nat → Quantity)
    (patterns : List Pattern) : (d : Nat) → List (List (List F)) → Except Error Unit
  | _, [] => .ok ()
  | d, seed :: seeds => do
      checkLists op (count d) (what d) patterns seed
      checkSeeds op count what patterns (d + 1) seeds

/-- Entry of a nested list, by position and nonzero. -/
def seedAt [Zero F] (seed : List (Array F)) (i k : Nat) : F :=
  ((seed[i]?).getD #[]).getD k 0

/-- Nonzeros of output `o` in a work array. -/
def readOutput [Zero F] (f : Tape F) (l : Layout) (w : Array F) (o : Nat) :
    Except Failure (List F) := do
  match f.outputs[o]?, f.outputPatterns[o]? with
  | some position, some p =>
      let start ← l.offset position
      if start + p.nnz ≤ w.size ∨ p.nnz = 0 then
        return (slotsFrom start p.nnz).map (w.getD · 0)
      else
        .error .outOfBounds
  | _, _ => .error .outOfBounds

/-- Nonzeros of all outputs in a work array. -/
def readOutputs [Zero F] (f : Tape F) (l : Layout) (w : Array F) :
    Except Failure (List (List F)) :=
  (List.range f.nOut).mapM (f.readOutput l w)

variable [Zero F] [Add F] [Mul F] [Calculus F]

/-- Values over the full layout, without tangents. -/
def loadValues (f : Tape F) (op : String) (tape : List (Segment F)) (inputs : List (List F)) :
    Run F Unit := do
  f.loadInputs f.full inputs
  forwardSweep f.config.checkFinite op 0 tape

/-- Adjoint sensitivities for seeded outputs, after a value sweep over the full layout. -/
def adjointSensitivities (f : Tape F) (op : String) (tape : List (Segment F))
    (seeds : List (List (List F))) : Run F (List (List (List F))) := do
  seeds.zipIdx.forM fun (seed, d) => do
    clearAdjoint d
    let seed := seed.map List.toArray
    (List.range f.nOut).forM fun o => f.seedAdjoint d o (seedAt seed o)
  adjointSweep f.config.checkFinite op seeds.length tape
  (List.range seeds.length).mapM fun d =>
    (List.range f.nIn).mapM fun i => f.takeInputAdjoint d i

/-- Everything that an evaluation checks before it writes. -/
def checkEvaluation (f : Tape F) (op : String) (sizes : MemorySizes) (inputs : List (List F))
    (fwdSeeds adjSeeds : List (List (List F))) : Except Error Unit := do
  f.checkInputValues op inputs
  checkSeeds op .forwardSeedInputs .forwardSeedNonzeros f.inputPatterns 0 fwdSeeds
  checkSeeds op .adjointSeedOutputs .adjointSeedNonzeros f.outputPatterns 0 adjSeeds
  sizes.check op (f.requiredMemory fwdSeeds.length adjSeeds.length)

/-- Outputs with forward and adjoint sensitivities. -/
def evaluate (f : Tape F) (inputs : List (List F)) (fwdSeeds adjSeeds : List (List (List F))) :
    Run F (Evaluation F) := do
  let op := "evaluate"
  let (nfwd, nadj) := (fwdSeeds.length, adjSeeds.length)
  Run.check (f.checkEvaluation op (← get).sizes inputs fwdSeeds adjSeeds)
  let l := f.layout nadj
  f.loadInputs l inputs
  fwdSeeds.zipIdx.forM fun (seed, d) => f.loadTangent l d (seedAt (seed.map List.toArray))
  let tape ← Run.ofExcept (f.segments l)
  forwardSweep f.config.checkFinite op nfwd tape
  let m ← get
  let outputs ← Run.ofExcept (f.readOutputs l m.values)
  let fwd ← (m.fwd.toList.take nfwd).mapM fun t => Run.ofExcept (f.readOutputs l t)
  let adj ← if nadj = 0 then pure [] else f.adjointSensitivities op tape adjSeeds
  return ⟨outputs, fwd, adj⟩

/-- Outputs only, in a memory of their own. -/
def call (f : Tape F) (inputs : List (List F)) : Except Failure (List (List F)) :=
  ((f.evaluate inputs [] []).alone (f.memory 0 0)).map Evaluation.outputs

end Tape

end SparseDiff
