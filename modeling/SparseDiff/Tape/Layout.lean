import SparseDiff.Tape.Basic

/-!
# Work layouts

The full layout gives every element slots of its own. The compact layout reuses the
slots of a value after its last reader has run; a reader's slots are allocated before
those of its operands are released, so no element writes over its own operands.
-/

namespace SparseDiff

/-- What a layout has to know of an element: its length and the positions it reads. -/
structure Span where
  length : Nat
  reads : List Nat
  deriving DecidableEq, Repr, Inhabited

namespace Layout

/-- Slots of its own for every element, in tape order. -/
def ofLengths (spans : List Span) : Layout :=
  let totals := runningTotals 0 (spans.map Span.length)
  ⟨totals.dropLast.toArray, totals.getLastD 0⟩

/-- Note that the element at `j` reads the positions `reads`. -/
def markReads (j : Nat) (reads : List Nat) (last : Array (Option Nat)) : Array (Option Nat) :=
  reads.foldl (fun last a => last.setIfInBounds a (some j)) last

/--
Position of the last reader of every element, its own position if nothing reads it, and
none for outputs, which stay live to the end.
-/
def lastReaders (spans : List Span) (outputs : List Nat) : Array (Option Nat) :=
  let own := ((List.range spans.length).map some).toArray
  let read := spans.zipIdx.foldl (fun last (s, j) => markReads j s.reads last) own
  outputs.foldl (fun last o => last.setIfInBounds o none) read

/-- Take the most recently released block of this length. -/
def takeBlock (length : Nat) : List (Nat × Nat) → Option (Nat × List (Nat × Nat))
  | [] => none
  | (n, offset) :: blocks =>
      if n = length then
        some (offset, blocks)
      else
        (takeBlock length blocks).map fun (o, rest) => (o, (n, offset) :: rest)

/-- State of the slot allocation. -/
structure Allocation where
  offsets : Array Nat
  released : Array Bool
  /-- Released blocks, length and offset, the latest first. -/
  free : List (Nat × Nat)
  size : Nat

namespace Allocation

/-- Slots for the element at `j`: a released block of its length or new slots. -/
def place (a : Allocation) (j length : Nat) : Allocation :=
  match takeBlock length a.free with
  | some (offset, free) =>
      { a with offsets := a.offsets.setIfInBounds j offset, free := free }
  | none =>
      { a with offsets := a.offsets.setIfInBounds j a.size, size := a.size + length }

/-- Release the slots of the element at `i`, which has `length` slots. -/
def release (a : Allocation) (i length : Nat) : Allocation :=
  { a with
    released := a.released.setIfInBounds i true
    free := if length = 0 then a.free else (length, a.offsets.getD i 0) :: a.free }

/-- Release the element at `i` if the element at `j` is its last reader. -/
def releaseAfter (last : Array (Option Nat)) (lengths : Array Nat) (j : Nat)
    (a : Allocation) (i : Nat) : Allocation :=
  if last.getD i none = some j ∧ a.released.getD i true = false then
    a.release i (lengths.getD i 0)
  else
    a

/-- Place the element at `j`, then release what it was the last to read, and itself. -/
def step (last : Array (Option Nat)) (lengths : Array Nat)
    (a : Allocation) (s : Span × Nat) : Allocation :=
  (s.1.reads ++ [s.2]).foldl (releaseAfter last lengths s.2) (a.place s.2 s.1.length)

end Allocation

/-- Slots reused after the last reader of a value. -/
def reusing (spans : List Span) (outputs : List Nat) : Layout :=
  let last := lastReaders spans outputs
  let lengths := (spans.map Span.length).toArray
  let start : Allocation :=
    ⟨Array.replicate spans.length 0, Array.replicate spans.length false, [], 0⟩
  let final := spans.zipIdx.foldl (Allocation.step last lengths) start
  ⟨final.offsets, final.size⟩

end Layout

end SparseDiff
