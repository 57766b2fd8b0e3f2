import SparseDiff.Calculus
import SparseDiff.Tape.Cell

/-!
# Work memory

All state of a sweep lives in a `Memory` that the caller owns. A `Run` is a computation
on a memory; when it fails, the memory keeps what was written so far.
-/

namespace SparseDiff

/-- Sizes of a memory. -/
structure MemorySizes where
  /-- Slots of one work array. -/
  work : Nat
  /-- Tangent arrays. -/
  nfwd : Nat
  /-- Adjoint arrays. -/
  nadj : Nat
  deriving DecidableEq, Repr, Inhabited

namespace MemorySizes

/-- Arrays for the tangents of adjoints: one per forward direction if there are adjoints. -/
def second (s : MemorySizes) : Nat := if 0 < s.nadj then s.nfwd else 0

/-- Number of scalars in all arrays, as a word of 64 bits. -/
def total (s : MemorySizes) : UInt64 := .ofNat (s.work * (1 + s.nfwd + s.nadj + s.second))

/-- Bytes that one array may span. -/
def maxArrayBytes : Nat := UInt64.size / 2 - 1

/-- Bytes that an array takes inside another one: its address, length and capacity. -/
def headerBytes : Nat := 24

/-- No array spans more than `maxArrayBytes`; `width` is the number of bytes of a scalar. -/
def isAllocatable (width : Nat) (s : MemorySizes) : Bool :=
  s.work * width ≤ maxArrayBytes
    && [s.nfwd, s.nadj, s.second].all (· * headerBytes ≤ maxArrayBytes)

/-- The memory must hold what a sweep needs; the first shortage is reported. -/
def check (op : String) (held needed : MemorySizes) : Except Error Unit :=
  let short := fun what need available =>
    Except.error (Error.dimension op (.memory what need available))
  if held.work < needed.work then short "work slots" needed.work held.work
  else if held.nfwd < needed.nfwd then short "forward directions" needed.nfwd held.nfwd
  else if held.nadj < needed.nadj then short "adjoint directions" needed.nadj held.nadj
  else if held.second < needed.second then
    short "second-order directions" needed.second held.second
  else .ok ()

end MemorySizes

/-- Work arrays of a sweep. -/
structure Memory (F : Type) where
  sizes : MemorySizes
  values : Array F
  /-- Tangents, one array per forward direction. -/
  fwd : Array (Array F)
  /-- Adjoints, one array per adjoint direction. -/
  adj : Array (Array F)
  /-- Tangents of the adjoints. -/
  adjFwd : Array (Array F)
  deriving Inhabited

/-- Zeroed arrays of the given sizes. -/
def Memory.new {F : Type} [Zero F] (sizes : MemorySizes) : Memory F :=
  let zeros : Array F := Array.replicate sizes.work 0
  { sizes
    values := zeros
    fwd := Array.replicate sizes.nfwd zeros
    adj := Array.replicate sizes.nadj zeros
    adjFwd := Array.replicate sizes.second zeros }

/-- Zeroed arrays of sizes that the caller is free to choose. -/
def Memory.allocate {F : Type} [Zero F] [ElementWidth F] (sizes : MemorySizes) :
    Except Failure (Memory F) :=
  if sizes.isAllocatable (ElementWidth.bytes F) then .ok (Memory.new sizes)
  else .error .tooLarge

namespace Tape

variable {F : Type}

/-- Sizes for `nfwd` forward and `nadj` adjoint directions. -/
def requiredMemory (f : Tape F) (nfwd nadj : Nat) : MemorySizes :=
  ⟨(f.layout nadj).size, nfwd, nadj⟩

/-- A fresh memory for `nfwd` forward and `nadj` adjoint directions. -/
def memory [Zero F] (f : Tape F) (nfwd nadj : Nat) : Memory F :=
  Memory.new (f.requiredMemory nfwd nadj)

/-- A fresh memory for numbers of directions that the caller is free to choose. -/
def allocate [Zero F] [ElementWidth F] (f : Tape F) (nfwd nadj : Nat) :
    Except Failure (Memory F) :=
  Memory.allocate (f.requiredMemory nfwd nadj)

end Tape

/-- A computation on a memory. -/
abbrev Run (F : Type) : Type → Type := ExceptT Failure (StateM (Memory F))

namespace Run

variable {F : Type} {α : Type}

/-- Result of a computation on a memory that is then dropped. -/
def alone (x : Run F α) (m : Memory F) : Except Failure α := (x.run m).1

def reject (e : Error) : Run F α := throw (.rejected e)

def ofExcept : Except Failure α → Run F α
  | .ok a => pure a
  | .error e => throw e

/-- Lift a check that can only refuse. -/
def check (x : Except Error α) : Run F α := ofExcept (orReject x)

/-- Every slot must lie inside the work arrays. -/
def requireSlots (slots : List Nat) : Run F Unit := do
  let m ← get
  if slots.all (· < m.values.size) then
    return ()
  else
    throw .outOfBounds

end Run

/-- Replace the first `n` items, each by a function of its index and itself. -/
def updateFirst {α : Type} (n : Nat) (f : Nat → α → α) (items : Array α) : Array α :=
  (List.range n).foldl (fun items d => items.modify d (f d)) items

/-- Value in a slot; a structural zero has none. -/
def readSlot {F : Type} [Zero F] (w : Array F) : Option Nat → F
  | some s => w.getD s 0
  | none => 0

/-- Apply a function to the value in a slot, if there is a slot. -/
def modifySlot {F : Type} (w : Array F) (slot : Option Nat) (f : F → F) : Array F :=
  match slot with
  | some s => w.modify s f
  | none => w

end SparseDiff
