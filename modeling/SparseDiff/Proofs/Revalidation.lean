import SparseDiff.Graph.Stored
import SparseDiff.Proofs.Exact
import SparseDiff.Proofs.Requests

/-!
# What compilation checks of a stored graph

Operands of a stored graph may be missing, point forward or form cycles. The search checks every
node that it enters, but it does not enter declared inputs, and nothing else looks at their
operands: one that has no position is read out of bounds, and one that has a later position is
accepted. Behind the inputs every operand of an element has a smaller position
(`Tape.Assembled.read_lt`), and no other read fails.
-/

namespace SparseDiff

namespace Tape

open Search (Reached Uses)

section Reads

variable {F : Type} [Zero F] [Elementary F] [ElementText F] {g : Graph F}
  {inputs outputs order : List NodeId} {f : Tape F} {p : Nat} {e : Element F}

/-- The positions that an element reads are those of the operands of its node. -/
theorem Assembled.mem_reads_iff
    (h : Assembled g inputs outputs order f) (he : f.elements[p]? = some e) {q : Nat} :
    q ∈ e.instr.reads ↔ ∃ id d, order[p]? = some id ∧ Uses g id d ∧ order[q]? = some d := by
  have hp : p < order.length := by
    rw [← h.size]
    exact (Array.getElem?_eq_some_iff.1 he).1
  have hget : order[p]? = some order[p] := List.getElem?_eq_getElem hp
  obtain ⟨e', he', helement⟩ := h.element p _ hget
  rw [he] at he'
  cases he'
  constructor
  · intro hq
    obtain ⟨j, hj⟩ := List.mem_iff_getElem?.1 hq
    obtain ⟨d, hd, hplace⟩ := getElem?_of_forall₂ helement.reads hj
    exact ⟨_, d, hget, List.mem_of_getElem? hd, hplace⟩
  · rintro ⟨id, d, hid, huses, hq⟩
    rw [hget] at hid
    cases hid
    obtain ⟨j, hj⟩ := List.mem_iff_getElem?.1 huses
    obtain ⟨q', hq', hplace⟩ := getElem?_of_forall₂_left helement.reads hj
    rw [h.ordered.place_unique hq hplace]
    exact List.mem_of_getElem? hq'

theorem Assembled.read_lt_size
    (h : Assembled g inputs outputs order f) (he : f.elements[p]? = some e) {q : Nat}
    (hq : q ∈ e.instr.reads) :
    q < f.elements.size := by
  obtain ⟨_, _, -, -, hplace⟩ := (h.mem_reads_iff he).1 hq
  rw [h.size]
  exact (List.getElem?_eq_some_iff.1 hplace).1

/-- Behind the inputs, an element reads smaller positions only. -/
theorem Assembled.read_lt
    (h : Assembled g inputs outputs order f) (he : f.elements[p]? = some e)
    (hlate : inputs.length ≤ p) {q : Nat} (hq : q ∈ e.instr.reads) :
    q < p := by
  obtain ⟨id, d, hp, huses, hplace⟩ := (h.mem_reads_iff he).1 hq
  obtain ⟨q', hlt, hq'⟩ := h.ordered.operand_before hp hlate huses
  rwa [h.ordered.place_unique hplace hq']

/-- An input reads smaller positions only if its operands are inputs that are declared before. -/
theorem Assembled.input_reads_lt_iff
    (h : Assembled g inputs outputs order f) :
    (∀ (p : Nat) (e : Element F), p < inputs.length → f.elements[p]? = some e →
        ∀ q ∈ e.instr.reads, q < p) ↔
      ∀ (i : Nat) (id : NodeId), inputs[i]? = some id →
        ∀ d, Uses g id d → ∃ j < i, inputs[j]? = some d := by
  obtain ⟨rest, hrest⟩ := h.ordered.declared
  have hplace : ∀ i < inputs.length, order[i]? = inputs[i]? := fun i hi => by
    rw [← hrest, List.getElem?_append_left hi]
  constructor
  · intro hall i id hid d huses
    have hi : i < inputs.length := (List.getElem?_eq_some_iff.1 hid).1
    have hp : order[i]? = some id := (hplace i hi).trans hid
    obtain ⟨e, he, helement⟩ := h.element i id hp
    obtain ⟨k, hk⟩ := List.mem_iff_getElem?.1 huses
    obtain ⟨q, hq, hd⟩ := getElem?_of_forall₂_left helement.reads hk
    have hlt := hall i e hi he q (List.mem_of_getElem? hq)
    exact ⟨q, hlt, (hplace q (by omega)).symm.trans hd⟩
  · intro hall p e hp he q hq
    obtain ⟨id, d, hid, huses, hd⟩ := (h.mem_reads_iff he).1 hq
    rw [hplace p hp] at hid
    obtain ⟨j, hlt, hj⟩ := hall p id hid d huses
    rw [← hplace j (by omega)] at hj
    rwa [h.ordered.place_unique hd hj]

end Reads

/--
Compilation reads out of bounds exactly if the request passes all checks and a declared input
has an operand that is neither declared nor reached; it fails in no other way than this and by
refusing. On a tape all positions that elements read exist, behind the inputs they are smaller
than the position of the reader, and for all elements they are exactly if the operands of every
input are inputs that are declared before it.
-/
theorem compile_outOfBounds
    {F : Type} [Zero F] [Elementary F] [ElementText F] (g : Graph F)
    (inputs outputs : List NodeId) (config : Config) :
    (compile g inputs outputs config = .error .outOfBounds ↔
      (∃ order, Tape.order g inputs outputs = .ok order) ∧
        ∃ id ∈ inputs, ∃ d, Uses g id d ∧ d ∉ inputs ∧ ¬ Reached g inputs outputs d) ∧
    compile g inputs outputs config ≠ .error .tooLarge ∧
    ∀ f, compile g inputs outputs config = .ok f →
      (∀ (p : Nat) (e : Element F), f.elements[p]? = some e → ∀ q ∈ e.instr.reads,
        q < f.elements.size ∧ (inputs.length ≤ p → q < p)) ∧
      ((∀ (p : Nat) (e : Element F), f.elements[p]? = some e → ∀ q ∈ e.instr.reads, q < p) ↔
        ∀ (i : Nat) (id : NodeId), inputs[i]? = some id →
          ∀ d, Uses g id d → ∃ j < i, inputs[j]? = some d) := by
  refine ⟨?_, ?_, ?_⟩
  · cases h : Tape.order g inputs outputs with
    | error e =>
        rw [compile_eq_rejected h]
        simp
    | ok order =>
        have hmissing : (∃ id ∈ inputs, ∃ d, Uses g id d ∧ d ∉ inputs ∧
            ¬ Reached g inputs outputs d) ↔
              ¬ ∀ id ∈ inputs, ∀ d ∈ Search.operandsOf g id, d ∈ order := by
          simp only [(reached_of_order h).1, Uses, not_forall, not_or, exists_prop]
        rw [hmissing]
        constructor
        · intro hcompile
          refine ⟨⟨order, rfl⟩, fun hplaced => ?_⟩
          obtain ⟨f, hf⟩ := (exists_compile_iff h config).2 hplaced
          rw [hf] at hcompile
          cases hcompile
        · exact fun hplaced => compile_eq_outOfBounds h config hplaced.2
  · cases h : Tape.order g inputs outputs with
    | error e =>
        rw [compile_eq_rejected h]
        simp
    | ok order =>
        intro hlarge
        have hfailure := failsOutOfBounds_compile h config _ hlarge
        cases hfailure
  · intro f hf
    obtain ⟨order, -, h⟩ := assembled_of_compile hf
    have hinside : ∀ (p : Nat) (e : Element F), f.elements[p]? = some e → ∀ q ∈ e.instr.reads,
        q < f.elements.size ∧ (inputs.length ≤ p → q < p) := by
      intro p e he q hq
      exact ⟨h.read_lt_size he hq, fun hlate => h.read_lt he hlate hq⟩
    refine ⟨hinside, ?_⟩
    rw [← h.input_reads_lt_iff]
    constructor
    · exact fun hall p e _ he => hall p e he
    · intro hall p e he q hq
      rcases Nat.lt_or_ge p inputs.length with hearly | hlate
      · exact hall p e hearly he q hq
      · exact h.read_lt he hlate hq

/-- A stored leaf that lists an operand. -/
def storedLeaf (operand : NodeId) : List (StoredNode Int) :=
  [⟨.symbolic "x", [operand], ⟨1, 1, [0, 1], [0]⟩⟩]

/--
A declared leaf whose operand is missing makes compilation read out of bounds, and one that is
its own operand is accepted and reads its own position.
-/
theorem compile_unchecked_inputs :
    (∃ g, Graph.ofStored (storedLeaf 9) = .ok g ∧
      compile g [0] [0] {} = .error .outOfBounds) ∧
    ∃ g f e, Graph.ofStored (storedLeaf 0) = .ok g ∧ compile g [0] [0] {} = .ok f ∧
      f.elements[0]? = some e ∧ 0 ∈ e.instr.reads := by
  constructor
  · exact ⟨⟨#[⟨.symbolic "x", [9], ⟨1, #[[0]]⟩⟩]⟩, by cbv, by cbv⟩
  · refine ⟨⟨#[⟨.symbolic "x", [0], ⟨1, #[[0]]⟩⟩]⟩,
      ⟨⟨#[⟨.symbolic "x", [0], ⟨1, #[[0]]⟩⟩]⟩, #[⟨0, .input 0 [0], 1⟩], [0], [⟨1, #[[0]]⟩],
        [⟨1, #[[0]]⟩], ⟨#[0], 1⟩, ⟨#[0], 1⟩, {}⟩, ⟨0, .input 0 [0], 1⟩, by cbv, by cbv, rfl, ?_⟩
    exact List.mem_singleton_self 0

end Tape

end SparseDiff
