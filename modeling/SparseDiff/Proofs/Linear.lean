import SparseDiff.Proofs.Duality

/-!
# Derivatives of a tape

The tangent of one input nonzero at one output nonzero is an entry of a Jacobian
(`Tape.derivative`). Tangents are linear in the seed (`Tape.tangentArray_eq_sum`), and
adjoints in theirs, so a forward direction yields sums of columns and an adjoint direction
sums of rows.
-/

namespace SparseDiff

variable {F : Type} [CommRing F]

/-- One at nonzero `c` of input `i`, zero elsewhere. -/
def unitTangent (i c : Nat) (j k : Nat) : F := if j = i ∧ k = c then 1 else 0

/-- A sum against a unit tangent. -/
theorem sum_mul_unitTangent
    {n : Nat} {len : Nat → Nat} {i c : Nat} (hi : i < n) (hc : c < len i) (g : Nat → Nat → F) :
    ∑ j ∈ Finset.range n, ∑ k ∈ Finset.range (len j), g j k * unitTangent i c j k = g i c := by
  rw [Finset.sum_eq_single i]
  · rw [Finset.sum_eq_single c]
    · simp [unitTangent]
    · intro k _ hk
      simp [unitTangent, hk]
    · intro hk
      exact absurd (Finset.mem_range.2 hc) hk
  · intro j _ hj
    simp [unitTangent, hj]
  · intro hj
    exact absurd (Finset.mem_range.2 hi) hj

namespace Tape

variable {f : Tape F}

/-- An input cell of the trace is a nonzero of an input, at its slot. -/
theorem input_of_getElem?_trace
    (hf : f.WellFormed) {s : Nat} {c : Cell F} (hs : f.trace[s]? = some c)
    (hinput : c.isInput = true) :
    ∃ i k, i < f.nIn ∧ k < f.inputLength i ∧ s = f.full.slot i k ∧ c = .input i k := by
  obtain ⟨p, e, k, he, hk, rfl, rfl⟩ := exists_of_getElem?_trace hf hs
  rw [isInput_cellAt] at hinput
  have hp := (hf.isInput_iff p e he).1 hinput
  obtain ⟨e', he', hnnz⟩ := hf.element_of_input hp
  rw [he] at he'
  cases he'
  exact ⟨p, k, hp, by omega, rfl, cellAt_input hf he hp _ k⟩

variable [Calculus F]

/-- Derivative of nonzero `r` of output `o` by nonzero `c` of input `i`. -/
def derivative (f : Tape F) (xs : List (List F)) (o i r c : Nat) : F :=
  (f.tangentArray xs (unitTangent i c)).getD (f.outputSlot o r) 0

variable [Calculus.Exact F]

/-- The tangent of a cell that is no input, by the tangents of all slots. -/
theorem getD_tangentArray_of_not_input
    (hf : f.WellFormed) (xs : List (List F)) (u : Nat → Nat → F) {s : Nat} {c : Cell F}
    (hs : f.trace[s]? = some c) (hinput : c.isInput = false) :
    (f.tangentArray xs u).getD s 0 =
      ∑ p ∈ Finset.range f.full.size,
        c.partialAt (f.valueArray xs) ((f.valueArray xs).getD s 0) p *
          (f.tangentArray xs u).getD p 0 := by
  have hlt := (List.getElem?_eq_some_iff.1 hs).1
  rw [length_trace hf] at hlt
  have hslots : ∀ r ∈ c.slots, r < f.full.size := fun r hr =>
    Nat.lt_trans (causal_trace hf s c hs r hr) hlt
  rw [tangentArray, Trace.getD_tangents u _ (causal_trace hf) hs,
    Cell.evalTangent_of_not_input hinput, Cell.tangent_eq_sum hslots]

/-- Tangents are linear in the seed. -/
theorem tangentArray_eq_sum
    (hf : f.WellFormed) (xs : List (List F)) (u : Nat → Nat → F) {s : Nat}
    (hs : s < f.full.size) :
    (f.tangentArray xs u).getD s 0 =
      ∑ i ∈ Finset.range f.nIn, ∑ k ∈ Finset.range (f.inputLength i),
        u i k * (f.tangentArray xs (unitTangent i k)).getD s 0 := by
  let g : Nat → F := fun s => ∑ i ∈ Finset.range f.nIn, ∑ k ∈ Finset.range (f.inputLength i),
    u i k * (f.tangentArray xs (unitTangent i k)).getD s 0
  have hget : ∀ {p : Nat}, p < f.full.size →
      ((List.range f.full.size).map g).toArray.getD p 0 = g p := by
    intro p hp
    simp [Array.getD_eq_getD_getElem?, hp]
  have hsum := Trace.getD_eq_getD_tangents u (f.valueArray xs) (causal_trace hf)
    (t := ((List.range f.full.size).map g).toArray) (fun s c hsc => ?_)
    (s := s) (by rw [length_trace hf]; exact hs)
  · rw [tangentArray, ← hsum, hget hs]
  have hlt := (List.getElem?_eq_some_iff.1 hsc).1
  rw [length_trace hf] at hlt
  rw [hget hlt]
  cases hinput : c.isInput with
  | true =>
      obtain ⟨i, k, hi, hk, rfl, rfl⟩ := input_of_getElem?_trace hf hsc hinput
      have hunit : ∀ j l, (f.tangentArray xs (unitTangent j l)).getD (f.full.slot i k) 0 =
          unitTangent i k j l := by
        intro j l
        rw [tangentArray_input hf hi hk]
        simp only [unitTangent, eq_comm]
      simp only [g, hunit]
      exact sum_mul_unitTangent hi hk u
  | false =>
      have hslots : ∀ r ∈ c.slots, r < f.full.size := fun r hr =>
        Nat.lt_trans (causal_trace hf s c hsc r hr) hlt
      rw [Cell.evalTangent_of_not_input hinput, Cell.tangent_eq_sum hslots]
      simp only [g, getD_tangentArray_of_not_input hf xs _ hsc hinput, Finset.mul_sum]
      -- exchange the sum over slots with the sums over the inputs
      calc
        _ = ∑ i ∈ Finset.range f.nIn, ∑ p ∈ Finset.range f.full.size,
              ∑ k ∈ Finset.range (f.inputLength i),
                u i k * (c.partialAt (f.valueArray xs) ((f.valueArray xs).getD s 0) p *
                  (f.tangentArray xs (unitTangent i k)).getD p 0) :=
            Finset.sum_congr rfl fun i _ => Finset.sum_comm
        _ = ∑ p ∈ Finset.range f.full.size, ∑ i ∈ Finset.range f.nIn,
              ∑ k ∈ Finset.range (f.inputLength i),
                u i k * (c.partialAt (f.valueArray xs) ((f.valueArray xs).getD s 0) p *
                  (f.tangentArray xs (unitTangent i k)).getD p 0) := Finset.sum_comm
        _ = _ := by
            refine Finset.sum_congr rfl fun p hp => ?_
            rw [hget (Finset.mem_range.1 hp)]
            simp only [g, Finset.mul_sum]
            refine Finset.sum_congr rfl fun i _ => Finset.sum_congr rfl fun k _ => ?_
            ring

/-- Output tangents are sums of columns of the Jacobians. -/
theorem tangentArray_output
    (hf : f.WellFormed) (xs : List (List F)) (u : Nat → Nat → F) {o r : Nat} (ho : o < f.nOut)
    (hr : r < f.outputLength o) :
    (f.tangentArray xs u).getD (f.outputSlot o r) 0 =
      ∑ i ∈ Finset.range f.nIn, ∑ k ∈ Finset.range (f.inputLength i),
        u i k * f.derivative xs o i r k :=
  tangentArray_eq_sum hf xs u (outputSlot_lt hf ho hr)

/-- Input adjoints are sums of rows of the Jacobians. -/
theorem adjoints_input
    (hf : f.WellFormed) (xs : List (List F)) (v : Nat → Nat → F) {o i c : Nat} (ho : o < f.nOut)
    (hi : i < f.nIn) (hc : c < f.inputLength i) :
    f.adjoints (f.valueArray xs) [o] v (f.full.slot i c) =
      ∑ r ∈ Finset.range (f.outputLength o), v o r * f.derivative xs o i r c := by
  have hsum := sum_adjoints_mul hf (show ∀ o' ∈ [o], o' < f.nOut by simpa using ho) v
    (unitTangent i c) xs
  rw [sum_mul_unitTangent hi hc fun j k =>
    f.adjoints (f.valueArray xs) [o] v (f.full.slot j k)] at hsum
  rw [hsum]
  simp [derivative]

end Tape

end SparseDiff
