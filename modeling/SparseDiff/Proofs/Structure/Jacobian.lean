import SparseDiff.Proofs.Linear
import SparseDiff.Proofs.Structure.Chains

/-!
# Structural Jacobians are sound

The tables say which partials vanish everywhere (`Calculus.Structural`), so a cell has
partials at its dependencies only. Sets that are propagated forward therefore cover the
tangents of the unit seeds: where a number is not in the set of a slot, its tangent there is
zero. A derivative outside the pattern vanishes (`Tape.jacobianPattern_spec`).
-/

namespace SparseDiff

/-- The flags of the operations are true of their tables: what they rule out is zero. -/
class Calculus.Structural (F : Type) [Zero F] [Calculus F] : Prop where
  unaryDerivative : ∀ (op : UnaryOp) (x r : F), op.hasZeroDerivative = true →
    Calculus.unaryDerivative op x r = 0
  unarySecond : ∀ (op : UnaryOp) (x r : F), (op.isNonlinear && !op.hasZeroDerivative) = false →
    Calculus.unarySecond op x r = 0
  second_aa : ∀ (op : BinaryOp) (x y r : F), op.secondOrder.aa = false →
    (Calculus.binarySecond op x y r).1 = 0
  second_ab : ∀ (op : BinaryOp) (x y r : F), op.secondOrder.ab = false →
    (Calculus.binarySecond op x y r).2.1 = 0
  second_bb : ∀ (op : BinaryOp) (x y r : F), op.secondOrder.bb = false →
    (Calculus.binarySecond op x y r).2.2 = 0

instance {F : Type} [Zero F] [One F] [Add F] [Sub F] [Neg F] [Mul F] [Div F] [Elementary F] :
    Calculus.Structural F where
  unaryDerivative op x r h := by
    cases op with
    | sign | floor | ceil => rfl
    | _ => exact absurd h Bool.false_ne_true
  unarySecond op x r h := by
    cases op with
    | neg | abs | sign | floor | ceil => rfl
    | _ => exact absurd h (by decide)
  second_aa op x y r h := by
    cases op with
    | pow | atan2 => exact absurd h (by decide)
    | _ => rfl
  second_ab op x y r h := by
    cases op with
    | add | sub | min | max => rfl
    | _ => exact absurd h (by decide)
  second_bb op x y r h := by
    cases op with
    | add | sub | mul | min | max => rfl
    | _ => exact absurd h (by decide)

section Covers

variable {F : Type} [Zero F]

/-- Where number `j` is not in the set of slot `s`, vector `j` vanishes at `s`. -/
def CoversAt {w : Nat} (bits : Array (BitVec w)) (g : Nat → Nat → F) (s : Nat) : Prop :=
  ∀ j < w, bitAt bits s j = false → g j s = 0

/--
The sets cover the vectors at all slots that the walk has passed, and at the inputs among
the slots to come.
-/
structure CoveredSo {w : Nat} (n : Nat) (g : Nat → Nat → F) (rest : List (Nat × Cell F))
    (bits : Array (BitVec w)) : Prop where
  size : bits.size = n
  covers : ∀ s < n, (∀ v ∈ rest, v.1 = s → v.2.isInput = true) → CoversAt bits g s

variable {w n : Nat} {bits : Array (BitVec w)} {rest : List (Nat × Cell F)}

/-- An input keeps the set that it was given. -/
theorem CoveredSo.skip
    {g : Nat → Nat → F} {s : Nat} {c : Cell F} (h : CoveredSo n g ((s, c) :: rest) bits)
    (hinput : c.isInput = true) :
    CoveredSo n g rest bits := by
  refine ⟨h.size, fun p hp hcome => h.covers p hp fun v hv hvp => ?_⟩
  rcases List.mem_cons.1 hv with rfl | hv
  · exact hinput
  · exact hcome v hv hvp

/-- In tape order, the sets cover the vectors at all slots before the next cell. -/
theorem CoveredSo.of_lt
    {g : Nat → Nat → F} {s : Nat} {c : Cell F} (h : CoveredSo n g ((s, c) :: rest) bits)
    (hs : s < n) (hrest : ∀ v ∈ rest, s < v.1) {r : Nat} (hr : r < s) :
    CoversAt bits g r := by
  refine h.covers r (Nat.lt_trans hr hs) fun v hv hvr => ?_
  rcases List.mem_cons.1 hv with rfl | hv
  · simp only at hvr
    omega
  · have := hrest v hv
    omega

end Covers

variable {F : Type} [CommRing F] [Calculus F]

namespace Cell

variable [Calculus.Structural F]

/-- A cell has no partial derivative at a slot that it does not depend on. -/
theorem partialAt_eq_zero_of_not_mem_dependencies
    {c : Cell F} {p : Nat} (hp : p ∉ c.dependencies) (w : Array F) (r : F) :
    c.partialAt w r p = 0 := by
  cases c with
  | unary op a =>
      simp only [partialAt]
      split
      · next ha =>
          cases hzero : op.hasZeroDerivative with
          | true => exact Calculus.Structural.unaryDerivative op _ r hzero
          | false =>
              refine absurd ?_ hp
              simp [dependencies, hzero, ha]
      · rfl
  | select tol cond source =>
      have hsource : source ≠ p := by
        rintro rfl
        exact hp (by simp [dependencies])
      simp [partialAt, hsource]
  | _ => exact partialAt_eq_zero hp w r

/-- A cell whose dependencies have no tangent has none. -/
theorem tangent_eq_zero
    [Calculus.Exact F] {c : Cell F} {n : Nat} (hslots : ∀ s ∈ c.slots, s < n) {t : Array F}
    (ht : ∀ s ∈ c.dependencies, t.getD s 0 = 0) (w : Array F) (r : F) :
    c.tangent w r t = 0 := by
  rw [tangent_eq_sum hslots]
  refine Finset.sum_eq_zero fun p _ => ?_
  by_cases hp : p ∈ c.dependencies
  · rw [ht p hp, mul_zero]
  · rw [partialAt_eq_zero_of_not_mem_dependencies hp, zero_mul]

end Cell

section Walks

variable {w n : Nat} {bits : Array (BitVec w)} {rest : List (Nat × Cell F)}

/-- One step of a forward walk. -/
theorem CoveredSo.step
    [Calculus.Exact F] [Calculus.Structural F] {T : Nat → Array F} {x : Array F} {s : Nat}
    {c : Cell F} (h : CoveredSo n (fun j s => (T j).getD s 0) ((s, c) :: rest) bits)
    (hs : s < n) (hslots : ∀ r ∈ c.slots, r < s)
    (hrest : ∀ v ∈ rest, s < v.1)
    (hT : ∀ j, (T j).getD s 0 = c.tangent x (x.getD s 0) (T j)) :
    CoveredSo n (fun j s => (T j).getD s 0) rest (bits.setIfInBounds s (c.gatherBits bits)) := by
  refine ⟨by rw [Array.size_setIfInBounds, h.size], fun p hp hcome => ?_⟩
  by_cases hps : p = s
  · subst hps
    intro j hj hbit
    rw [bitAt_setIfInBounds_self (by rw [h.size]; exact hp)] at hbit
    have hnone : ∀ r ∈ c.dependencies, (T j).getD r 0 = 0 := by
      intro r hr
      have hlt := hslots r (Cell.mem_slots_of_mem_dependencies hr)
      refine h.of_lt hs hrest hlt j hj ?_
      by_contra hset
      rw [Bool.not_eq_false] at hset
      rw [Cell.getLsbD_gatherBits_iff.2 ⟨r, hr, hset⟩] at hbit
      cases hbit
    exact (hT j).trans (Cell.tangent_eq_zero hslots hnone _ _)
  · intro j hj hbit
    rw [bitAt_setIfInBounds_ne hps] at hbit
    refine h.covers p hp (fun v hv hvp => ?_) j hj hbit
    rcases List.mem_cons.1 hv with rfl | hv
    · exact absurd hvp.symm hps
    · exact hcome v hv hvp

end Walks

namespace Tape

variable {f : Tape F} {w : Nat}

section Forward

variable {xs : List (List F)} {seeds : Nat → Nat → Nat → F}

/-- Before a forward walk it is enough that the sets cover the seeds at the inputs. -/
theorem coveredSo_ascent
    (hf : f.WellFormed) {bits : Array (BitVec w)} (hsize : bits.size = f.full.size)
    (hseeds : ∀ i < f.nIn, ∀ k < f.inputLength i, ∀ j < w,
      bitAt bits (f.full.slot i k) j = false → seeds j i k = 0) :
    CoveredSo f.full.size (fun j s => (f.tangentArray xs (seeds j)).getD s 0) f.ascent bits := by
  refine ⟨hsize, fun s hs hcome j hj hbit => ?_⟩
  obtain ⟨c, hc⟩ := mem_visits_of_lt hf hs
  obtain ⟨i, k, hi, hk, rfl, -⟩ := input_of_getElem?_trace hf
    (getElem?_trace_of_mem_visits hf hc) (hcome (s, c) (mem_ascent_iff.2 hc) rfl)
  rw [tangentArray_input hf hi hk]
  exact hseeds i hi k hk j hj hbit

variable [Calculus.Exact F] [Calculus.Structural F]

/-- A visited cell that is not an input passes the sets on. -/
theorem coveredSo_step
    (hf : f.WellFormed) {bits : Array (BitVec w)} {v : Nat × Cell F} {rest : List (Nat × Cell F)}
    (h : CoveredSo f.full.size (fun j s => (f.tangentArray xs (seeds j)).getD s 0) (v :: rest) bits)
    (hv : v ∈ f.visits) (hrest : ∀ v' ∈ rest, v.1 < v'.1) (hinput : v.2.isInput = false) :
    CoveredSo f.full.size (fun j s => (f.tangentArray xs (seeds j)).getD s 0) rest
      (bits.setIfInBounds v.1 (v.2.gatherBits bits)) := by
  obtain ⟨hs, hslots⟩ := lt_of_mem_visits hf hv
  exact CoveredSo.step (T := fun j => f.tangentArray xs (seeds j)) (x := f.valueArray xs) h hs
    hslots hrest fun j => tangentArray_of_mem_visits hf hv hinput

/-- Sets that are propagated forward cover the tangents. -/
theorem coversAt_propagateForward
    (hf : f.WellFormed) (xs : List (List F)) (seeds : Nat → Nat → Nat → F)
    {bits : Array (BitVec w)} (hsize : bits.size = f.full.size)
    (hseeds : ∀ i < f.nIn, ∀ k < f.inputLength i, ∀ j < w,
      bitAt bits (f.full.slot i k) j = false → seeds j i k = 0)
    {s : Nat} (hs : s < f.full.size) :
    CoversAt (propagateForward (f.segmentsAt f.full) bits)
      (fun j s => (f.tangentArray xs (seeds j)).getD s 0) s := by
  have hwalk : ∀ (rest : List (Nat × Cell F)) (bits : Array (BitVec w)),
      rest.Pairwise (fun a b => a.1 < b.1) → (∀ v ∈ rest, v ∈ f.visits) →
      CoveredSo f.full.size (fun j s => (f.tangentArray xs (seeds j)).getD s 0) rest bits →
      CoveredSo f.full.size (fun j s => (f.tangentArray xs (seeds j)).getD s 0) []
        (rest.foldl (fun bits v =>
          if v.2.isInput then bits else bits.setIfInBounds v.1 (v.2.gatherBits bits)) bits) := by
    intro rest
    induction rest with
    | nil => exact fun _ _ _ h => h
    | cons v rest ih =>
        intro bits hsorted hmem h
        obtain ⟨hhead, htail⟩ := List.pairwise_cons.1 hsorted
        rw [List.foldl_cons]
        refine ih _ htail (fun v' hv' => hmem v' (List.mem_cons_of_mem _ hv')) ?_
        cases hinput : v.2.isInput with
        | true => exact h.skip hinput
        | false => exact coveredSo_step hf h (hmem v (List.mem_cons_self ..)) hhead hinput
  have hend := hwalk f.ascent bits (pairwise_ascent hf) (fun v hv => mem_ascent_iff.1 hv)
    (coveredSo_ascent hf hsize hseeds)
  unfold propagateForward
  rw [walkForward_eq_foldl]
  exact hend.covers s hs fun v hv => absurd hv List.not_mem_nil

end Forward

section Patterns

variable [Calculus.Exact F] [Calculus.Structural F] {o i : Nat}

/-- What is outside the pattern is zero. -/
theorem derivative_eq_zero_of_not_mem
    (hf : f.WellFormed) (hi : i < f.nIn) (ho : o < f.nOut) {r : Nat}
    (hr : r < f.outputLength o) {c : Nat}
    (hc : c ∉ (f.jacobianForward (f.segmentsAt f.full) (f.full.slot i 0, f.inputLength i)
      (f.outputSlot o 0, f.outputLength o)).row r) (xs : List (List F)) :
    f.derivative xs o i r c = 0 := by
  have hroom : f.full.slot i 0 + f.inputLength i ≤ f.full.size := inputSlot_add_length_le hf hi
  have hsize : ∀ first,
      (seedBlock f.full.size (f.full.slot i 0) (f.inputLength i) first).size = f.full.size :=
    fun first => size_seedBlock ..
  have hbit := Bool.eq_false_iff.2
    (mt (mem_row_collected_iff (lt_of_bitAt_forward hf hi) hr).2 hc)
  rw [outputSlot_add] at hbit
  have hlt : c % wordSize < wordSize := Nat.mod_lt _ (Nat.succ_pos 63)
  have hcovers := coversAt_propagateForward hf xs
    (fun j => unitTangent i (c / wordSize * wordSize + j))
    (hsize (c / wordSize * wordSize)) (fun i' hi' k hk j hj hbit => by
      by_contra hne
      obtain ⟨rfl, rfl⟩ : i' = i ∧ k = c / wordSize * wordSize + j := by
        by_contra hdiff
        exact hne (if_neg hdiff)
      rw [Bool.eq_false_iff] at hbit
      exact hbit ((bitAt_seedBlock_iff hroom).2
        ⟨hj, hk, by rw [Nat.add_assoc, Layout.slot_zero_add]⟩))
    (outputSlot_lt hf ho hr) _ hlt hbit
  simp only [Nat.div_add_mod'] at hcovers
  exact hcovers

/-- The structural Jacobian of a block exists, and a derivative outside it vanishes. -/
theorem jacobianPattern_spec
    (hf : f.WellFormed) (ho : o < f.nOut) (hi : i < f.nIn) :
    ∃ p, f.jacobianPattern o i = .ok p ∧ p.WellFormed ∧
      p.nrow = f.outputLength o ∧ p.ncol = f.inputLength i ∧
      ∀ r < f.outputLength o, ∀ c < f.inputLength i, c ∉ p.row r →
        ∀ xs, f.derivative xs o i r c = 0 :=
  ⟨_, jacobianPattern_eq hf ho hi, wellFormed_jacobianForward hf hi o,
    nrow_jacobianForward f i o, rfl,
    fun _ hr _ _ hc => derivative_eq_zero_of_not_mem hf hi ho hr hc⟩

end Patterns

end Tape

end SparseDiff
