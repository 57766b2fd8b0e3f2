import SparseDiff.Proofs.Products
import SparseDiff.Proofs.Series

/-!
# Derivatives of rational tapes

Over power series, the value sweep of a rational tape expands its outputs along a line
(`Tape.expands_seriesArray`). Twice the second coefficients are passed from cell to cell by the
first partials, with the second derivatives of the cells as sources; against the adjoints of an
output they sum to its curvature (`Tape.curvature_eq_sum_output`). So what the sweeps return are the
first and second derivatives along the line (`Tape.rational_expansion`).
-/

namespace SparseDiff

/-- Inputs, constants, gathers and rational operations. -/
def Instr.isRational {F : Type} : Instr F → Bool
  | input _ _ | constant _ | gather _ _ _ => true
  | unary op _ => op.isRational
  | binary op _ _ => op.isRational
  | ifElse _ _ _ => false

theorem Instr.isRational_cellAt
    {F : Type} [Zero F] (instr : Instr F) (slot : Nat → Nat → Nat) (k : Nat) :
    (instr.cellAt slot k).isRational = instr.isRational := by
  cases instr <;> rfl

namespace Tape

/-- Every instruction of the tape is rational. -/
def isRational {F : Type} (f : Tape F) : Bool := f.elements.all fun e => e.instr.isRational

theorem isRational_of_mem_visits
    {F : Type} [Zero F] {f : Tape F} (h : f.isRational = true) {v : Nat × Cell F}
    (hv : v ∈ f.visits) :
    v.2.isRational = true := by
  obtain ⟨p, e, k, he, -, rfl⟩ := mem_visits_iff.1 hv
  rw [Instr.isRational_cellAt]
  exact Array.all_eq_true'.1 h e (Array.mem_of_getElem? he)

/-- With inputs `xs`, no cell divides by zero; a structural zero counts as zero. -/
def Regular {F : Type} [Zero F] [Calculus F] (f : Tape F) (xs : List (List F)) : Prop :=
  ∀ v ∈ f.visits, v.2.Regular (f.valueArray xs)

section Curvature

variable {F : Type} [CommRing F] [Calculus F] [Calculus.Exact F] {f : Tape F}

/--
Numbers that vanish at the inputs and that every other cell passes on with its second derivative
are, at an output, the curvature along the tangents.
-/
theorem curvature_eq_sum_output
    (hf : f.WellFormed) {w t q : Array F} {o : Nat} (ho : o < f.nOut)
    (hinput : ∀ v ∈ f.visits, v.2.isInput = true → q.getD v.1 0 = 0)
    (hother : ∀ v ∈ f.visits, v.2.isInput = false → q.getD v.1 0 =
      v.2.tangent w (w.getD v.1 0) q + v.2.quad w (w.getD v.1 0) t t) :
    curvature w t t f.visits (f.seedVector [o] fun _ _ => 1) =
      ∑ k ∈ Finset.range (f.outputLength o), q.getD (f.outputSlot o k) 0 := by
  have hwalk := sum_pullAll_add_curvature (n := f.full.size) (w := w) (t := t) (q := q)
    (fun v hv => ⟨(lt_of_mem_visits hf hv).1, slots_lt_of_mem_visits hf hv, hother v hv⟩)
    (f.seedVector [o] fun _ _ => 1)
  -- the walk leaves adjoints at the inputs only, where the numbers vanish
  have hleft : ∑ p ∈ Finset.range f.full.size,
      pullAll w f.visits (f.seedVector [o] fun _ _ => 1) p * q.getD p 0 = 0 := by
    refine Finset.sum_eq_zero fun p hp => ?_
    obtain ⟨c, hc⟩ := mem_visits_of_lt hf (Finset.mem_range.1 hp)
    cases hkind : c.isInput with
    | true => rw [hinput (p, c) hc hkind, mul_zero]
    | false =>
        rw [pullAll_eq_zero w (readersFirst_visits hf) (fun _ => not_mem_slots_of_mem_visits hf)
          hc hkind, zero_mul]
  rw [hleft, zero_add] at hwalk
  rw [hwalk]
  have hseed := sum_seedVector_mul hf (show ∀ o' ∈ [o], o' < f.nOut by simpa using ho)
    (fun _ _ => 1) fun p => q.getD p 0
  simpa using hseed

end Curvature

/-- The tape over power series. -/
def overSeries {F : Type} [CommRing F] (f : Tape F) : Tape (Series F) := f.map Series.C

section Arrays

variable {F : Type} [CommRing F] [Calculus (Series F)]

/-- The values over power series, on the line through `xs` in direction `us`. -/
def seriesArray (f : Tape F) (xs us : List (List F)) : Array (Series F) :=
  f.overSeries.valueArray (zipLists Series.line xs us)

/-- Twice their second coefficients. -/
def secondArray (f : Tape F) (xs us : List (List F)) : Array F :=
  (f.seriesArray xs us).map fun x => 2 * x.c₂

theorem getD_secondArray
    (f : Tape F) (xs us : List (List F)) (s : Nat) :
    (f.secondArray xs us).getD s 0 = 2 * ((f.seriesArray xs us).getD s 0).c₂ := by
  rw [secondArray, Array.getD_eq_getD_getElem?, Array.getD_eq_getD_getElem?, Array.getElem?_map]
  cases (f.seriesArray xs us)[s]? with
  | none => exact (mul_zero 2).symm
  | some x => rfl

end Arrays

section Expansion

variable {F : Type} [Field F] [Elementary F] [Elementary.Exact F] [Elementary (Series F)]
  {f : Tape F} {xs us : List (List F)} (hf : f.WellFormed) (hrational : f.isRational = true)
  (hregular : f.Regular xs) (hx : FitLists f.inputPatterns xs) (hu : FitLists f.inputPatterns us)

include hf hrational hregular hx hu

/-- A cell expands at its slot if the slots that it reads do. -/
theorem expands_cell
    {s : Nat} {c : Cell F} (hc : (s, c) ∈ f.visits)
    (hslots : ∀ r ∈ c.slots, Expands ((f.seriesArray xs us).getD r 0) ((f.valueArray xs).getD r 0)
      ((f.tangentArray xs (seedOf us)).getD r 0) ((f.secondArray xs us).getD r 0)) :
    Expands ((f.seriesArray xs us).getD s 0)
      ((f.valueArray xs).getD s 0) ((f.tangentArray xs (seedOf us)).getD s 0)
      (c.evalTangent (fun _ _ => 0) (f.valueArray xs) ((f.valueArray xs).getD s 0)
          (f.secondArray xs us) +
        c.quad (f.valueArray xs) ((f.valueArray xs).getD s 0) (f.tangentArray xs (seedOf us))
          (f.tangentArray xs (seedOf us))) := by
  have hinputs : seedAt ((zipLists Series.line xs us).map List.toArray) =
      fun i k => Series.line (seedAt (xs.map List.toArray) i k) (seedOf us i k) := by
    funext i k
    exact seedOf_zipLists Series.line_zero hx hu i k
  have hget := getElem?_trace_of_mem_visits hf hc
  have hseries : (f.seriesArray xs us).getD s 0 = (c.map Series.C).eval _ (f.seriesArray xs us) :=
    getD_valueArray_map rfl hf hc (zipLists Series.line xs us)
  rw [hseries, getD_tangentArray hf xs _ hget, getD_valueArray hf xs hget, hinputs]
  exact Cell.expands (isRational_of_mem_visits hrational hc) (hregular _ hc) hslots _ _

/-- On a line, the values of a rational tape expand. -/
theorem expands_seriesArray :
    ∀ s < f.full.size, Expands ((f.seriesArray xs us).getD s 0) ((f.valueArray xs).getD s 0)
      ((f.tangentArray xs (seedOf us)).getD s 0) ((f.secondArray xs us).getD s 0) := by
  refine slot_induction hf fun s c hc hread => ?_
  have hcell := expands_cell hf hrational hregular hx hu hc hread
  exact ⟨hcell.c₀, hcell.c₁, (getD_secondArray f xs us s).symm⟩

/-- Second coefficients are passed on by the partials, with second derivatives as sources. -/
theorem getD_secondArray_of_mem_visits
    {s : Nat} {c : Cell F} (hc : (s, c) ∈ f.visits) :
    (f.secondArray xs us).getD s 0 =
      c.evalTangent (fun _ _ => 0) (f.valueArray xs) ((f.valueArray xs).getD s 0)
          (f.secondArray xs us) +
        c.quad (f.valueArray xs) ((f.valueArray xs).getD s 0) (f.tangentArray xs (seedOf us))
          (f.tangentArray xs (seedOf us)) := by
  have hcell := expands_cell hf hrational hregular hx hu hc fun r hr =>
    expands_seriesArray hf hrational hregular hx hu r (slots_lt_of_mem_visits hf hc r hr)
  exact (getD_secondArray f xs us s).trans hcell.c₂

/-- At an output, second coefficients are the curvature along the direction. -/
theorem sum_secondArray_eq_pairing
    {o : Nat} (ho : o < f.nOut) :
    ∑ k ∈ Finset.range (f.outputLength o), (f.secondArray xs us).getD (f.outputSlot o k) 0 =
      pairing us (f.hessianTimes xs o us) := by
  have hsecond := fun {v : Nat × Cell F} (hv : v ∈ f.visits) =>
    getD_secondArray_of_mem_visits hf hrational hregular hx hu (s := v.1) (c := v.2) hv
  rw [pairing_hessianTimes hf xs o us hu]
  refine (curvature_eq_sum_output hf ho (fun v hv hinput => ?_) fun v hv hinput => ?_).symm
  · rw [hsecond hv, Cell.quad_input hinput, add_zero]
    obtain ⟨s, c⟩ := v
    cases c with
    | input i k => rfl
    | _ => simp [Cell.isInput] at hinput
  · rw [hsecond hv, Cell.evalTangent_of_not_input hinput]

end Expansion

section Evaluation

variable {F : Type} [Field F] [Elementary F] [Elementary.Exact F] [Elementary (Series F)]
  [Elementary.Exact (Series F)] [ElementText F] {f : Tape F} {xs us : List (List F)}

/--
The derivatives of a rational tape are true derivatives. Evaluate a compiled tape at `xs`, where
no divisor is zero, with any tangents. Over power series, on the line through `xs` in one of the
directions `us`, a scalar output is its value, then its sensitivity along `us`, then half of the
product of `us` with the Hessian times `us`, as a second-order sweep finds it.
-/
theorem rational_expansion
    {g : Graph F} {inputs outputs : List NodeId} {config : Config} (hbare : g.BareLeaves)
    (hcompile : compile g inputs outputs config = .ok f) {o : Nat} {out : Pattern}
    (ho : f.outputPatterns[o]? = some out) (hscalar : out.isDenseScalar = true)
    (hrational : f.isRational = true) (hregular : f.Regular xs)
    {tangents adjoints : List (List (List F))} {d : Nat} (hd : tangents[d]? = some us)
    {m : Memory F} (hm : m.WellSized)
    (hcheck : f.checkEvaluation "evaluate" m.sizes xs tangents adjoints = .ok ())
    {m' : Memory F} (hm' : m'.WellSized)
    (hcheck' : m'.sizes.check hessianOp (f.requiredMemory tangents.length 1) = .ok ())
    {m'' : Memory (Series F)} (hm'' : m''.WellSized)
    (hcheck'' : m''.sizes.check "evaluate" (f.overSeries.requiredMemory 0 0) = .ok ()) :
    ∃ e sens y a b tape H s,
      (f.evaluate xs tangents adjoints).alone m = .ok e ∧
      e.outputs[o]? = some [y] ∧ e.fwd[d]? = some sens ∧ sens[o]? = some [a] ∧
      f.segments f.full = .ok tape ∧ H.length = f.nIn ∧
      (∀ i < f.nIn, ∃ products,
        (f.hessianProducts tape xs o i (tangents.map seedOf)).alone m' = .ok products ∧
        products[d]? = some (H.getD i [])) ∧
      2 * b = pairing us H ∧
      (f.overSeries.evaluate (zipLists Series.line xs us) [] []).alone m'' = .ok s ∧
      s.outputs[o]? = some [Series.C y + Series.C a * Series.t + Series.C b * Series.t ^ 2] := by
  obtain ⟨order, h⟩ := compiled_of_compile hbare hcompile
  have hf := h.wellFormed
  have hout : o < f.nOut := (List.getElem?_eq_some_iff.1 ho).1
  have haccepts := checkEvaluation_eq_ok_iff.1 hcheck
  have hx := haccepts.fitInputs
  have hu := haccepts.fitFwd us (List.mem_of_getElem? hd)
  obtain ⟨hwork, hnfwd, hnadj, -⟩ := MemorySizes.check_eq_ok_iff.1 hcheck''
  have haccepts'' : f.overSeries.Accepts m''.sizes (zipLists Series.line xs us) [] [] :=
    ⟨hx.zipLists Series.line hu, by simp, by simp, hwork, hnfwd, hnadj⟩
  obtain ⟨m₁, hevaluate⟩ := gives_evaluate hf hm haccepts
  obtain ⟨m₂, hseries⟩ := gives_evaluate (hf.map Series.C) hm'' haccepts''
  have hexpansion := getElem?_outputs_of_isDenseScalar
    (show f.overSeries.outputPatterns[o]? = some out from ho) hscalar (f.seriesArray xs us)
  have hone := outputLength_of_isDenseScalar ho hscalar
  have houtput := getElem?_outputs_of_isDenseScalar ho hscalar
  have hexpands := expands_seriesArray hf hrational hregular hx hu (f.outputSlot o 0)
    (outputSlot_lt hf hout (by omega))
  have hcurvature := sum_secondArray_eq_pairing hf hrational hregular hx hu hout
  rw [hone, Finset.sum_range_one, ← hexpands.c₂] at hcurvature
  have hsens : (tangents.map fun u => (List.range f.nOut).map
      (f.outputOf (f.tangentArray xs (seedOf u))))[d]? =
        some ((List.range f.nOut).map (f.outputOf (f.tangentArray xs (seedOf us)))) := by
    rw [List.getElem?_map, hd]
    rfl
  have hproducts : ∀ i < f.nIn, ∃ products,
      (f.hessianProducts (f.segmentsAt f.full) xs o i (tangents.map seedOf)).alone m' =
        .ok products ∧ products[d]? = some ((f.hessianTimes xs o us).getD i []) := by
    intro i hi
    refine ⟨_, hessianProducts_eq_hessianTimes hf hm' hx hout hi hcheck', ?_⟩
    rw [List.getElem?_map, hd]
    rfl
  have hsum : ((List.range f.overSeries.nOut).map
      (f.overSeries.outputOf (f.seriesArray xs us)))[o]? =
        some [Series.C ((f.valueArray xs).getD (f.outputSlot o 0) 0) +
          Series.C ((f.tangentArray xs (seedOf us)).getD (f.outputSlot o 0) 0) * Series.t +
          Series.C ((f.seriesArray xs us).getD (f.outputSlot o 0) 0).c₂ * Series.t ^ 2] := by
    refine hexpansion.trans ?_
    rw [← hexpands.c₀, ← hexpands.c₁, ← Series.eq_C_add_C_mul_t]
    rfl
  exact ⟨_, _, _, _, _, f.segmentsAt f.full, f.hessianTimes xs o us, _,
    Run.alone_eq_ok_iff.2 ⟨m₁, hevaluate⟩, houtput _, hsens, houtput _, segments_full hf,
    by simp [hessianTimes], hproducts, hcurvature, Run.alone_eq_ok_iff.2 ⟨m₂, hseries⟩, hsum⟩

end Evaluation

end Tape

/-- Numbers with the given comparisons; the elementary functions may be anything. -/
@[reducible]
def Elementary.ofComparisons {F : Type} [DecidableEq F] (lt le : F → F → Bool) : Elementary F where
  sqrt x := x
  exp x := x
  log x := x
  sin x := x
  cos x := x
  tan x := x
  asin x := x
  acos x := x
  atan x := x
  sinh x := x
  cosh x := x
  tanh x := x
  abs x := x
  floor x := x
  ceil x := x
  round x := x
  pow x _ := x
  atan2 x _ := x
  lt := lt
  le := le
  eq x y := decide (x = y)
  isNaN _ := false
  isFinite _ := true

theorem Elementary.exact_ofComparisons
    {F : Type} [Zero F] [DecidableEq F] (lt le : F → F → Bool) :
    @Elementary.Exact F _ (Elementary.ofComparisons lt le) :=
  letI := Elementary.ofComparisons lt le
  ⟨fun _ h => of_decide_eq_true h, fun _ => rfl⟩

instance : Elementary ℚ := .ofComparisons (fun x y => decide (x < y)) fun x y => decide (x ≤ y)

instance : Elementary.Exact ℚ := Elementary.exact_ofComparisons ..

/-- Series are compared by their constant coefficients. -/
instance : Elementary (Series ℚ) :=
  .ofComparisons (fun x y => decide (x.c₀ < y.c₀)) fun x y => decide (x.c₀ ≤ y.c₀)

instance : Elementary.Exact (Series ℚ) := Elementary.exact_ofComparisons ..

/-- Fractions are written as whole numbers. -/
instance : ElementText ℚ where
  reading x := .finite (decide (x < 0)) ⟨x.num.natAbs / x.den, 0, false⟩
  wideReading x := .finite (decide (x < 0)) ⟨x.num.natAbs / x.den, 0, false⟩
  cType := "double"
  rustType := "f64"

/-- The graph of `(x₀ / x₁) ^ 2` for a column `x` of two entries. -/
def Graph.squaredQuotient : Graph ℚ :=
  ⟨#[⟨.symbolic "x", [], ⟨1, #[[0], [0]]⟩⟩,
    ⟨.gather .slice [(0, 0)], [0], ⟨1, #[[0]]⟩⟩,
    ⟨.gather .slice [(0, 1)], [0], ⟨1, #[[0]]⟩⟩,
    ⟨.binary .div, [1, 2], ⟨1, #[[0]]⟩⟩,
    ⟨.unary .sq, [3], ⟨1, #[[0]]⟩⟩]⟩

theorem Graph.bareLeaves_squaredQuotient :
    squaredQuotient.BareLeaves := by
  simp [BareLeaves, squaredQuotient, NodeKind.isSymbolic]

namespace Tape

def squaredQuotient : Tape ℚ :=
  match Tape.compile Graph.squaredQuotient [0] [4] {} with
  | .ok f => f
  | .error _ => ⟨Graph.squaredQuotient, #[], [], [], [], ⟨#[], 0⟩, ⟨#[], 0⟩, {}⟩

theorem compile_squaredQuotient :
    Tape.compile Graph.squaredQuotient [0] [4] {} = .ok squaredQuotient := by
  cbv

/-- The only divisor is `x₁`. -/
theorem regular_squaredQuotient :
    squaredQuotient.Regular [[2, 3]] := by
  have hvisits : squaredQuotient.visits =
      [(5, .unary .sq (some 4)), (4, .binary .div (some 2) (some 3)), (3, .copy 1), (2, .copy 0),
        (0, .input 0 0), (1, .input 0 1)] := by
    cbv
  have hdivisor : readSlot (squaredQuotient.valueArray [[2, 3]]) (some 3) = 3 := by
    cbv
  simp [Regular, hvisits, Cell.Regular, hdivisor]

theorem rational_expansion_squaredQuotient :
    ∃ e sens y a b tape H s,
      (squaredQuotient.evaluate [[2, 3]] [[[0, 1]], [[1, 4]]] [[[1]]]).alone
        (squaredQuotient.memory 2 1) = .ok e ∧
      e.outputs[0]? = some [y] ∧ e.fwd[1]? = some sens ∧ sens[0]? = some [a] ∧
      squaredQuotient.segments squaredQuotient.full = .ok tape ∧
      H.length = squaredQuotient.nIn ∧
      (∀ i < squaredQuotient.nIn, ∃ products,
        (squaredQuotient.hessianProducts tape [[2, 3]] 0 i
          ([[[0, 1]], [[1, 4]]].map seedOf)).alone (squaredQuotient.memory 2 1) = .ok products ∧
        products[1]? = some (H.getD i [])) ∧
      2 * b = pairing [[1, 4]] H ∧
      (squaredQuotient.overSeries.evaluate (zipLists Series.line [[2, 3]] [[1, 4]]) [] []).alone
        (squaredQuotient.overSeries.memory 0 0) = .ok s ∧
      s.outputs[0]? = some [Series.C y + Series.C a * Series.t + Series.C b * Series.t ^ 2] :=
  have hout : squaredQuotient.outputPatterns[0]? = some ⟨1, #[[0]]⟩ := by
    cbv
  rational_expansion Graph.bareLeaves_squaredQuotient compile_squaredQuotient hout (by decide)
    (by cbv) regular_squaredQuotient (show [[[0, 1]], [[1, 4]]][1]? = some [[1, 4]] from rfl)
    (Memory.wellSized_new _) (by cbv) (Memory.wellSized_new _) (by cbv) (Memory.wellSized_new _)
    (by cbv)

end Tape

end SparseDiff
