import SparseDiff.Proofs.Products
import SparseDiff.Proofs.Scalars
import Mathlib.Algebra.DualNumber

/-!
# Adjoint sweeps over dual numbers

A dual number `a + b ε` carries a number and its tangent. The operation tables extend to dual
numbers by the derivatives that they list, so every sweep can run over them. The value of a cell
is then its value and its tangent (`Cell.eval_dual`), a partial derivative is the partial and its
change (`Cell.partialAt_dual`), and so a step of an adjoint sweep is a step on the adjoints
together with a step on their tangents (`Cell.pull_dual`). A second-order sweep thus leaves the
real and the infinitesimal parts of an adjoint sweep over dual numbers
(`Tape.secondOrder_eq_adjoint_dual`).
-/

namespace SparseDiff

open scoped DualNumber

section Dual

variable {F : Type} [CommRing F]

/-- The dual number `a + b ε`. -/
def dual (a b : F) : F[ε] := .inl a + .inr b

@[simp] theorem fst_dual
    (a b : F) :
    (dual a b).fst = a := by
  simp [dual]

@[simp] theorem snd_dual
    (a b : F) :
    (dual a b).snd = b := by
  simp [dual]

@[simp] theorem dual_zero :
    dual (0 : F) 0 = 0 := by
  ext <;> simp

/-- A dual number without an infinitesimal part. -/
theorem inl_eq_dual
    (a : F) :
    (.inl a : F[ε]) = dual a 0 := by
  ext <;> simp

theorem dual_add
    (a b c d : F) :
    dual a b + dual c d = dual (a + c) (b + d) := by
  ext <;> simp

theorem dual_mul
    (a b c d : F) :
    dual a b * dual c d = dual (a * c) (a * d + b * c) := by
  ext <;> simp

theorem ite_dual
    (p : Prop) [Decidable p] (a b c d : F) :
    (if p then dual a b else dual c d) = dual (if p then a else c) (if p then b else d) := by
  split <;> rfl

/-- A slot holds a value and its tangent. -/
def Pairs (W : Array F[ε]) (w t : Array F) (s : Nat) : Prop :=
  W.getD s 0 = dual (w.getD s 0) (t.getD s 0)

theorem readSlot_dual
    {W : Array F[ε]} {w t : Array F} {a : Option Nat} (h : ∀ s ∈ a.toList, Pairs W w t s) :
    readSlot W a = dual (readSlot w a) (readSlot t a) := by
  cases a with
  | none => exact dual_zero.symm
  | some s => exact h s (by simp)

theorem seedOf_map_inl
    (ws : List (List F)) :
    Tape.seedOf (ws.map (List.map .inl)) = fun o k => (.inl (Tape.seedOf ws o k) : F[ε]) := by
  funext o k
  cases ho : ws[o]? with
  | none => simp [Tape.seedOf, Tape.seedAt, ho]
  | some w =>
      have ho' : (ws.map (List.map (.inl : F → F[ε])))[o]? = some (w.map .inl) := by simp [ho]
      simp only [Tape.seedOf, Tape.getD_seedAt ho, Tape.getD_seedAt ho',
        List.getD_eq_getElem?_getD, List.getElem?_map]
      cases w[k]? <;> simp

/-- The tape over dual numbers, with constants that do not vary. -/
def Tape.overDual (f : Tape F) : Tape F[ε] := f.map .inl

theorem Tape.WellFormed.overDual
    {f : Tape F} (hf : f.WellFormed) :
    f.overDual.WellFormed :=
  hf.map TrivSqZeroExt.inl

/-- The real parts of dual adjoints at an input. -/
theorem Tape.map_fst_inputOf
    (f : Tape F) (a b : Nat → F) (i : Nat) :
    (f.overDual.inputOf (fun s => dual (a s) (b s)) i).map TrivSqZeroExt.fst = f.inputOf a i := by
  simp only [inputOf, List.map_map, Function.comp_def, fst_dual]
  rfl

/-- The infinitesimal parts of dual adjoints at an input. -/
theorem Tape.map_snd_inputOf
    (f : Tape F) (a b : Nat → F) (i : Nat) :
    (f.overDual.inputOf (fun s => dual (a s) (b s)) i).map TrivSqZeroExt.snd = f.inputOf b i := by
  simp only [inputOf, List.map_map, Function.comp_def, snd_dual]
  rfl

variable [Calculus F]

/--
The operation tables over dual numbers. A value carries the first derivative of its table, a first
derivative the second one; a condition is decided by the real part. Second derivatives would
carry third ones, which no table lists; adjoint sweeps do not read them.
-/
instance : Calculus F[ε] where
  isZero x := Calculus.isZero x.fst && Calculus.isZero x.snd
  isFinite x := Calculus.isFinite x.fst && Calculus.isFinite x.snd
  selects cond tol := Calculus.selects cond.fst tol.fst
  unary op x :=
    let r := Calculus.unary op x.fst
    dual r (Calculus.unaryDerivative op x.fst r * x.snd)
  unaryDerivative op x r :=
    dual (Calculus.unaryDerivative op x.fst r.fst) (Calculus.unarySecond op x.fst r.fst * x.snd)
  unarySecond op x r := dual (Calculus.unarySecond op x.fst r.fst) 0
  binary op x y :=
    let r := Calculus.binary op x.fst y.fst
    let d := Calculus.binaryPartials op x.fst y.fst r
    dual r (d.1 * x.snd + d.2 * y.snd)
  binaryPartials op x y r :=
    let d := Calculus.binaryPartials op x.fst y.fst r.fst
    let h := Calculus.binarySecond op x.fst y.fst r.fst
    (dual d.1 (h.1 * x.snd + h.2.1 * y.snd), dual d.2 (h.2.1 * x.snd + h.2.2 * y.snd))
  binarySecond op x y r :=
    let h := Calculus.binarySecond op x.fst y.fst r.fst
    (dual h.1 0, dual h.2.1 0, dual h.2.2 0)

instance [Calculus.Exact F] : Calculus.Exact F[ε] where
  eq_zero x h := by
    obtain ⟨hfst, hsnd⟩ := (Bool.and_eq_true _ _).mp h
    exact TrivSqZeroExt.ext (Calculus.Exact.eq_zero _ hfst) (Calculus.Exact.eq_zero _ hsnd)
  isFinite x := by
    simp [Calculus.isFinite, Calculus.Exact.isFinite]

namespace Cell

variable {W : Array F[ε]} {w t : Array F} {c : Cell F}

/-- The value of a cell over dual numbers is its value and its tangent. -/
theorem eval_dual
    [Calculus.Exact F] (h : ∀ s ∈ c.slots, Pairs W w t s) (x u : Nat → Nat → F) :
    (c.map .inl).eval (fun i k => dual (x i k) (u i k)) W =
      dual (c.eval x w) (c.evalTangent u w (c.eval x w) t) := by
  cases c with
  | input i k => rfl
  | constant v => exact inl_eq_dual v
  | unary op a =>
      simp only [Cell.map, eval, value, evalTangent, tangent, readSlot_dual h, Calculus.unary,
        along_eq_mul, fst_dual, snd_dual]
  | binary op a b =>
      have ha := readSlot_dual fun s hs => h s (List.mem_append_left _ hs)
      have hb := readSlot_dual fun s hs => h s (List.mem_append_right _ hs)
      simp only [Cell.map, eval, value, evalTangent, tangent, ha, hb, Calculus.binary,
        along_eq_mul, fst_dual, snd_dual]
  | select tol cond source =>
      have hcond := readSlot_dual fun s hs => h s (List.mem_append_left _ hs)
      have hsource : Pairs W w t source := h source (by simp [slots])
      simp only [Cell.map, eval, value, evalTangent, tangent, hcond, Calculus.selects, fst_dual,
        TrivSqZeroExt.fst_inl, ← ite_dual, dual_zero]
      rw [hsource]
  | copy source => exact h source (by simp [slots])

/-- A partial derivative over dual numbers is the partial and its change along the tangents. -/
theorem partialAt_dual
    (h : ∀ s ∈ c.slots, Pairs W w t s) (r ρ : F) (p : Nat) :
    (c.map .inl).partialAt W (dual r ρ) p = dual (c.partialAt w r p) (c.secondAt w r t p) := by
  cases c with
  | input i k => exact dual_zero.symm
  | constant v => exact dual_zero.symm
  | unary op a =>
      simp only [Cell.map, partialAt, secondAt, readSlot_dual h, Calculus.unaryDerivative,
        fst_dual, snd_dual, ← ite_dual, dual_zero]
  | binary op a b =>
      have ha := readSlot_dual fun s hs => h s (List.mem_append_left _ hs)
      have hb := readSlot_dual fun s hs => h s (List.mem_append_right _ hs)
      simp only [Cell.map, partialAt, secondAt, ha, hb, Calculus.binaryPartials, fst_dual,
        snd_dual, ← ite_dual, ← dual_add, dual_zero]
  | select tol cond source =>
      have hcond := readSlot_dual fun s hs => h s (List.mem_append_left _ hs)
      simp only [Cell.map, partialAt, secondAt, hcond, Calculus.selects, fst_dual,
        TrivSqZeroExt.fst_inl]
      split
      · split
        · exact inl_eq_dual 1
        · exact dual_zero.symm
      · exact dual_zero.symm
  | copy source =>
      simp only [Cell.map, partialAt, secondAt]
      split
      · exact inl_eq_dual 1
      · exact dual_zero.symm

/-- A step over dual numbers is a step on adjoints and a step on their tangents. -/
theorem pull_dual
    {s : Nat} (hs : Pairs W w t s) (h : ∀ r ∈ c.slots, Pairs W w t r) (lam dlam : Nat → F) :
    (c.map .inl).pull W (fun p => dual (lam p) (dlam p)) s =
      fun p => dual (c.pull w lam s p) (c.pullTangent w t lam dlam s p) := by
  funext p
  cases hinput : c.isInput with
  | true =>
      have hsecond : c.secondAt w (w.getD s 0) t p = 0 := by
        cases c with
        | input i k => rfl
        | _ => simp [isInput] at hinput
      rw [pull_input (by simpa using hinput), pullTangent, hsecond, pull_input hinput,
        pull_input hinput, mul_zero, add_zero]
  | false =>
      rw [pull_of_not_input (by simpa using hinput), hs, partialAt_dual h, pullTangent,
        pull_of_not_input hinput, pull_of_not_input hinput, dual_mul, ← dual_zero, ite_dual,
        dual_add]
      congr 1
      ring

end Cell

/-- A whole walk over dual numbers is a walk on adjoints and a walk on their tangents. -/
theorem pullAll_dual
    {W : Array F[ε]} {w t : Array F} :
    ∀ {visits : List (Nat × Cell F)},
      (∀ v ∈ visits, Pairs W w t v.1 ∧ ∀ r ∈ v.2.slots, Pairs W w t r) →
      ∀ lam dlam : Nat → F,
        pullAll W (visits.map fun v => (v.1, v.2.map .inl)) (fun p => dual (lam p) (dlam p)) =
          fun p => dual (pullAll w visits lam p) (pullTangentAll w t visits lam dlam p)
  | [], _, _, _ => rfl
  | (s, c) :: visits, h, lam, dlam => by
      obtain ⟨hs, hslots⟩ := h (s, c) (List.mem_cons_self ..)
      rw [List.map_cons, pullAll, Cell.pull_dual hs hslots,
        pullAll_dual fun v hv => h v (List.mem_cons_of_mem _ hv)]
      rfl

namespace Tape

variable {f : Tape F} [Calculus.Exact F] {xs us : List (List F)}

/-- Over dual numbers, a value sweep finds the values and the tangents. -/
theorem pairs_valueArray
    (hf : f.WellFormed) (hx : FitLists f.inputPatterns xs) (hu : FitLists f.inputPatterns us) :
    ∀ s < f.full.size, Pairs (f.overDual.valueArray (zipLists dual xs us)) (f.valueArray xs)
      (f.tangentArray xs (seedOf us)) s := by
  have hinputs : seedAt ((zipLists dual xs us).map List.toArray) =
      fun i k => dual (seedAt (xs.map List.toArray) i k) (seedOf us i k) := by
    funext i k
    exact seedOf_zipLists dual_zero hx hu i k
  refine slot_induction hf fun s c hc hread => ?_
  have hget := getElem?_trace_of_mem_visits hf hc
  have hdual : (f.overDual.valueArray (zipLists dual xs us)).getD s 0 =
      (c.map .inl).eval _ (f.overDual.valueArray (zipLists dual xs us)) :=
    getD_valueArray_map rfl hf hc (zipLists dual xs us)
  rw [Pairs, hdual, hinputs, Cell.eval_dual hread, getD_tangentArray hf xs _ hget,
    getD_valueArray hf xs hget]

/-- Over dual numbers, adjoints are adjoints and their tangents. -/
theorem adjoints_overDual
    (hf : f.WellFormed) (hx : FitLists f.inputPatterns xs) (hu : FitLists f.inputPatterns us)
    (os : List Nat) (v : Nat → Nat → F) :
    f.overDual.adjoints (f.overDual.valueArray (zipLists dual xs us)) os (fun o k => .inl (v o k)) =
      fun s => dual (f.adjoints (f.valueArray xs) os v s)
        (f.adjointTangents xs os v (seedOf us) s) := by
  have hvisits : f.overDual.visits = f.visits.map fun a => (a.1, a.2.map .inl) :=
    visits_map rfl f
  have hseeds : f.overDual.seedVector os (fun o k => .inl (v o k)) =
      fun p => dual (f.seedVector os v p) 0 := by
    funext p
    rw [← inl_eq_dual]
    exact seedVector_map (TrivSqZeroExt.inlHom F F) f os v p
  rw [adjoints, hvisits, hseeds]
  have hpairs := pairs_valueArray hf hx hu
  exact pullAll_dual (fun a ha => ⟨hpairs a.1 (lt_of_mem_visits hf ha).1, fun r hr =>
    hpairs r (slots_lt_of_mem_visits hf ha r hr)⟩) _ _

/--
One forward-over-adjoint sweep with the seeds `seed o` on every output `o`: the adjoint of input
`i`, and its tangents along the given input tangents.
-/
def adjointWithTangents (f : Tape F) (tape : List (Segment F)) (inputs : List (List F)) (i : Nat)
    (seed : Nat → Nat → F) (tangents : List (Nat → Nat → F)) :
    Run F (List F × List (List F)) := do
  let nfwd := tangents.length
  f.loadInputs f.full inputs
  tangents.zipIdx.forM fun (tangent, d) => do
    f.loadTangent f.full d tangent
    clearAdjointTangent d
  forwardSweep f.config.checkFinite hessianOp nfwd tape
  clearAdjoint 0
  (List.range f.nOut).forM fun o => f.seedAdjoint 0 o (seed o)
  secondOrderSweep f.config.checkFinite hessianOp nfwd tape
  let adjoint ← f.takeInputAdjoint 0 i
  let adjointTangents ← (List.range nfwd).mapM fun d => f.takeInputAdjointTangent d i
  return (adjoint, adjointTangents)

theorem gives_adjointWithTangents
    (hf : f.WellFormed) {m : Memory F} (hm : m.WellSized) (hwork : f.full.size ≤ m.sizes.work)
    (hnadj : 1 ≤ m.sizes.nadj) (hx : FitLists f.inputPatterns xs) {i : Nat} (hi : i < f.nIn)
    (v : Nat → Nat → F) {tangents : List (Nat → Nat → F)}
    (hnfwd : tangents.length ≤ m.sizes.nfwd) :
    ∃ m', Run.Gives (f.adjointWithTangents (f.segmentsAt f.full) xs i v tangents) m
        (f.inputOf (f.adjoints (f.valueArray xs) (List.range f.nOut) v) i,
          tangents.map fun u => f.inputOf (f.adjointTangents xs (List.range f.nOut) v u) i) m' := by
  have hos : ∀ o ∈ List.range f.nOut, o < f.nOut := fun o ho => List.mem_range.1 ho
  obtain ⟨m₁, hforward, hreached⟩ := gives_forwardTangents hf hm hwork hx hnfwd
  have hroom₁ : f.full.size ≤ m₁.values.size := by
    rw [hreached.wellSized.values, show m₁.sizes = m.sizes from hreached.sizes]
    exact hwork
  have hseeds := gives_seeds hf hos hroom₁ 0 v
  obtain ⟨m₂, hswept, hsized₂, hsizes₂, hadjoint, htangent⟩ :=
    gives_sweptTangents hf hm hwork hnadj hos v hnfwd hreached
  have hroom₂ : f.full.size ≤ m₂.values.size := by
    rw [hsized₂.values, hsizes₂]
    exact hwork
  have htaken := gives_takeInputAdjoint hf hi hroom₂ 0
  obtain ⟨m₃, htangents, -⟩ := gives_takeTangents hf
    (m := { m₂ with
      adj := m₂.adj.modify 0
        (writeAt (f.full.slot i 0) (List.replicate (f.inputLength i) 0)) })
    ⟨hsized₂.values, hsized₂.fwd, hsized₂.adj.modify 0 fun w => size_writeAt .., hsized₂.adjFwd⟩
    (show f.full.size ≤ m₂.sizes.work by rw [hsizes₂]; exact hwork) hi tangents.length
  have hresult : ((List.range tangents.length).map fun d => f.inputOf (m₂.adjointTangent d) i) =
      tangents.map fun u => f.inputOf (f.adjointTangents xs (List.range f.nOut) v u) i := by
    refine List.ext_getElem? fun d => ?_
    rcases Nat.lt_or_ge d tangents.length with hd | hd
    · simp [hd, htangent d hd]
    · simp [hd]
  rw [hadjoint] at htaken
  obtain ⟨_, _, hinputs, hforward⟩ := Run.gives_bind.1 hforward
  obtain ⟨_, _, hloaded, hvalues⟩ := Run.gives_bind.1 hforward
  obtain ⟨_, _, hclear, hseeds⟩ := Run.gives_bind.1 hseeds
  have hread : Run.Gives ((List.range tangents.length).mapM fun d => f.takeInputAdjointTangent d i)
      _ ((List.range tangents.length).map fun d => f.inputOf (m₂.adjointTangent d) i) m₃ :=
    htangents
  rw [hresult] at hread
  refine ⟨m₃, Run.gives_bind.2 ⟨_, _, hinputs, ?_⟩⟩
  refine Run.gives_bind.2 ⟨_, _, hloaded, ?_⟩
  refine Run.gives_bind.2 ⟨_, _, hvalues, ?_⟩
  refine Run.gives_bind.2 ⟨_, _, hclear, ?_⟩
  refine Run.gives_bind.2 ⟨_, _, hseeds, ?_⟩
  refine Run.gives_bind.2 ⟨_, _, hswept, ?_⟩
  refine Run.gives_bind.2 ⟨_, _, htaken, ?_⟩
  exact Run.gives_bind.2 ⟨_, m₃, hread, Run.gives_pure.2 ⟨rfl, rfl⟩⟩

/--
A second-order sweep is the tangent of an adjoint sweep. With any seeds on the outputs and any
tangents on the inputs, the adjoint and the adjoint tangents that it leaves at an input are the
real and the infinitesimal parts of what an adjoint sweep with the same seeds leaves there over
dual numbers, where every input carries its tangent.
-/
theorem secondOrder_eq_adjoint_dual
    [Elementary F] [ElementText F] {g : Graph F} {inputs outputs : List NodeId} {config : Config}
    (hbare : g.BareLeaves) (hcompile : compile g inputs outputs config = .ok f)
    {ws : List (List F)} {tangents : List (List (List F))} (hx : FitLists f.inputPatterns xs)
    (hw : FitLists f.outputPatterns ws) (hu : ∀ us ∈ tangents, FitLists f.inputPatterns us)
    {m : Memory F} (hm : m.WellSized)
    (hcheck : m.sizes.check hessianOp (f.requiredMemory tangents.length 1) = .ok ())
    {m' : Memory F[ε]} (hm' : m'.WellSized)
    (hcheck' : m'.sizes.check "evaluate" (f.overDual.requiredMemory 0 1) = .ok ())
    {d : Nat} (hd : tangents[d]? = some us) {i : Nat} (hi : i < f.nIn) :
    ∃ tape adjoint adjointTangents e lams lam,
      f.segments f.full = .ok tape ∧
      (f.adjointWithTangents tape xs i (seedOf ws) (tangents.map seedOf)).alone m =
        .ok (adjoint, adjointTangents) ∧
      (f.overDual.evaluate (zipLists dual xs us) [] [ws.map (List.map .inl)]).alone m' = .ok e ∧
      e.adj = [lams] ∧ lams[i]? = some lam ∧
      lam.map TrivSqZeroExt.fst = adjoint ∧
      adjointTangents[d]? = some (lam.map TrivSqZeroExt.snd) := by
  obtain ⟨order, h⟩ := compiled_of_compile hbare hcompile
  have hf := h.wellFormed
  have husd := hu us (List.mem_of_getElem? hd)
  obtain ⟨hwork, hnfwd, hnadj, -⟩ := MemorySizes.check_eq_ok_iff.1 hcheck
  obtain ⟨hwork', hnfwd', hnadj', -⟩ := MemorySizes.check_eq_ok_iff.1 hcheck'
  obtain ⟨m₁, hsecond⟩ := gives_adjointWithTangents hf hm hwork hnadj hx hi (seedOf ws)
    (show (tangents.map seedOf).length ≤ m.sizes.nfwd by rw [List.length_map]; exact hnfwd)
  have hfit : FitLists f.outputPatterns (ws.map (List.map (.inl : F → F[ε]))) := by
    refine List.forall₂_map_right_iff.2 (hw.imp fun p w hlength => ?_)
    rw [List.length_map, hlength]
  have haccepts : f.overDual.Accepts m'.sizes (zipLists dual xs us) [] [ws.map (List.map .inl)] :=
    ⟨hx.zipLists dual husd, by simp, fun seed hseed => List.mem_singleton.1 hseed ▸ hfit, hwork',
      hnfwd', hnadj'⟩
  obtain ⟨m₂, hdual⟩ := gives_evaluate hf.overDual hm' haccepts
  have hadjoints := adjoints_overDual hf hx husd (List.range f.nOut) (seedOf ws)
  rw [← seedOf_map_inl] at hadjoints
  have hlam : ((List.range f.overDual.nIn).map (f.overDual.inputOf (f.overDual.adjoints
      (f.overDual.valueArray (zipLists dual xs us)) (List.range f.nOut)
      (seedOf (ws.map (List.map .inl))))))[i]? = some (f.overDual.inputOf (f.overDual.adjoints
        (f.overDual.valueArray (zipLists dual xs us)) (List.range f.nOut)
        (seedOf (ws.map (List.map .inl)))) i) := by
    rw [List.getElem?_map, List.getElem?_range (show i < f.overDual.nIn from hi)]
    rfl
  refine ⟨_, _, _, _, _, _, segments_full hf, Run.alone_eq_ok_iff.2 ⟨m₁, hsecond⟩,
    Run.alone_eq_ok_iff.2 ⟨m₂, hdual⟩, rfl, hlam, ?_, ?_⟩
  · rw [hadjoints, map_fst_inputOf]
  · rw [hadjoints, map_snd_inputOf, List.map_map, List.getElem?_map, hd]
    rfl

theorem secondOrder_eq_adjoint_dual_scaling :
    ∃ tape adjoint adjointTangents e lams lam,
      scaling.segments scaling.full = .ok tape ∧
      (scaling.adjointWithTangents tape [[2, 3]] 0 (seedOf [[5], [1, 7], [2, 0]])
        [seedOf [[1, 4]]]).alone (scaling.memory 1 1) = .ok (adjoint, adjointTangents) ∧
      (scaling.overDual.evaluate (zipLists dual [[2, 3]] [[1, 4]]) []
        [[[5], [1, 7], [2, 0]].map (List.map .inl)]).alone (scaling.overDual.memory 0 1) = .ok e ∧
      e.adj = [lams] ∧ lams[0]? = some lam ∧
      lam.map TrivSqZeroExt.fst = adjoint ∧
      adjointTangents[0]? = some (lam.map TrivSqZeroExt.snd) :=
  have haccepts : scaling.Accepts (scaling.memory 1 1).sizes [[2, 3]] [[[1, 4]]]
      [[[5], [1, 7], [2, 0]]] :=
    checkEvaluation_eq_ok_iff.1 (show scaling.checkEvaluation "evaluate" _ _ _ _ = .ok () by cbv)
  secondOrder_eq_adjoint_dual Graph.bareLeaves_scaling compile_scaling haccepts.fitInputs
    (haccepts.fitAdj _ (List.mem_singleton_self _)) haccepts.fitFwd (Memory.wellSized_new _)
    (by cbv) (Memory.wellSized_new _) (by cbv) (show [[[1, 4]]][0]? = some [[1, 4]] from rfl)
    (by cbv)

end Tape

end Dual

end SparseDiff
