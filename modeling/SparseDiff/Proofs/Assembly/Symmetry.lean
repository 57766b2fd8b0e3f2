import SparseDiff.Proofs.Assembly.Hessian

/-!
# Hessians are symmetric

Nothing symmetrises a Hessian: entries `(r, c)` and `(c, r)` come from sweeps with different
tangents. Each sweep however finds the curvature along its tangent, and curvature is a sum of
symmetric forms, one for every cell (`Cell.quad_comm`).
-/

namespace SparseDiff

section Forms

variable {F : Type} [CommRing F] [Calculus F]

/-- The second derivative of a cell is a symmetric form of the two tangents. -/
theorem Cell.quad_comm
    (c : Cell F) (w : Array F) (r : F) (t t' : Array F) :
    c.quad w r t t' = c.quad w r t' t := by
  cases c with
  | unary op a =>
      simp only [quad]
      ring
  | binary op a b =>
      simp only [quad]
      ring
  | _ => rfl

theorem curvature_comm
    (w t t' : Array F) :
    ∀ (visits : List (Nat × Cell F)) (lam : Nat → F),
      curvature w t t' visits lam = curvature w t' t visits lam
  | [], _ => rfl
  | (s, c) :: visits, lam => by
      rw [curvature, curvature, Cell.quad_comm, curvature_comm w t t' visits]

namespace Tape

variable {f : Tape F} [Calculus.Exact F]

theorem secondDerivative_comm
    (hf : f.WellFormed) (xs : List (List F)) (o : Nat) {i r c : Nat} (hi : i < f.nIn)
    (hr : r < f.inputLength i) (hc : c < f.inputLength i) :
    f.secondDerivative xs o i r c = f.secondDerivative xs o i c r := by
  rw [secondDerivative_eq_curvature hf xs o hi hr, secondDerivative_eq_curvature hf xs o hi hc,
    curvature_comm]

theorem pairing_hessianTimes_comm
    (hf : f.WellFormed) (xs : List (List F)) (o : Nat) {u v : List (List F)}
    (hu : FitLists f.inputPatterns u) (hv : FitLists f.inputPatterns v) :
    pairing u (f.hessianTimes xs o v) = pairing v (f.hessianTimes xs o u) := by
  rw [pairing_hessianTimes hf xs o v hu, pairing_hessianTimes hf xs o u hv, curvature_comm]

/-- The assembled entries are symmetric, whatever the number of colors in a batch. -/
theorem get?_assembled_comm
    {plan : HessianPlan} (hf : f.WellFormed) (h : plan.Sound f) (xs : List (List F))
    (size : Nat) {r c : Nat} (hr : r < f.inputLength plan.input)
    (hc : c < f.inputLength plan.input) :
    ∃ x, (SparseMatrix.mk plan.pattern (plan.assembled f xs size)).get? r c = some x ∧
      (SparseMatrix.mk plan.pattern (plan.assembled f xs size)).get? c r = some x := by
  have hrow : ∀ {n}, n < f.inputLength plan.input → n < plan.pattern.nrow := h.nrow.symm ▸ id
  have hcol : ∀ {n}, n < f.inputLength plan.input → n < plan.pattern.ncol := h.ncol.symm ▸ id
  rcases Nat.eq_zero_or_pos size with rfl | hsize
  · -- batches without colors leave the zero matrix
    have hvalues : ∀ k r c : Nat, plan.pattern.entries[k]? = some (r, c) →
        (plan.assembled f xs 0)[k]? = some 0 := fun k r c hk => h.getElem?_assembled_zero xs hk
    exact ⟨0, get?_eq h.wellFormed hvalues (hrow hr) (hcol hc) fun _ => rfl,
      get?_eq h.wellFormed hvalues (hrow hc) (hcol hr) fun _ => rfl⟩
  · have hvalues : ∀ k r c : Nat, plan.pattern.entries[k]? = some (r, c) →
        (plan.assembled f xs size)[k]? =
          some (f.secondDerivative xs plan.output plan.input r c) :=
      fun k r c hk => h.getElem?_assembled hf xs hsize hk
    refine ⟨_, get?_eq h.wellFormed hvalues (hrow hr) (hcol hc)
      fun hnot => h.zero r hr c hc hnot xs, ?_⟩
    rw [get?_eq h.wellFormed hvalues (hrow hc) (hcol hr) fun hnot => h.zero c hc r hr hnot xs,
      secondDerivative_comm hf xs plan.output h.input hc hr]

end Tape

end Forms

namespace Tape

variable {F : Type} [CommRing F] [Div F] [Elementary F] [Elementary.Exact F] [ElementText F]
  {f : Tape F}

/--
Products of a Hessian are symmetric. The sweeps of a scalar output find, at every input and for
any tangents in one sweep, the products `H u` with each tangent; and `u` against `H v` is `v`
against `H u`. The Hessian by one input is returned if it is accepted, and it is a symmetric
matrix.
-/
theorem hessian_symmetric
    {g : Graph F} {inputs outputs : List NodeId} {config : Config} (hbare : g.BareLeaves)
    (hcompile : compile g inputs outputs config = .ok f) {o : Nat} {out : Pattern}
    (ho : f.outputPatterns[o]? = some out) (hscalar : out.isDenseScalar = true)
    {xs : List (List F)} (hx : FitLists f.inputPatterns xs) :
    (∃ (tape : List (Segment F)) (H : List (List F) → List (List F)),
      f.segments f.full = .ok tape ∧
      (∀ u, (H u).length = f.nIn) ∧
      (∀ i < f.nIn, ∀ (us : List (List (List F))) (m : Memory F), m.WellSized →
        m.sizes.check hessianOp (f.requiredMemory us.length 1) = .ok () →
          (f.hessianProducts tape xs o i (us.map seedOf)).alone m =
            .ok (us.map fun u => (H u).getD i [])) ∧
      ∀ u v, FitLists f.inputPatterns u → FitLists f.inputPatterns v →
        pairing u (H v) = pairing v (H u)) ∧
    ∀ i < f.nIn, ∀ m : Memory F, m.WellSized →
      (∀ plan, f.hessianPlan o i = .ok plan →
        f.checkHessian hessianOp m.sizes xs plan = .ok ()) →
      ∃ hess, (f.hessian xs o i).alone m = .ok hess ∧
        hess.pattern.nrow = f.inputLength i ∧ hess.pattern.ncol = f.inputLength i ∧
        ∀ r < f.inputLength i, ∀ c < f.inputLength i,
          ∃ x, hess.get? r c = some x ∧ hess.get? c r = some x := by
  obtain ⟨order, h⟩ := compiled_of_compile hbare hcompile
  have hf := h.wellFormed
  have hout : o < f.nOut := (List.getElem?_eq_some_iff.1 ho).1
  constructor
  · have hlength : ∀ u, (f.hessianTimes xs o u).length = f.nIn := by
      intro u
      simp [hessianTimes]
    have hproducts : ∀ i < f.nIn, ∀ (us : List (List (List F))) (m : Memory F), m.WellSized →
        m.sizes.check hessianOp (f.requiredMemory us.length 1) = .ok () →
          (f.hessianProducts (f.segmentsAt f.full) xs o i (us.map seedOf)).alone m =
            .ok (us.map fun u => (f.hessianTimes xs o u).getD i []) := by
      intro i hi us m hm hcheck
      exact hessianProducts_eq_hessianTimes hf hm hx hout hi hcheck
    have hcomm : ∀ u v, FitLists f.inputPatterns u → FitLists f.inputPatterns v →
        pairing u (f.hessianTimes xs o v) = pairing v (f.hessianTimes xs o u) := by
      intro u v hu hv
      exact pairing_hessianTimes_comm hf xs o hu hv
    exact ⟨f.segmentsAt f.full, f.hessianTimes xs o, segments_full hf, hlength, hproducts, hcomm⟩
  · intro i hi m hm hcheck
    obtain ⟨plan, hplan, hsound, rfl, rfl⟩ := hessianPlan_spec hf ho hscalar hi
    obtain ⟨m₁, hgives⟩ := gives_assembled hf hsound hm (hcheck plan hplan)
    have hhessian : Run.Gives (f.hessian xs plan.output plan.input) m _ m₁ :=
      Run.gives_bind.2 ⟨plan, m, Run.gives_ofExcept.2 ⟨hplan, rfl⟩, hgives⟩
    exact ⟨_, Run.alone_eq_ok_iff.2 ⟨m₁, hhessian⟩, hsound.nrow, hsound.ncol,
      fun r hr c hc => get?_assembled_comm hf hsound xs _ hr hc⟩

theorem hessian_symmetric_scaling :
    ∃ (tape : List (Segment Int)) (H : List (List Int) → List (List Int)) (hess : SparseMatrix Int)
      (x : Int),
      scaling.segments scaling.full = .ok tape ∧
      (scaling.hessianProducts tape [[2, 3]] 0 0 [seedOf [[1, 4]], seedOf [[5, 7]]]).alone
        (scaling.memory 2 1) = .ok [(H [[1, 4]]).getD 0 [], (H [[5, 7]]).getD 0 []] ∧
      pairing [[1, 4]] (H [[5, 7]]) = pairing [[5, 7]] (H [[1, 4]]) ∧
      (scaling.hessian [[2, 3]] 0 0).alone (scaling.memory 2 1) = .ok hess ∧
      hess.get? 0 1 = some x ∧ hess.get? 1 0 = some x := by
  have hout : scaling.outputPatterns[0]? = some ⟨1, #[[0]]⟩ := by
    cbv
  have haccepts : scaling.Accepts (scaling.memory 2 1).sizes [[2, 3]] [[[1, 4]], [[5, 7]]] [] :=
    checkEvaluation_eq_ok_iff.1 (show scaling.checkEvaluation "evaluate" _ _ _ _ = .ok () by cbv)
  obtain ⟨⟨tape, H, htape, -, hproducts, hsymmetric⟩, hmatrix⟩ := hessian_symmetric
    Graph.bareLeaves_scaling compile_scaling hout (by decide) haccepts.fitInputs
  obtain ⟨hess, hhess, -, -, hentries⟩ :=
    hmatrix 0 (by cbv) (scaling.memory 2 1) (Memory.wellSized_new _) checkHessian_scaling
  obtain ⟨x, hx, hx'⟩ := hentries 0 (by cbv) 1 (by cbv)
  exact ⟨tape, H, hess, x, htape,
    hproducts 0 (by cbv) [[[1, 4]], [[5, 7]]] _ (Memory.wellSized_new _) (by cbv),
    hsymmetric _ _ (haccepts.fitFwd _ (by simp)) (haccepts.fitFwd _ (by simp)), hhess, hx, hx'⟩

end Tape

end SparseDiff
