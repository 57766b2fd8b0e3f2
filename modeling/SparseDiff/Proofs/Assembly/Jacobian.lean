import SparseDiff.Proofs.Assembly.Blocks
import SparseDiff.Proofs.Structure.Jacobian

/-!
# Compressed Jacobians are Jacobians

A plan is sound if its pattern holds every derivative that does not vanish and its partition
makes every entry recoverable; the plans of a tape are (`Tape.jacobianPlan_spec`). Every
entry of the pattern is then the only one of its sum that is left, in the columns of a
forward color or in the rows of an adjoint color, so the assembled matrix holds the
derivatives, at all positions.
-/

namespace SparseDiff

variable {F : Type} [CommRing F] [Calculus F] {f : Tape F}

/-- The pattern holds all derivatives of the block, and the partition recovers its entries. -/
structure JacobianPlan.Sound (f : Tape F) (plan : JacobianPlan) : Prop where
  output : plan.output < f.nOut
  input : plan.input < f.nIn
  wellFormed : plan.pattern.WellFormed
  nrow : plan.pattern.nrow = f.outputLength plan.output
  ncol : plan.pattern.ncol = f.inputLength plan.input
  recoverable : plan.partition.Recoverable plan.pattern
  zero : ∀ r < f.outputLength plan.output, ∀ c < f.inputLength plan.input,
    c ∉ plan.pattern.row r → ∀ xs, f.derivative xs plan.output plan.input r c = 0

variable [Calculus.Exact F]

namespace Tape

/-- A block has a plan, and the plan is sound. -/
theorem jacobianPlan_spec
    [Calculus.Structural F] (hf : f.WellFormed) {o i : Nat} (ho : o < f.nOut) (hi : i < f.nIn) :
    ∃ plan, f.jacobianPlan o i = .ok plan ∧ plan.Sound f ∧ plan.output = o ∧ plan.input = i := by
  obtain ⟨p, hpattern, hwell, hnrow, hncol, hzero⟩ := jacobianPattern_spec hf ho hi
  obtain ⟨parts, hparts, hrecoverable⟩ := Partition.ofPattern_spec hwell f.config.mode
  refine ⟨⟨o, i, p, parts⟩, ?_, ⟨ho, hi, hwell, hnrow, hncol, hrecoverable, hzero⟩, rfl, rfl⟩
  unfold jacobianPlan
  simp only [hpattern, hparts, bind, Except.bind]
  rfl

end Tape

namespace JacobianPlan

variable {plan : JacobianPlan} {xs : List (List F)} {r c k : Nat}

omit [Calculus.Exact F] in
/-- An entry of the pattern stands for a nonzero of the output and one of the input. -/
theorem Sound.lt_of_mem_row
    (h : plan.Sound f) (hc : c ∈ plan.pattern.row r) :
    r < f.outputLength plan.output ∧ c < f.inputLength plan.input := by
  rw [← h.nrow, ← h.ncol]
  exact ⟨Pattern.lt_nrow_of_mem_row hc, h.wellFormed.lt_ncol hc⟩

/-- In a row without an adjoint color, a sum of columns holds the entry of its column. -/
theorem Sound.getElem?_columnSum
    (hf : f.WellFormed) (h : plan.Sound f) (hc : c ∈ plan.pattern.row r)
    (hrow : plan.partition.adjoint.colorOf r = none)
    (hcolor : plan.partition.forward.colorOf c = some k) :
    (f.columnSum xs ⟨0, plan, k⟩)[r]? = some (f.derivative xs plan.output plan.input r c) := by
  obtain ⟨hr, hclt⟩ := h.lt_of_mem_row hc
  have hget : (f.columnSum xs ⟨0, plan, k⟩)[r]? = some ((f.tangentArray xs
      (Direction.tangentSeed ⟨0, plan, k⟩)).getD (f.outputSlot plan.output r) 0) := by
    simp [Tape.columnSum, Tape.outputOf, hr]
  rw [hget, Tape.tangentArray_output hf xs _ h.output hr]
  congr 1
  -- the other inputs are not seeded, and no other column of this row has the color
  rw [Finset.sum_eq_single plan.input]
  · simp only [Direction.tangentSeed, if_true]
    refine sum_indicator_mul hclt hcolor fun j hj hne hsame => ?_
    by_cases hmem : j ∈ plan.pattern.row r
    · exact absurd (hsame.trans hcolor.symm)
        (h.recoverable.forward.ne r j c hrow hmem hc hne)
    · exact h.zero r hr j hj hmem xs
  · intro i _ hi
    refine Finset.sum_eq_zero fun j _ => ?_
    simp only [Direction.tangentSeed, if_neg hi, zero_mul]
  · intro hnot
    exact absurd (Finset.mem_range.2 h.input) hnot

/-- In a row with an adjoint color, the sum of the rows of this color holds its entries. -/
theorem Sound.getElem?_rowSum
    (hf : f.WellFormed) (h : plan.Sound f) (hc : c ∈ plan.pattern.row r)
    (hcolor : plan.partition.adjoint.colorOf r = some k) :
    (f.rowSum xs ⟨0, plan, k⟩)[c]? = some (f.derivative xs plan.output plan.input r c) := by
  obtain ⟨hr, hclt⟩ := h.lt_of_mem_row hc
  have hget : (f.rowSum xs ⟨0, plan, k⟩)[c]? = some (f.adjoints (f.valueArray xs) [plan.output]
      (Direction.adjointSeed ⟨0, plan, k⟩) (f.full.slot plan.input c)) := by
    simp [Tape.rowSum, Tape.inputOf, hclt]
  rw [hget, Tape.adjoints_input hf xs _ h.output h.input hclt]
  congr 1
  refine sum_indicator_mul hr hcolor fun j hj hne hsame => ?_
  by_cases hmem : c ∈ plan.pattern.row j
  · exact absurd (h.recoverable.adjoint_ne j r c k hmem hc hsame hcolor) hne
  · exact h.zero j hj c hclt hmem xs

/-- The values of a block are the derivatives on its pattern. -/
theorem Sound.getElem?_values
    (hf : f.WellFormed) (h : plan.Sound f) (hk : plan.pattern.entries[k]? = some (r, c)) :
    (plan.values f xs)[k]? = some (f.derivative xs plan.output plan.input r c) := by
  have hc := Pattern.mem_entries_iff.1 (List.mem_of_getElem? hk)
  rw [values, getElem?_overlay hk (size_forwardValues ..)]
  cases hcolor : plan.partition.adjoint.colorOf r with
  | some color =>
      have hrow : plan.rowPick f xs r c = some (f.derivative xs plan.output plan.input r c) := by
        simp only [rowPick, hcolor, bind, Option.bind_some]
        rw [Tape.pushedRow_eq_rowSum hf xs h.output]
        exact h.getElem?_rowSum hf hc hcolor
      rw [hrow, Option.some_or]
  | none =>
      have hrow : plan.rowPick f xs r c = none := by simp [rowPick, hcolor]
      obtain ⟨color, hforward⟩ :=
        Option.isSome_iff_exists.1 (h.recoverable.forward.isSome r c hcolor hc)
      have hcolumn : plan.columnPick f xs r c =
          some (f.derivative xs plan.output plan.input r c) := by
        simp only [columnPick, hcolor, Option.isSome_none, Bool.false_eq_true, if_false, hforward,
          bind, Option.bind_some]
        exact h.getElem?_columnSum hf hc hcolor hforward
      rw [hrow, Option.none_or, forwardValues, getElem?_overlay hk (by simp [zeroValues]), hcolumn,
        Option.some_or]

/-- Exact numbers are finite. -/
theorem finite_of_exact
    (f : Tape F) (xs : List (List F)) (plan : JacobianPlan) :
    plan.Finite f xs where
  forward _ _ :=
    ⟨fun _ _ _ _ _ => Calculus.Exact.isFinite _, fun _ _ _ _ _ => Calculus.Exact.isFinite _⟩
  value _ _ _ _ _ _ := Calculus.Exact.isFinite _
  adjoint _ _ := finiteWalk_of_exact ..

end JacobianPlan

namespace Tape

variable {xs : List (List F)}

/-- The assembled values of a sound plan are the derivatives on its pattern. -/
theorem gives_jacobianWithPlan
    (hf : f.WellFormed) (hmax : 1 ≤ f.config.maxDirections) {plan : JacobianPlan}
    (h : plan.Sound f) {m : Memory F} (hm : m.WellSized)
    (hcheck : f.checkJacobians jacobianOp m.sizes xs [plan] = .ok ()) :
    ∃ values m', Run.Gives (f.jacobianWithPlan xs plan) m ⟨plan.pattern, values⟩ m' ∧
      ∀ k r c : Nat, plan.pattern.entries[k]? = some (r, c) →
        values[k]? = some (f.derivative xs plan.output plan.input r c) := by
  obtain ⟨_, m', hgives, rfl⟩ :=
    (guarded_jacobianWithPlan hf hmax hm hcheck).gives (JacobianPlan.finite_of_exact f xs plan)
  exact ⟨plan.values f xs, m', hgives, fun k r c => h.getElem?_values hf⟩

/-- With one forward seed, the sensitivities of an evaluation are a column of a Jacobian. -/
theorem evaluate_unitTangent
    (hf : f.WellFormed) {o i r c : Nat} (ho : o < f.nOut) (hi : i < f.nIn)
    (hr : r < f.outputLength o) (hc : c < f.inputLength i) {m : Memory F} (hm : m.WellSized)
    (hcheck : f.checkEvaluation "evaluate" m.sizes xs [f.seedLists (unitTangent i c)] [] =
      .ok ()) :
    ∃ e tangents column, (f.evaluate xs [f.seedLists (unitTangent i c)] []).alone m = .ok e ∧
      e.fwd = [tangents] ∧ tangents[o]? = some column ∧
      column[r]? = some (f.derivative xs o i r c) := by
  obtain ⟨m', hgives⟩ := gives_evaluate hf hm (checkEvaluation_eq_ok_iff.1 hcheck)
  refine ⟨_, _, f.outputOf (f.tangentArray xs (seedOf (f.seedLists (unitTangent i c)))) o,
    Run.alone_eq_ok_iff.2 ⟨m', hgives⟩, rfl, ?_, ?_⟩
  · rw [List.getElem?_map, List.getElem?_range ho]
    rfl
  · have hseed : ∀ j < f.nIn, ∀ k < f.inputLength j,
        seedOf (f.seedLists (unitTangent i c)) j k = (unitTangent i c j k : F) := by
      intro j hj k hk
      have hp : f.inputPatterns[j]? = some f.inputPatterns[j] := List.getElem?_eq_getElem hj
      have hlists : (f.seedLists (unitTangent (F := F) i c))[j]? =
          some ((List.range f.inputPatterns[j].nnz).map (unitTangent i c j)) := by
        simp [seedLists, hp]
      have hk' : k < f.inputPatterns[j].nnz := by simpa [inputLength, hp] using hk
      rw [seedOf, getD_seedAt hlists]
      simp [List.getD_eq_getElem?_getD, hk']
    rw [outputOf, List.getElem?_map, List.getElem?_range hr, Option.map_some,
      tangentArray_output hf xs _ ho hr, ← sum_mul_unitTangent hi hc (f.derivative xs o · r)]
    congr 1
    refine Finset.sum_congr rfl fun j hj => Finset.sum_congr rfl fun k hk => ?_
    rw [hseed j (Finset.mem_range.1 hj) k (Finset.mem_range.1 hk), mul_comm]

end Tape

namespace Tape

variable {F : Type} [CommRing F] [Div F] [Elementary F] [Elementary.Exact F] [ElementText F]
  {f : Tape F}

/--
The Jacobian of a block that is accepted is returned. It has a row for every nonzero of the
output and a column for every nonzero of the input, and at every position, inside and outside
its pattern, it has what an evaluation with the forward seed of the column alone returns.
-/
theorem jacobian_entries_eq_sensitivities
    {g : Graph F} {inputs outputs : List NodeId} {config : Config} (hbare : g.BareLeaves)
    (hcompile : compile g inputs outputs config = .ok f) (hmax : 1 ≤ config.maxDirections)
    {o i : Nat} (ho : o < f.nOut) (hi : i < f.nIn) {m : Memory F} (hm : m.WellSized)
    {xs : List (List F)}
    (hcheck : ∀ plan, f.jacobianPlan o i = .ok plan →
      f.checkJacobians jacobianOp m.sizes xs [plan] = .ok ()) :
    ∃ jac, (f.jacobian xs o i).alone m = .ok jac ∧
      jac.pattern.nrow = f.outputLength o ∧ jac.pattern.ncol = f.inputLength i ∧
      ∀ r < f.outputLength o, ∀ c < f.inputLength i, ∀ m' : Memory F, m'.WellSized →
        f.checkEvaluation "evaluate" m'.sizes xs [f.seedLists (unitTangent i c)] [] = .ok () →
          ∃ e tangents column x,
            (f.evaluate xs [f.seedLists (unitTangent i c)] []).alone m' = .ok e ∧
              e.fwd = [tangents] ∧ tangents[o]? = some column ∧ column[r]? = some x ∧
              jac.get? r c = some x := by
  obtain ⟨order, h⟩ := compiled_of_compile hbare hcompile
  have hf := h.wellFormed
  obtain ⟨plan, hplan, hsound, rfl, rfl⟩ := jacobianPlan_spec hf ho hi
  obtain ⟨values, m₁, hgives, hvalues⟩ := gives_jacobianWithPlan hf
    (h.one_le_maxDirections hmax) hsound hm (hcheck plan hplan)
  have hjacobian : Run.Gives (f.jacobian xs plan.output plan.input) m
      ⟨plan.pattern, values⟩ m₁ :=
    Run.gives_bind.2 ⟨plan, m, Run.gives_ofExcept.2 ⟨hplan, rfl⟩, hgives⟩
  refine ⟨_, Run.alone_eq_ok_iff.2 ⟨m₁, hjacobian⟩, hsound.nrow, hsound.ncol,
    fun r hr c hc m' hm' haccept => ?_⟩
  obtain ⟨e, tangents, column, hevaluate, hfwd, hcolumn, hentry⟩ :=
    evaluate_unitTangent hf ho hi hr hc hm' haccept
  refine ⟨e, tangents, column, _, hevaluate, hfwd, hcolumn, hentry, ?_⟩
  exact get?_eq hsound.wellFormed hvalues (by rw [hsound.nrow]; exact hr)
    (by rw [hsound.ncol]; exact hc) fun hnot => hsound.zero r hr c hc hnot xs

theorem jacobian_entries_eq_sensitivities_scaling :
    ∃ jac e tangents column x,
      (scaling.jacobian [[2, 3]] 1 0).alone (scaling.memory 2 2) = .ok jac ∧
      (scaling.evaluate [[2, 3]] [scaling.seedLists (unitTangent 0 0)] []).alone
        (scaling.memory 1 0) = .ok e ∧
      e.fwd = [tangents] ∧ tangents[1]? = some column ∧ column[1]? = some x ∧
      jac.get? 1 0 = some x := by
  have hplan : scaling.jacobianPlan 1 0 =
      .ok ⟨1, 0, ⟨2, #[[0, 1], [0, 1]]⟩, ⟨⟨#[some 0, some 1]⟩, ⟨#[none, none]⟩⟩⟩ := by
    cbv
  have hcheck : ∀ plan, scaling.jacobianPlan 1 0 = .ok plan →
      scaling.checkJacobians jacobianOp (scaling.memory 2 2).sizes [[2, 3]] [plan] = .ok () := by
    intro plan hplan'
    rw [hplan] at hplan'
    cases hplan'
    cbv
  obtain ⟨jac, hjac, -, -, hentries⟩ := jacobian_entries_eq_sensitivities
    Graph.bareLeaves_scaling compile_scaling (by decide) (by cbv) (by cbv)
    (Memory.wellSized_new (scaling.requiredMemory 2 2)) hcheck
  obtain ⟨e, tangents, column, x, he, hfwd, hcolumn, hx, hget⟩ := hentries 1 (by cbv) 0 (by cbv)
    (scaling.memory 1 0) (Memory.wellSized_new _) (by cbv)
  exact ⟨jac, e, tangents, column, x, hjac, he, hfwd, hcolumn, hx, hget⟩

end Tape

end SparseDiff
