import SparseDiff.Assembly.Dense
import SparseDiff.Proofs.Bounds.Requests
import SparseDiff.Proofs.Coloring.Symmetric
import SparseDiff.Proofs.Dense.Views
import SparseDiff.Proofs.Isolation.Results

/-!
# Derivatives as dense copies

A dense derivative is computed in a memory of its own. With one direction of either kind this
memory holds the sweeps of every plan of the tape, so a dense derivative is the copy of the sparse
one and is never refused for its memory (`DenseCopy`). But the arrays for all directions that may
share a sweep have to exist: if they cannot be allocated there is no derivative at all.
-/

namespace SparseDiff

variable {F : Type}

/-- The refusal of a memory that is too small. -/
def Failure.IsMemory (e : Failure) : Prop :=
  ∃ err, e = .rejected err ∧ err.IsShortage

theorem Failure.IsNumeric.not_isMemory
    {e : Failure} (h : e.IsNumeric) :
    ¬ e.IsMemory := by
  rintro ⟨err, rfl, op, what, needed, held, rfl⟩
  obtain ⟨_, _, _, heq⟩ := h
  cases heq

theorem Error.IsMismatch.not_isMemory
    {e : Error} (h : e.IsMismatch) :
    ¬ (Failure.rejected e).IsMemory := by
  rintro ⟨_, heq, hshort⟩
  cases heq
  exact h.2 hshort

/-- The results are the same, or both have met a number that is not finite, maybe elsewhere. -/
def SameResult {α : Type} (x y : Except Failure α) : Prop :=
  x = y ∨ ∃ e e', x = .error e ∧ y = .error e' ∧ e.IsNumeric ∧ e'.IsNumeric

theorem SameResult.map
    {α β : Type} {x y : Except Failure α} (h : SameResult x y) (g : α → β) :
    SameResult (x.map g) (y.map g) := by
  rcases h with rfl | ⟨e, e', rfl, rfl, he, he'⟩
  · exact .inl rfl
  · exact .inr ⟨e, e', rfl, rfl, he, he'⟩

theorem Run.SameOutcome.sameResult
    {α : Type} {x x' : Run F α} {m m' : Memory F} (h : SameOutcome x m x' m')
    (hx : FailsAs Failure.IsNumeric (x.alone m)) :
    SameResult (x.alone m) (x'.alone m') := by
  cases hresult : x.alone m with
  | ok a => exact .inl ((h.ok a).1 hresult).symm
  | error e =>
      have he := hx.of_error e hresult
      obtain ⟨e', herr, he'⟩ := h.numeric.1 ⟨e, hresult, he⟩
      exact .inr ⟨e, e', rfl, herr, he, he'⟩

/--
`dense` is the dense copy of the result of `sparse`: of its result in a memory of the sizes `own`,
whatever is in there, and of that in any memory which is not too small, in arithmetic in which
directions do not influence each other. It is not refused for a memory.
-/
structure DenseCopy [Zero F] [One F] [Add F] [Mul F] [Calculus F]
    (dense : Except Failure (DenseMatrix F)) (sparse : Run F (SparseMatrix F))
    (own : MemorySizes) : Prop where
  eq : ∀ m : Memory F, m.WellSized → m.sizes = own →
    dense = (sparse.alone m).map DenseMatrix.ofSparse
  enough : ∀ e, dense = .error e → ¬ e.IsMemory
  same : Calculus.NeutralZero F → Calculus.AbsorbingZero F → ∀ m : Memory F, m.WellSized →
    (∀ e, sparse.alone m = .error e → ¬ e.IsMemory) →
      SameResult dense ((sparse.alone m).map DenseMatrix.ofSparse)

/--
A computation of a sparse matrix for the plans that `plan` may give: one that does not fit is
refused, then a memory that is too small; otherwise it returns or meets a number that is not finite.
What a memory holds does not matter, nor does its size in arithmetic in which directions do not
influence each other.
-/
structure Planned [Zero F] [One F] [Add F] [Mul F] [Calculus F] {P : Type}
    (plan : Except Failure P) (fits : P → Except Error Unit) (op : String)
    (least : P → MemorySizes) (body : P → Run F (SparseMatrix F)) : Prop where
  plan_fails : FailsAs (fun e => ¬ e.IsMemory) plan
  fits_fails : ∀ p, FailsAs Error.IsMismatch (fits p)
  answers : ∀ p (m : Memory F), m.WellSized →
    Run.Answers (fits p >>= fun _ => m.sizes.check op (least p)) (body p) m fun _ => True
  forgets : ∀ p (m m' : Memory F), m.WellSized → m'.WellSized → m.sizes = m'.sizes →
    (body p).alone m = (body p).alone m'
  same : Calculus.NeutralZero F → Calculus.AbsorbingZero F → ∀ p (m m' : Memory F),
    m.WellSized → m'.WellSized → m.sizes.check op (least p) = .ok () →
    m'.sizes.check op (least p) = .ok () → Run.SameOutcome (body p) m (body p) m'

theorem map_eq_error_iff
    {ε α β : Type} {x : Except ε α} {g : α → β} {e : ε} :
    x.map g = .error e ↔ x = .error e := by
  cases x <;> simp [Except.map]

section Planned

variable [Zero F] [One F] [Add F] [Mul F] [Calculus F] {P : Type} {plan : Except Failure P}
  {fits : P → Except Error Unit} {op : String} {least : P → MemorySizes}
  {body : P → Run F (SparseMatrix F)} {own : MemorySizes}

/-- What is refused with one error in all memories has a dense copy, unless it is for a memory. -/
theorem denseCopy_of_refused
    {sparse : Run F (SparseMatrix F)} {e : Failure} (he : ¬ e.IsMemory)
    (h : ∀ m : Memory F, m.WellSized → sparse.alone m = .error e) :
    DenseCopy ((sparse.alone (Memory.new own)).map DenseMatrix.ofSparse) sparse own := by
  have hfresh := h _ (Memory.wellSized_new own)
  refine ⟨fun m hm _ => by rw [h m hm, hfresh], fun e' he' => ?_,
    fun _ _ m hm _ => .inl (by rw [h m hm, hfresh])⟩
  rw [hfresh] at he'
  cases he'
  exact he

/-- A memory that is large enough for every plan gives the dense copy. -/
theorem Planned.denseCopy
    (h : Planned plan fits op least body) (hown : ∀ p, own.check op (least p) = .ok ()) :
    DenseCopy (((Run.ofExcept plan >>= body).alone (Memory.new own)).map DenseMatrix.ofSparse)
      (Run.ofExcept plan >>= body) own := by
  cases plan with
  | error e => exact denseCopy_of_refused (h.plan_fails.of_error e rfl) fun _ _ => rfl
  | ok p =>
      have hgoes : (Run.ofExcept (.ok p) >>= body) = body p := rfl
      rw [hgoes]
      cases hfit : fits p with
      | error err =>
          -- what does not fit is refused before the memory is looked at
          exact denseCopy_of_refused ((h.fits_fails p).of_error err hfit).not_isMemory fun m hm =>
            (h.answers p m hm).refused err (by rw [hfit]; rfl)
      | ok _ =>
          have hfresh := Memory.wellSized_new (F := F) own
          have hnumeric : FailsAs Failure.IsNumeric ((body p).alone (Memory.new own)) :=
            ((h.answers p _ hfresh).ends (by rw [hfit]; exact hown p)).failsAs
          refine ⟨fun m hm hsizes => ?_, fun e he => ?_, fun hneutral habsorbs m hm hroom => ?_⟩
          · rw [h.forgets p m _ hm hfresh hsizes]
          · exact (hnumeric.of_error e (map_eq_error_iff.1 he)).not_isMemory
          · have hcheck : m.sizes.check op (least p) = .ok () := by
              cases hshort : m.sizes.check op (least p) with
              | ok _ => rfl
              | error err =>
                  have hrefused := (h.answers p m hm).refused err (by rw [hfit]; exact hshort)
                  exact absurd ⟨err, rfl, (MemorySizes.failsAs_check ..).of_error err hshort⟩
                    (hroom _ hrefused)
            exact ((h.same hneutral habsorbs p _ m hfresh hm (hown p) hcheck).sameResult
              hnumeric).map DenseMatrix.ofSparse

end Planned

namespace Tape

variable {f : Tape F}

theorem jacobianPlan_refused
    {o i : Nat} (h : ¬ (o < f.nOut ∧ i < f.nIn)) :
    ∃ cause, f.jacobianPlan o i = .error (.rejected (.dimension "jacobian_sparsity" cause)) ∧
      ∀ what needed held, cause ≠ .memory what needed held := by
  unfold jacobianPlan jacobianPattern checkBlock outputPattern inputPattern
  cases ho : f.outputPatterns[o]? with
  | none => exact ⟨_, rfl, nofun⟩
  | some out =>
      cases hi : f.inputPatterns[i]? with
      | none => exact ⟨_, rfl, nofun⟩
      | some inp =>
          exact absurd ⟨(List.getElem?_eq_some_iff.1 ho).1, (List.getElem?_eq_some_iff.1 hi).1⟩ h

theorem not_isMemory_of_cause
    {op : String} {cause : DimensionCause}
    (h : ∀ what needed held, cause ≠ .memory what needed held) :
    ¬ (Failure.rejected (.dimension op cause)).IsMemory :=
  ((@failsAs_dimension Unit op cause h).of_error _ rfl).not_isMemory

section Plans

variable [Zero F]

theorem failsAs_jacobianPlan
    (hf : f.WellFormed) (o i : Nat) :
    FailsAs (fun e => ¬ e.IsMemory) (f.jacobianPlan o i) := by
  by_cases hblock : o < f.nOut ∧ i < f.nIn
  · obtain ⟨parts, hparts, -⟩ :=
      Partition.ofPattern_spec (wellFormed_jacobianForward hf hblock.2 o) f.config.mode
    unfold jacobianPlan
    rw [jacobianPattern_eq hf hblock.1 hblock.2, ok_bind, hparts]
    exact failsAs_ok _
  · obtain ⟨cause, hrefused, hcause⟩ := jacobianPlan_refused hblock
    rw [hrefused]
    exact failsAs_error (not_isMemory_of_cause hcause)

theorem failsAs_hessianPlan
    (hf : f.WellFormed) (o i : Nat) :
    FailsAs (fun e => ¬ e.IsMemory) (f.hessianPlan o i) := by
  by_cases hblock :
      (∃ out, f.outputPatterns[o]? = some out ∧ out.isDenseScalar = true) ∧ i < f.nIn
  · obtain ⟨⟨out, ho, hscalar⟩, hi⟩ := hblock
    obtain ⟨plan, hplan, -⟩ := exists_hessianPlan hf ho hscalar hi
    rw [hplan]
    exact failsAs_ok _
  · obtain ⟨cause, hrefused, hcause⟩ := hessianPlan_refused hblock
    rw [hrefused]
    exact failsAs_error (not_isMemory_of_cause hcause)

end Plans

/-- A memory for all directions of a sweep holds what any plan needs. -/
theorem check_requiredMemory
    (hf : f.WellFormed) {n nadj : Nat} (hn : 1 ≤ n) (hnadj : 1 ≤ nadj) (op : String)
    (colors sweeps : Nat) :
    (f.requiredMemory n nadj).check op (f.leastMemory colors sweeps) = .ok () := by
  refine check_leastMemory hf ?_ hn hnadj op _ _
  rw [requiredMemory, layout, if_neg (by omega)]

theorem allocate_eq_ok
    [Zero F] [ElementWidth F] {nfwd nadj : Nat}
    (h : (f.requiredMemory nfwd nadj).isAllocatable (ElementWidth.bytes F) = true) :
    f.allocate nfwd nadj = .ok (Memory.new (f.requiredMemory nfwd nadj)) :=
  if_pos h

theorem allocate_eq_error
    [Zero F] [ElementWidth F] {nfwd nadj : Nat}
    (h : (f.requiredMemory nfwd nadj).isAllocatable (ElementWidth.bytes F) = false) :
    f.allocate nfwd nadj = .error .tooLarge :=
  if_neg (by rw [h]; exact nofun)

section Derivatives

variable [Zero F] [One F] [Add F] [Mul F] [Calculus F] (hf : f.WellFormed)
  (hmax : 1 ≤ f.config.maxDirections)

include hf hmax

theorem planned_jacobian
    (xs : List (List F)) (o i : Nat) :
    Planned (f.jacobianPlan o i)
      (fun plan => do
        [plan].forM (f.checkJacobianPlan jacobianOp)
        f.checkInputValues jacobianOp xs)
      jacobianOp (fun plan => f.leastMemory plan.nfwd plan.nadj) (f.jacobianWithPlan xs) where
  plan_fails := failsAs_jacobianPlan hf o i
  fits_fails _ := (failsAs_forM fun plan _ => f.failsAs_checkJacobianPlan jacobianOp plan).bind
    fun _ _ => failsAs_checkLists ..
  answers plan m hm := by
    have hcheck : f.checkJacobians jacobianOp m.sizes xs [plan] =
        ((do
            [plan].forM (f.checkJacobianPlan jacobianOp)
            f.checkInputValues jacobianOp xs) >>= fun _ =>
          m.sizes.check jacobianOp (f.leastMemory plan.nfwd plan.nadj)) := by
      unfold checkJacobians
      simp only [length_directions_singleton, bind_assoc]
    rw [← hcheck]
    refine ⟨fun e he => Run.alone_bind_of_error (jacobianValues_of_check_error he), fun hok => ?_⟩
    exact Run.ends_bind.2 ((ends_jacobianValues hf hm hok).imp (fun _ _ _ => trivial)
      fun _ he => he)
  forgets plan m m' hm hm' hsizes := (alike_jacobianWithPlan hf hm hm' hsizes xs plan).alone_eq
  same _ _ _ _ _ hm hm' hroom hroom' :=
    sameOutcome_jacobianWithPlan (n := f.config.maxDirections) hf hf hmax hmax hm hm' hroom hroom'

theorem planned_hessian
    (xs : List (List F)) (o i : Nat) :
    Planned (f.hessianPlan o i)
      (fun plan => do
        f.checkHessianPlan hessianOp plan
        f.checkInputValues hessianOp xs)
      hessianOp f.leastHessianMemory (f.hessianWithPlan xs) where
  plan_fails := failsAs_hessianPlan hf o i
  fits_fails plan := (f.failsAs_checkHessianPlan hessianOp plan).bind
    fun _ _ => failsAs_checkLists ..
  answers plan m hm := by
    have hcheck : f.checkHessian hessianOp m.sizes xs plan =
        ((do
            f.checkHessianPlan hessianOp plan
            f.checkInputValues hessianOp xs) >>= fun _ =>
          m.sizes.check hessianOp (f.leastHessianMemory plan)) := by
      unfold checkHessian
      simp only [bind_assoc]
    have hanswers := answers_hessianWithPlan hf hm xs plan
    rw [← hcheck]
    exact ⟨hanswers.refused, fun hok => (hanswers.ends hok).imp (fun _ _ _ => trivial)
      fun _ he => he⟩
  forgets plan m m' hm hm' hsizes := (alike_hessianWithPlan hf hm hm' hsizes xs plan).alone_eq
  same _ _ _ _ _ hm hm' hroom hroom' :=
    sameOutcome_hessianWithPlan (n := f.config.maxDirections) hf hf hmax hmax hm hm' hroom hroom'

end Derivatives

end Tape

section Compiled

variable [Zero F] [One F] [Add F] [Sub F] [Neg F] [Mul F] [Div F] [Elementary F] [ElementText F]
  [ElementWidth F]

/--
The views of a sparse matrix agree, for every well-formed pattern and a value for each of its
nonzeros: an entry that is looked up has the value of its only triplet, or zero, and so it has in
every dense copy. A look-up is a binary search in a row, and it inverts the numbering. A dense
Jacobian or Hessian of a compiled tape is the copy of the sparse one and is not refused for a
memory, provided that the arrays for all directions of a sweep can be allocated; otherwise there is
none.
-/
theorem dense_views_agree :
    (∀ (p : Pattern) (values : Array F), p.WellFormed → values.size = p.nnz →
      (SparseMatrix.mk p values).Views) ∧
    (∀ p : Pattern, p.WellFormed → ∀ r c, p.nzIndex? r c = p.searchIndex? r c ∧
      ∀ k, p.nzIndex? r c = some k ↔ p.entries[k]? = some (r, c)) ∧
    ∀ (g : Graph F) (inputs outputs : List NodeId) (config : Config) (f : Tape F) (n : Nat),
      g.BareLeaves → Tape.compile g inputs outputs config = .ok f → config.maxDirections = n →
      1 ≤ n → ∀ (xs : List (List F)) (o i : Nat),
        ((f.requiredMemory n n).isAllocatable (ElementWidth.bytes F) = true →
          DenseCopy (f.denseJacobian xs o i) (f.jacobian xs o i) (f.requiredMemory n n)) ∧
        ((f.requiredMemory n n).isAllocatable (ElementWidth.bytes F) = false →
          f.denseJacobian xs o i = .error .tooLarge) ∧
        ((f.requiredMemory n 1).isAllocatable (ElementWidth.bytes F) = true →
          DenseCopy (f.denseHessian xs o i) (f.hessian xs o i) (f.requiredMemory n 1)) ∧
        ((f.requiredMemory n 1).isAllocatable (ElementWidth.bytes F) = false →
          f.denseHessian xs o i = .error .tooLarge) := by
  have hviews : ∀ (p : Pattern) (values : Array F), p.WellFormed → values.size = p.nnz →
      (SparseMatrix.mk p values).Views := by
    intro p values hp hsize
    exact SparseMatrix.views_of_wellFormed hp hsize
  have hsearch : ∀ p : Pattern, p.WellFormed → ∀ r c, p.nzIndex? r c = p.searchIndex? r c ∧
      ∀ k, p.nzIndex? r c = some k ↔ p.entries[k]? = some (r, c) := by
    intro p hp r c
    exact ⟨(Pattern.searchIndex?_eq hp r c).symm, fun k => Pattern.nzIndex?_eq_some_iff hp⟩
  refine ⟨hviews, hsearch, ?_⟩
  rintro g inputs outputs config f n hbare hcompile rfl hone xs o i
  obtain ⟨order, h⟩ := Tape.compiled_of_compile hbare hcompile
  have hf := h.wellFormed
  have hmax := h.one_le_maxDirections hone
  rw [← h.config]
  refine ⟨fun hroom => ?_, fun hlarge => ?_, fun hroom => ?_, fun hlarge => ?_⟩
  · rw [Tape.denseJacobian, Tape.jacobianAlone, Tape.allocate_eq_ok hroom]
    exact (Tape.planned_jacobian hf hmax xs o i).denseCopy fun plan =>
      Tape.check_requiredMemory hf hmax hmax Tape.jacobianOp plan.nfwd plan.nadj
  · rw [Tape.denseJacobian, Tape.jacobianAlone, Tape.allocate_eq_error hlarge]
    rfl
  · rw [Tape.denseHessian, Tape.hessianAlone, Tape.allocate_eq_ok hroom]
    -- a Hessian needs what a sweep with a tangent for its colors and one adjoint needs
    exact (Tape.planned_hessian hf hmax xs o i).denseCopy fun plan =>
      Tape.check_requiredMemory hf hmax (Nat.le_refl 1) Tape.hessianOp plan.coloring.ncolors 1
  · rw [Tape.denseHessian, Tape.hessianAlone, Tape.allocate_eq_error hlarge]
    rfl

end Compiled

instance : ElementWidth Extended := ⟨8⟩

namespace Tape

/-- The Hessian meets a number that is not finite, in a small memory as in that of the copy. -/
theorem dense_views_agree_quotient :
    (SparseMatrix.mk (F := Extended) ⟨2, #[[1], [0, 1]]⟩ #[.infinite, 1, 0]).Views ∧
    (Pattern.mk 2 #[[1], [0, 1]]).searchIndex? 1 1 = some 2 ∧
    (quotient 8).denseJacobian quotientInputs 0 0 =
      (((quotient 8).jacobian quotientInputs 0 0).alone ((quotient 8).memory 8 8)).map
        DenseMatrix.ofSparse ∧
    SameResult ((quotient 8).denseHessian zeroDivisor 0 0)
      ((((quotient 8).hessian zeroDivisor 0 0).alone ((quotient 8).memory 1 1)).map
        DenseMatrix.ofSparse) := by
  obtain ⟨hviews, hsearch, hdense⟩ := dense_views_agree (F := Extended)
  have hpattern : (Pattern.mk 2 #[[1], [0, 1]]).WellFormed := ⟨by decide, by decide⟩
  obtain ⟨hsame, hindex⟩ := hsearch _ hpattern 1 1
  have hcompiled := hdense Graph.quotient [0] [3] { maxDirections := 8 } (quotient 8) 8
    Graph.bareLeaves_quotient (compile_quotient 8) rfl (by decide)
  have hjacobian := (hcompiled quotientInputs 0 0).1 (by cbv)
  have hhessian := (hcompiled zeroDivisor 0 0).2.2.1 (by cbv)
  have hrefused : ((quotient 8).hessian zeroDivisor 0 0).alone ((quotient 8).memory 1 1) =
      .error (.rejected (.numeric hessianOp 3 0)) := by
    cbv
  refine ⟨hviews _ _ hpattern rfl, hsame ▸ (hindex 2).2 rfl,
    hjacobian.eq _ (Memory.wellSized_new _) rfl,
    hhessian.same inferInstance inferInstance _ (Memory.wellSized_new _) fun e he => ?_⟩
  rw [hrefused] at he
  cases he
  exact Failure.IsNumeric.not_isMemory ⟨_, _, _, rfl⟩

/-- So many directions that their arrays cannot be allocated: no copy, though a Jacobian. -/
theorem denseJacobian_tooLarge :
    Graph.quotient.BareLeaves ∧
    compile Graph.quotient [0] [3] { maxDirections := 10 ^ 18 } = .ok (quotient (10 ^ 18)) ∧
    (∃ jac, ((quotient (10 ^ 18)).jacobian quotientInputs 0 0).alone
      ((quotient (10 ^ 18)).memory 1 1) = .ok jac) ∧
    (quotient (10 ^ 18)).denseJacobian quotientInputs 0 0 = .error .tooLarge := by
  refine ⟨Graph.bareLeaves_quotient, compile_quotient _, exists_eq_ok_of_isOk (by cbv), ?_⟩
  have hlarge : ((quotient (10 ^ 18)).requiredMemory (10 ^ 18) (10 ^ 18)).isAllocatable
      (ElementWidth.bytes Extended) = false := by
    cbv
  have hconfig : (quotient (10 ^ 18)).config.maxDirections = 10 ^ 18 := by
    cbv
  rw [denseJacobian, jacobianAlone, hconfig, allocate_eq_error hlarge]
  rfl

end Tape

end SparseDiff
