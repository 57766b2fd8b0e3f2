import SparseDiff.Proofs.Assembly.Batching
import SparseDiff.Proofs.Coloring.Partition
import SparseDiff.Proofs.Structure.Chains

/-!
# Plans and the tables they are read with

A plan of any compiled function has a color table as long as its pattern is wide, or high, and a
pattern inside its own shape (`JacobianPlan.Built.tabled`, `HessianPlan.Built.tabled`). A request
about such a plan only compares shapes; what is read through the plan is then in range as well.
-/

namespace SparseDiff

/-- The color tables of a plan cover the rows and columns of its pattern. -/
structure JacobianPlan.Tabled (plan : JacobianPlan) : Prop where
  wellFormed : plan.pattern.WellFormed
  forward : plan.partition.forward.colors.size = plan.pattern.ncol
  adjoint : plan.partition.adjoint.colors.size = plan.pattern.nrow

/-- The color table of a plan covers the columns of its pattern. -/
structure HessianPlan.Tabled (plan : HessianPlan) : Prop where
  wellFormed : plan.pattern.WellFormed
  coloring : plan.coloring.colors.size = plan.pattern.ncol

/-- A plan that some compiled function has made, over whatever numbers. -/
def JacobianPlan.Built (plan : JacobianPlan) : Prop :=
  ∃ (F : Type) (_ : Zero F) (_ : Elementary F) (_ : ElementText F) (g : Graph F)
    (inputs outputs : List NodeId) (config : Config) (f : Tape F) (o i : Nat),
    g.BareLeaves ∧ Tape.compile g inputs outputs config = .ok f ∧ f.jacobianPlan o i = .ok plan

/-- The same of a plan for a Hessian. -/
def HessianPlan.Built (plan : HessianPlan) : Prop :=
  ∃ (F : Type) (_ : Zero F) (_ : Elementary F) (_ : ElementText F) (g : Graph F)
    (inputs outputs : List NodeId) (config : Config) (f : Tape F) (o i : Nat),
    g.BareLeaves ∧ Tape.compile g inputs outputs config = .ok f ∧ f.hessianPlan o i = .ok plan

namespace Tape

variable {F : Type} [Zero F] {f : Tape F} {o i : Nat}

/-- What a plan for a Jacobian consists of. -/
theorem jacobianPlan_parts
    (hf : f.WellFormed) {plan : JacobianPlan} (h : f.jacobianPlan o i = .ok plan) :
    plan.Fits f ∧ plan.pattern.WellFormed ∧ plan.partition.Recoverable plan.pattern := by
  obtain ⟨p, hp, h⟩ := bind_eq_ok_iff.1 h
  obtain ⟨parts, hparts, h⟩ := bind_eq_ok_iff.1 h
  cases h
  obtain ⟨⟨out, inp⟩, hblock, -⟩ := bind_eq_ok_iff.1 hp
  obtain ⟨hout, hinp⟩ := checkBlock_eq_ok_iff.1 (orReject_eq_ok_iff.1 hblock)
  have ho : o < f.nOut := (List.getElem?_eq_some_iff.1 hout).1
  have hi : i < f.nIn := (List.getElem?_eq_some_iff.1 hinp).1
  rw [jacobianPattern_eq hf ho hi] at hp
  cases hp
  have hwell := wellFormed_jacobianForward hf hi o
  obtain ⟨parts', hparts', hrecoverable⟩ := Partition.ofPattern_spec hwell f.config.mode
  cases hparts.symm.trans hparts'
  exact ⟨⟨ho, hi, nrow_jacobianForward f i o, rfl⟩, hwell, hrecoverable⟩

/-- What a plan for a Hessian consists of. -/
theorem hessianPlan_parts
    (hf : f.WellFormed) {plan : HessianPlan} (h : f.hessianPlan o i = .ok plan) :
    plan.Fits f ∧ plan.pattern.WellFormed ∧ plan.pattern.nrow = f.inputLength plan.input ∧
      plan.pattern.ncol = f.inputLength plan.input ∧
      plan.coloring.Separates plan.pattern fun _ => True := by
  obtain ⟨p, hp, h⟩ := bind_eq_ok_iff.1 h
  obtain ⟨coloring, hcoloring, h⟩ := bind_eq_ok_iff.1 h
  obtain ⟨_, -, h⟩ := bind_eq_ok_iff.1 h
  cases h
  obtain ⟨⟨out, inp⟩, hblock, hrest⟩ := bind_eq_ok_iff.1 hp
  obtain ⟨_, hscalar, -⟩ := bind_eq_ok_iff.1 hrest
  obtain ⟨hout, hinp⟩ := checkBlock_eq_ok_iff.1 (orReject_eq_ok_iff.1 hblock)
  have hdense : out.isDenseScalar = true := by
    have hok := orReject_eq_ok_iff.1 hscalar
    unfold checkScalarOutput at hok
    split at hok
    · assumption
    · cases hok
  have hi : i < f.nIn := (List.getElem?_eq_some_iff.1 hinp).1
  obtain ⟨p', hp', hwell, hnrow, hncol, hsymm, -⟩ := hessianPattern_marks hf hout hdense hi
  cases hp.symm.trans hp'
  obtain ⟨coloring', hcoloring', hseparates⟩ :=
    symmetricColoring_spec (hnrow.trans hncol.symm) hsymm
  cases hcoloring.symm.trans hcoloring'
  exact ⟨⟨(List.getElem?_eq_some_iff.1 hout).1, hi, outputLength_of_isDenseScalar hout hdense⟩,
    hwell, hnrow, hncol, hseparates⟩

end Tape

theorem JacobianPlan.Built.tabled
    {plan : JacobianPlan} (h : plan.Built) :
    plan.Tabled := by
  obtain ⟨F, _, _, _, g, inputs, outputs, config, f, o, i, hbare, hcompile, hplan⟩ := h
  obtain ⟨order, hcompiled⟩ := Tape.compiled_of_compile hbare hcompile
  obtain ⟨-, hwell, hrecoverable⟩ := Tape.jacobianPlan_parts hcompiled.wellFormed hplan
  exact ⟨hwell, hrecoverable.forward.size, hrecoverable.adjoint_size⟩

theorem HessianPlan.Built.tabled
    {plan : HessianPlan} (h : plan.Built) :
    plan.Tabled := by
  obtain ⟨F, _, _, _, g, inputs, outputs, config, f, o, i, hbare, hcompile, hplan⟩ := h
  obtain ⟨order, hcompiled⟩ := Tape.compiled_of_compile hbare hcompile
  obtain ⟨-, hwell, -, -, hseparates⟩ := Tape.hessianPlan_parts hcompiled.wellFormed hplan
  exact ⟨hwell, hseparates.size⟩

/-- The plan names a block of the tape with a dense scalar output, and has its shape. -/
structure HessianPlan.Matches {F : Type} (f : Tape F) (plan : HessianPlan) : Prop where
  output : ∃ out, f.outputPatterns[plan.output]? = some out ∧ out.isDenseScalar = true
  input : plan.input < f.nIn
  nrow : plan.pattern.nrow = f.inputLength plan.input
  ncol : plan.pattern.ncol = f.inputLength plan.input

theorem HessianPlan.Matches.fits
    {F : Type} {f : Tape F} {plan : HessianPlan} (h : plan.Matches f) :
    plan.Fits f := by
  obtain ⟨out, hout, hdense⟩ := h.output
  exact ⟨(List.getElem?_eq_some_iff.1 hout).1, h.input,
    Tape.outputLength_of_isDenseScalar hout hdense⟩

namespace Tape

variable {F : Type} {f : Tape F} {plan : HessianPlan}

theorem checkHessianPlan_eq_ok_iff
    {op : String} :
    f.checkHessianPlan op plan = .ok () ↔ plan.Matches f := by
  unfold checkHessianPlan checkScalarOutput
  constructor
  · intro h
    obtain ⟨⟨out, inp⟩, hblock, h⟩ := bind_eq_ok_iff.1 h
    obtain ⟨_, hscalar, hshape⟩ := bind_eq_ok_iff.1 h
    obtain ⟨ho, hi⟩ := checkBlock_eq_ok_iff.1 hblock
    have hsame := checkPlanShape_eq_ok_iff.1 hshape
    have hlength : f.inputLength plan.input = inp.nnz := by
      rw [inputLength, hi]
      rfl
    refine ⟨⟨out, ho, ?_⟩, (List.getElem?_eq_some_iff.1 hi).1,
      (congrArg Prod.fst hsame).trans hlength.symm, (congrArg Prod.snd hsame).trans hlength.symm⟩
    split at hscalar
    · assumption
    · cases hscalar
  · intro h
    obtain ⟨out, ho, hscalar⟩ := h.output
    obtain ⟨inp, hi⟩ : ∃ inp, f.inputPatterns[plan.input]? = some inp :=
      ⟨_, List.getElem?_eq_getElem h.input⟩
    have hlength : f.inputLength plan.input = inp.nnz := by
      rw [inputLength, hi]
      rfl
    refine bind_eq_ok_iff.2 ⟨(out, inp), checkBlock_eq_ok_iff.2 ⟨ho, hi⟩,
      bind_eq_ok_iff.2 ⟨(), by rw [if_pos hscalar], checkPlanShape_eq_ok_iff.2 (Prod.ext ?_ ?_)⟩⟩
    · exact h.nrow.trans hlength
    · exact h.ncol.trans hlength

/-- A Hessian is accepted if its plan and inputs fit and the memory holds one direction. -/
theorem checkHessian_eq_ok_iff
    {op : String} {sizes : MemorySizes} {xs : List (List F)} :
    f.checkHessian op sizes xs plan = .ok () ↔
      plan.Matches f ∧ FitLists f.inputPatterns xs ∧
        sizes.check op (f.leastHessianMemory plan) = .ok () := by
  unfold checkHessian checkInputValues
  constructor
  · intro h
    obtain ⟨_, hplan, h⟩ := bind_eq_ok_iff.1 h
    obtain ⟨_, hfit, h⟩ := bind_eq_ok_iff.1 h
    exact ⟨checkHessianPlan_eq_ok_iff.1 hplan, checkLists_eq_ok_iff.1 hfit, h⟩
  · rintro ⟨hplan, hfit, hsizes⟩
    exact bind_eq_ok_iff.2 ⟨(), checkHessianPlan_eq_ok_iff.2 hplan,
      bind_eq_ok_iff.2 ⟨(), checkLists_eq_ok_iff.2 hfit, hsizes⟩⟩

end Tape

end SparseDiff
