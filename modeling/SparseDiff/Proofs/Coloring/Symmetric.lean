import SparseDiff.Proofs.Bounds.Plans

/-!
# Symmetric colorings are sound

Two columns that meet in a row of a symmetric pattern are at distance one or two, through the
vertex of that row, so the coloring keeps them apart and its check accepts every symmetric
pattern (`symmetricColoring_sound`). A structural Hessian is such a pattern, whatever tape it is
taken from: a plan for it is refused only if its block does not exist or its output is no dense
scalar.
-/

namespace SparseDiff

/-- A square pattern that is its own mirror image. -/
structure Pattern.IsSymmetric (p : Pattern) : Prop where
  square : p.nrow = p.ncol
  mem_iff : ∀ r c, c ∈ p.row r ↔ r ∈ p.row c

/-- The colors by which the entries of a symmetric pattern are told apart. -/
structure Coloring.Resolves (c : Coloring) (p : Pattern) : Prop where
  size : c.colors.size = p.nrow
  /-- No row has two columns of one color. -/
  ne : ∀ r, ∀ a ∈ p.row r, ∀ b ∈ p.row r, a ≠ b → c.colorOf a ≠ c.colorOf b
  /-- A vertex without a nonzero in its row needs no color. -/
  isSome_iff : ∀ v, (c.colorOf v).isSome ↔ p.row v ≠ []

namespace Pattern.IsSymmetric

theorem resolves
    {p : Pattern} (h : p.IsSymmetric) :
    ∃ c, symmetricColoring p = .ok c ∧ c.Resolves p ∧ c.Separates p fun _ => True := by
  obtain ⟨c, hc, hseparates⟩ := symmetricColoring_spec h.square fun r c => (h.mem_iff r c).1
  exact ⟨c, hc, ⟨hseparates.size.trans h.square.symm,
    fun r a ha b hb => hseparates.ne r a b trivial ha hb,
    fun v => colored_symmetricColoring_iff hc⟩, hseparates⟩

end Pattern.IsSymmetric

namespace Tape

variable {F : Type} {f : Tape F}

/--
A block that does not exist, or has no dense scalar output, is refused before a color is given, and
not for a memory.
-/
theorem hessianPlan_refused
    {o i : Nat} (h : ¬ ((∃ out, f.outputPatterns[o]? = some out ∧ out.isDenseScalar = true) ∧
      i < f.nIn)) :
    ∃ cause, f.hessianPlan o i = .error (.rejected (.dimension "hessian_sparsity" cause)) ∧
      ∀ what needed held, cause ≠ .memory what needed held := by
  unfold hessianPlan hessianPattern checkBlock outputPattern inputPattern
  cases ho : f.outputPatterns[o]? with
  | none => exact ⟨_, rfl, nofun⟩
  | some out =>
      cases hi : f.inputPatterns[i]? with
      | none => exact ⟨_, rfl, nofun⟩
      | some inp =>
          have hscalar : ¬ out.isDenseScalar = true := fun hscalar =>
            h ⟨⟨out, ho, hscalar⟩, (List.getElem?_eq_some_iff.1 hi).1⟩
          refine ⟨.notScalar o out.nrow out.ncol out.nnz, ?_, nofun⟩
          simp [checkScalarOutput, hscalar, orReject, Except.mapError, bind, Except.bind, pure,
            Except.pure]

variable [Zero F]

/-- The structural Hessian of every scalar output is a symmetric pattern. -/
theorem isSymmetric_hessianPattern
    (hf : f.WellFormed) {o i : Nat} {out : Pattern} (ho : f.outputPatterns[o]? = some out)
    (hscalar : out.isDenseScalar = true) (hi : i < f.nIn) :
    ∃ p, f.hessianPattern o i = .ok p ∧ p.WellFormed ∧ p.IsSymmetric := by
  obtain ⟨p, hp, hwell, hnrow, hncol, hsymm, -⟩ := hessianPattern_marks hf ho hscalar hi
  exact ⟨p, hp, hwell, hnrow.trans hncol.symm, fun r c => ⟨hsymm r c, hsymm c r⟩⟩

/-- A block with a dense scalar output has a plan. -/
theorem exists_hessianPlan
    (hf : f.WellFormed) {o i : Nat} {out : Pattern} (ho : f.outputPatterns[o]? = some out)
    (hscalar : out.isDenseScalar = true) (hi : i < f.nIn) :
    ∃ plan, f.hessianPlan o i = .ok plan ∧ plan.pattern.IsSymmetric ∧
      plan.coloring.Resolves plan.pattern := by
  obtain ⟨p, hp, hwell, hsymm⟩ := isSymmetric_hessianPattern hf ho hscalar hi
  obtain ⟨c, hc, hresolves, hseparates⟩ := hsymm.resolves
  refine ⟨⟨o, i, p, c⟩, ?_, hsymm, hresolves⟩
  rw [hessianPlan, hp]
  refine bind_eq_ok_iff.2 ⟨p, rfl, bind_eq_ok_iff.2 ⟨c, hc, ?_⟩⟩
  exact bind_eq_ok_iff.2 ⟨(), verifySymmetric_eq_ok hwell hseparates, rfl⟩

end Tape

/--
On every symmetric pattern the columns of a row have colors of their own, exactly the vertices
with a nonzero in their row are colored, and the check of the coloring accepts. So no plan for a
Hessian of a compiled function meets a collision: every block with a dense scalar output has a
plan.
-/
theorem symmetricColoring_sound
    {F : Type} [Zero F] [Elementary F] [ElementText F] :
    (∀ p : Pattern, p.WellFormed → p.IsSymmetric →
      ∃ c, symmetricColoring p = .ok c ∧ c.Resolves p ∧ verifySymmetric p c = .ok ()) ∧
    ∀ (g : Graph F) (inputs outputs : List NodeId) (config : Config) (f : Tape F),
      g.BareLeaves → Tape.compile g inputs outputs config = .ok f → ∀ o i,
        (∀ op r c k, f.hessianPlan o i ≠ .error (.rejected (.collision op r c k))) ∧
        ∀ out, f.outputPatterns[o]? = some out → out.isDenseScalar = true → i < f.nIn →
          ∃ plan, f.hessianPlan o i = .ok plan ∧ plan.pattern.IsSymmetric ∧
            plan.coloring.Resolves plan.pattern := by
  constructor
  · intro p hp hsymm
    obtain ⟨c, hc, hresolves, hseparates⟩ := hsymm.resolves
    exact ⟨c, hc, hresolves, verifySymmetric_eq_ok hp hseparates⟩
  · intro g inputs outputs config f hbare hcompile o i
    obtain ⟨order, hcompiled⟩ := Tape.compiled_of_compile hbare hcompile
    have hf : f.WellFormed := hcompiled.wellFormed
    refine ⟨fun op r c k hcollision => ?_, fun out ho hscalar hi =>
      Tape.exists_hessianPlan hf ho hscalar hi⟩
    by_cases hblock :
        (∃ out, f.outputPatterns[o]? = some out ∧ out.isDenseScalar = true) ∧ i < f.nIn
    · obtain ⟨⟨out, ho, hscalar⟩, hi⟩ := hblock
      obtain ⟨plan, hplan, -⟩ := Tape.exists_hessianPlan hf ho hscalar hi
      cases hplan.symm.trans hcollision
    · obtain ⟨cause, hrefused, -⟩ := Tape.hessianPlan_refused hblock
      cases hrefused.symm.trans hcollision

theorem Partition.isSymmetric_arrow : Partition.arrow.IsSymmetric := by
  have hrows : ∀ r < 4, ∀ c < 4, c ∈ Partition.arrow.row r → r ∈ Partition.arrow.row c := by decide
  have hsymm : ∀ r c, c ∈ Partition.arrow.row r → r ∈ Partition.arrow.row c := fun r c hc =>
    hrows r (Pattern.lt_nrow_of_mem_row hc) c (Partition.wellFormed_arrow.lt_ncol hc) hc
  exact ⟨rfl, fun r c => ⟨hsymm r c, hsymm c r⟩⟩

theorem symmetricColoring_sound_arrow :
    (∃ c, symmetricColoring Partition.arrow = .ok c ∧ c.Resolves Partition.arrow) ∧
      (∃ plan, Tape.scaling.hessianPlan 0 0 = .ok plan ∧ plan.pattern.IsSymmetric) ∧
      ∀ r c k, Tape.scaling.hessianPlan 1 0 ≠
        .error (.rejected (.collision "verify_symmetric" r c k)) := by
  obtain ⟨hcolors, hplans⟩ := symmetricColoring_sound (F := Int)
  obtain ⟨c, hc, hresolves, -⟩ :=
    hcolors Partition.arrow Partition.wellFormed_arrow Partition.isSymmetric_arrow
  have hplan := hplans Graph.scaling [0] [3, 4, 0] {} Tape.scaling Graph.bareLeaves_scaling
    Tape.compile_scaling
  obtain ⟨plan, hplan', hplansymm, -⟩ :=
    (hplan 0 0).2 ⟨1, #[[0]]⟩ (by cbv) (by decide) (by cbv)
  exact ⟨⟨c, hc, hresolves⟩, ⟨plan, hplan', hplansymm⟩, (hplan 1 0).1 _⟩

/-- The center of an arrow meets every other vertex, and so they all meet one another. -/
example : symmetricColoring Partition.arrow = .ok ⟨#[some 0, some 1, some 2, some 3]⟩ := by
  cbv

end SparseDiff
