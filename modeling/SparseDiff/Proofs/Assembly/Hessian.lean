import SparseDiff.Proofs.Assembly.Scatter
import SparseDiff.Proofs.Structure.Hessian

/-!
# Colored Hessians are Hessians

A plan is sound if its pattern holds every second derivative that does not vanish and no row
holds two columns of one color; the plans of a tape are (`Tape.hessianPlan_spec`). The product
with the tangent of a color then holds in every row the one entry of its color, so the
assembled matrix holds the second derivatives, at all positions.
-/

namespace SparseDiff

namespace Tape

variable {F : Type} {f : Tape F} {xs : List (List F)} {plan : HessianPlan}

/-- What the check of a Hessian promises its sweeps. -/
structure AcceptsHessian (f : Tape F) (sizes : MemorySizes) (xs : List (List F))
    (plan : HessianPlan) : Prop where
  fit : FitLists f.inputPatterns xs
  work : f.full.size ≤ sizes.work
  nfwd : 0 < plan.coloring.ncolors → 1 ≤ sizes.nfwd
  nadj : 1 ≤ sizes.nadj

theorem acceptsHessian_of_checkHessian
    {op : String} {sizes : MemorySizes} (h : f.checkHessian op sizes xs plan = .ok ()) :
    f.AcceptsHessian sizes xs plan := by
  obtain ⟨_, -, h⟩ := bind_eq_ok_iff.1 h
  obtain ⟨_, hfit, h⟩ := bind_eq_ok_iff.1 h
  obtain ⟨hwork, hnfwd, hnadj, -⟩ := MemorySizes.check_eq_ok_iff.1 h
  have hnfwd' : min plan.coloring.ncolors 1 ≤ sizes.nfwd := hnfwd
  exact ⟨checkLists_eq_ok_iff.1 hfit, hwork, fun hpos => by omega, hnadj⟩

end Tape

variable {F : Type} [CommRing F] [Calculus F] {f : Tape F}

/-- The pattern holds all second derivatives of the block, and colors separate its rows. -/
structure HessianPlan.Sound (f : Tape F) (plan : HessianPlan) : Prop where
  output : plan.output < f.nOut
  input : plan.input < f.nIn
  wellFormed : plan.pattern.WellFormed
  nrow : plan.pattern.nrow = f.inputLength plan.input
  ncol : plan.pattern.ncol = f.inputLength plan.input
  separates : plan.coloring.Separates plan.pattern fun _ => True
  zero : ∀ r < f.inputLength plan.input, ∀ c < f.inputLength plan.input,
    c ∉ plan.pattern.row r → ∀ xs, f.secondDerivative xs plan.output plan.input r c = 0

namespace HessianPlan

variable {plan : HessianPlan} {xs : List (List F)} {r c k : Nat}

/-- What a sweep finds for a color. -/
def colorProduct (f : Tape F) (xs : List (List F)) (plan : HessianPlan) (k : Nat) : List F :=
  f.inputOf (f.gradientTangent xs plan.output (Tape.colorTangent plan.input plan.coloring k))
    plan.input

/-- The entries that a batch of products recovers. -/
def recovered (f : Tape F) (xs : List (List F)) (plan : HessianPlan) (b : Batch) :
    Nat → Nat → Option F :=
  Tape.fromProducts ((b.members.map (plan.colorProduct f xs)).map List.toArray).toArray b
    plan.coloring

/-- A batch recovers the columns of its colors. -/
theorem recovered_eq
    {b : Batch} (hcolor : plan.coloring.colorOf c = some k) :
    plan.recovered f xs b r c =
      if b.start ≤ k ∧ k < b.stop then (plan.colorProduct f xs k)[r]? else none :=
  Tape.fromProducts_eq (plan.colorProduct f xs) hcolor

/-- The values on the pattern after all batches of so many colors. -/
def assembled (f : Tape F) (xs : List (List F)) (plan : HessianPlan) (size : Nat) : Array F :=
  (batches plan.coloring.ncolors size).foldl
    (fun values b => overlay plan.pattern (plan.recovered f xs b) values)
    (zeroValues plan.pattern)

/-- Batches of no color leave zeros. -/
theorem Sound.getElem?_assembled_zero
    (h : plan.Sound f) (xs : List (List F)) {n : Nat}
    (hn : plan.pattern.entries[n]? = some (r, c)) :
    (plan.assembled f xs 0)[n]? = some 0 := by
  have hc := Pattern.mem_entries_iff.1 (List.mem_of_getElem? hn)
  obtain ⟨k, hk⟩ := Option.isSome_iff_exists.1 (h.separates.isSome r c trivial hc)
  have hlt : n < plan.pattern.nnz := by
    rw [← Pattern.length_entries]
    exact (List.getElem?_eq_some_iff.1 hn).1
  refine getElem?_foldl_overlay hn (fun b hb x hx => ?_) (by simp [zeroValues])
    (.inl (by simp [zeroValues, hlt]))
  -- a batch without colors recovers no entry
  have hstop := (stop_of_mem_batches hb).1
  rw [recovered_eq hk, if_neg (by omega)] at hx
  cases hx

end HessianPlan

variable [Calculus.Exact F]

namespace Tape

/-- A block of a scalar output has a plan, and the plan is sound. -/
theorem hessianPlan_spec
    [Calculus.Structural F] (hf : f.WellFormed) {o i : Nat} {out : Pattern}
    (ho : f.outputPatterns[o]? = some out) (hscalar : out.isDenseScalar = true)
    (hi : i < f.nIn) :
    ∃ plan, f.hessianPlan o i = .ok plan ∧ plan.Sound f ∧ plan.output = o ∧ plan.input = i := by
  have hlt : o < f.nOut := (List.getElem?_eq_some_iff.1 ho).1
  obtain ⟨p, hpattern, hwell, hnrow, hncol, hsymm, hzero⟩ := hessianPattern_spec hf ho hscalar hi
  obtain ⟨coloring, hcoloring, hseparates⟩ :=
    symmetricColoring_spec (hnrow.trans hncol.symm) hsymm
  refine ⟨⟨o, i, p, coloring⟩, ?_, ⟨hlt, hi, hwell, hnrow, hncol, hseparates, hzero⟩, rfl, rfl⟩
  exact bind_eq_ok_iff.2 ⟨p, hpattern, bind_eq_ok_iff.2 ⟨coloring, hcoloring,
    bind_eq_ok_iff.2 ⟨(), verifySymmetric_eq_ok hwell hseparates, rfl⟩⟩⟩

end Tape

namespace HessianPlan

variable {plan : HessianPlan} {xs : List (List F)} {r c k : Nat}

/-- In every row, the product of a color holds the entry of its column. -/
theorem Sound.getElem?_colorProduct
    (hf : f.WellFormed) (h : plan.Sound f) (hc : c ∈ plan.pattern.row r)
    (hcolor : plan.coloring.colorOf c = some k) :
    (plan.colorProduct f xs k)[r]? =
      some (f.secondDerivative xs plan.output plan.input r c) := by
  have hr : r < f.inputLength plan.input := by
    rw [← h.nrow]
    exact Pattern.lt_nrow_of_mem_row hc
  have hclt : c < f.inputLength plan.input := by
    rw [← h.ncol]
    exact h.wellFormed.lt_ncol hc
  have hget : (plan.colorProduct f xs k)[r]? = some (f.gradientTangent xs plan.output
      (Tape.colorTangent plan.input plan.coloring k) (f.full.slot plan.input r)) := by
    simp [colorProduct, Tape.inputOf, hr]
  have hother : ∀ j l, j ≠ plan.input →
      Tape.colorTangent plan.input plan.coloring k j l = (0 : F) := fun j l hj => if_neg hj
  rw [hget, Tape.gradientTangent_input hf xs plan.output h.input hother]
  congr 1
  simp only [Tape.colorTangent, if_true]
  -- no other column of this row has the color
  refine sum_indicator_mul hclt hcolor fun j hj hne hsame => ?_
  by_cases hmem : j ∈ plan.pattern.row r
  · exact absurd (hsame.trans hcolor.symm) (h.separates.ne r j c trivial hmem hc hne)
  · exact h.zero r hr j hj hmem xs

/-- What a batch recovers is a second derivative. -/
theorem Sound.eq_of_recovered
    (hf : f.WellFormed) (h : plan.Sound f) (hc : c ∈ plan.pattern.row r) {b : Batch} {x : F}
    (hx : plan.recovered f xs b r c = some x) :
    x = f.secondDerivative xs plan.output plan.input r c := by
  obtain ⟨k, hk⟩ := Option.isSome_iff_exists.1 (h.separates.isSome r c trivial hc)
  rw [recovered_eq hk] at hx
  split at hx
  · rw [h.getElem?_colorProduct hf hc hk] at hx
    exact (Option.some.inj hx).symm
  · cases hx

/-- Some batch recovers an entry. -/
theorem Sound.exists_recovered
    (hf : f.WellFormed) (h : plan.Sound f) (xs : List (List F)) (hc : c ∈ plan.pattern.row r)
    {size : Nat} (hsize : 1 ≤ size) :
    ∃ b ∈ batches plan.coloring.ncolors size,
      plan.recovered f xs b r c =
        some (f.secondDerivative xs plan.output plan.input r c) := by
  obtain ⟨k, hk⟩ := Option.isSome_iff_exists.1 (h.separates.isSome r c trivial hc)
  obtain ⟨b, hb, hstart, hstop⟩ := exists_mem_batches hsize (Coloring.lt_ncolors hk)
  refine ⟨b, hb, ?_⟩
  rw [recovered_eq hk, if_pos ⟨hstart, hstop⟩, h.getElem?_colorProduct hf hc hk]

/-- Batches of at least one color find every second derivative on the pattern. -/
theorem Sound.getElem?_assembled
    (hf : f.WellFormed) (h : plan.Sound f) (xs : List (List F)) {size : Nat} (hsize : 1 ≤ size)
    {n : Nat} (hn : plan.pattern.entries[n]? = some (r, c)) :
    (plan.assembled f xs size)[n]? =
      some (f.secondDerivative xs plan.output plan.input r c) := by
  have hc := Pattern.mem_entries_iff.1 (List.mem_of_getElem? hn)
  exact getElem?_foldl_overlay hn (fun b _ x hx => h.eq_of_recovered hf hc hx)
    (by simp [zeroValues]) (.inr (h.exists_recovered hf xs hc hsize))

end HessianPlan

namespace Tape

variable {xs : List (List F)} {plan : HessianPlan}

/-- One batch of colors: a sweep, and its products written to the values. -/
theorem gives_hessianBatch
    (hf : f.WellFormed) (h : plan.Sound f) {m : Memory F} (hm : m.WellSized)
    (haccepts : f.AcceptsHessian m.sizes xs plan) {b : Batch}
    (hsize : b.stop - b.start ≤ m.sizes.nfwd) (values : Array F) :
    ∃ m', Run.Gives (f.hessianBatch (f.segmentsAt f.full) xs plan b values) m
        (overlay plan.pattern (plan.recovered f xs b) values) m' ∧
      m'.WellSized ∧ m'.sizes = m.sizes := by
  have hlength : (b.members.map (colorTangent (F := F) plan.input plan.coloring)).length ≤
      m.sizes.nfwd := by
    rwa [List.length_map, Batch.length_members]
  obtain ⟨m', hproducts, hsized, hsizes⟩ := gives_hessianProducts hf hm haccepts.work
    haccepts.nadj haccepts.fit h.output h.input hlength
  rw [List.map_map] at hproducts
  exact ⟨m', Run.gives_bind.2 ⟨_, m', hproducts, Run.gives_pure.2 ⟨rfl, rfl⟩⟩, hsized, hsizes⟩

/-- A sound plan whose check passes gives the values of all its batches. -/
theorem gives_assembled
    (hf : f.WellFormed) (h : plan.Sound f) {m : Memory F} (hm : m.WellSized)
    (hcheck : f.checkHessian hessianOp m.sizes xs plan = .ok ()) :
    ∃ m', Run.Gives (f.hessianWithPlan xs plan) m
      ⟨plan.pattern, plan.assembled f xs (min f.config.maxDirections m.sizes.nfwd)⟩ m' := by
  have haccepts := acceptsHessian_of_checkHessian hcheck
  have hbatch : ∀ b ∈ batches plan.coloring.ncolors (min f.config.maxDirections m.sizes.nfwd),
      ∀ (values : Array F) (m₁ : Memory F), m₁.WellSized ∧ m₁.sizes = m.sizes →
      ∃ m₂, Run.Gives (f.hessianBatch (f.segmentsAt f.full) xs plan b values) m₁
        (overlay plan.pattern (plan.recovered f xs b) values) m₂ ∧
        m₂.WellSized ∧ m₂.sizes = m.sizes := by
    rintro b hb values m₁ ⟨hsized, hsizes⟩
    have hstop := (stop_of_mem_batches hb).1
    obtain ⟨m₂, hgives, hsized₂, hsizes₂⟩ := gives_hessianBatch hf h hsized
      (by rw [hsizes]; exact haccepts) (b := b) (by rw [hsizes]; omega) values
    exact ⟨m₂, hgives, hsized₂, hsizes₂.trans hsizes⟩
  obtain ⟨m', hloop, -⟩ :=
    Run.gives_foldlM hbatch (zeroValues plan.pattern) m ⟨hm, rfl⟩
  exact ⟨m', Run.gives_get_bind.2 (Run.gives_bind.2 ⟨(), m, Run.gives_check.2 ⟨hcheck, rfl⟩,
    Run.gives_bind.2 ⟨_, m, Run.gives_ofExcept.2 ⟨segments_full hf, rfl⟩,
      Run.gives_bind.2 ⟨_, m', hloop, Run.gives_pure.2 ⟨rfl, rfl⟩⟩⟩⟩)⟩

/-- The assembled values of a sound plan are the second derivatives on its pattern. -/
theorem gives_hessianWithPlan
    (hf : f.WellFormed) (hmax : 1 ≤ f.config.maxDirections) (h : plan.Sound f) {m : Memory F}
    (hm : m.WellSized) (hcheck : f.checkHessian hessianOp m.sizes xs plan = .ok ()) :
    ∃ values m', Run.Gives (f.hessianWithPlan xs plan) m ⟨plan.pattern, values⟩ m' ∧
      ∀ k r c : Nat, plan.pattern.entries[k]? = some (r, c) →
        values[k]? = some (f.secondDerivative xs plan.output plan.input r c) := by
  obtain ⟨m', hgives⟩ := gives_assembled hf h hm hcheck
  refine ⟨_, m', hgives, fun k r c hk => h.getElem?_assembled hf xs ?_ hk⟩
  have hc := Pattern.mem_entries_iff.1 (List.mem_of_getElem? hk)
  obtain ⟨color, hcolor⟩ := Option.isSome_iff_exists.1 (h.separates.isSome r c trivial hc)
  have hnfwd := (acceptsHessian_of_checkHessian hcheck).nfwd
    (Nat.lt_of_le_of_lt (Nat.zero_le _) (Coloring.lt_ncolors hcolor))
  omega

/-- A sweep with a unit tangent finds a column of a Hessian. -/
theorem hessianProducts_unitTangent
    (hf : f.WellFormed) {o i r : Nat} (ho : o < f.nOut) (hi : i < f.nIn)
    (hr : r < f.inputLength i) (c : Nat) (hfit : FitLists f.inputPatterns xs) {m : Memory F}
    (hm : m.WellSized) (hcheck : m.sizes.check hessianOp (f.requiredMemory 1 1) = .ok ()) :
    ∃ product, (f.hessianProducts (f.segmentsAt f.full) xs o i [unitTangent i c]).alone m =
        .ok [product] ∧
      product[r]? = some (f.secondDerivative xs o i r c) := by
  obtain ⟨hwork, hnfwd, hnadj, -⟩ := MemorySizes.check_eq_ok_iff.1 hcheck
  obtain ⟨m', hgives, -⟩ := gives_hessianProducts hf hm hwork hnadj hfit ho hi
    (show [unitTangent (F := F) i c].length ≤ m.sizes.nfwd from hnfwd)
  refine ⟨_, Run.alone_eq_ok_iff.2 ⟨m', hgives⟩, ?_⟩
  simp [inputOf, hr, secondDerivative]

end Tape

namespace Tape

variable {F : Type} [CommRing F] [Div F] [Elementary F] [Elementary.Exact F] [ElementText F]
  {f : Tape F}

/--
The Hessian of a scalar output that is accepted is returned. It has a row and a column for
every nonzero of the input, and at every position, inside and outside its pattern, it has the
component of the product that one forward-over-adjoint sweep finds for the unit tangent of
the column.
-/
theorem hessian_entries_eq_products
    {g : Graph F} {inputs outputs : List NodeId} {config : Config} (hbare : g.BareLeaves)
    (hcompile : compile g inputs outputs config = .ok f) (hmax : 1 ≤ config.maxDirections)
    {o i : Nat} {out : Pattern} (ho : f.outputPatterns[o]? = some out)
    (hscalar : out.isDenseScalar = true) (hi : i < f.nIn) {m : Memory F} (hm : m.WellSized)
    {xs : List (List F)}
    (hcheck : ∀ plan, f.hessianPlan o i = .ok plan →
      f.checkHessian hessianOp m.sizes xs plan = .ok ()) :
    ∃ hess, (f.hessian xs o i).alone m = .ok hess ∧
      hess.pattern.nrow = f.inputLength i ∧ hess.pattern.ncol = f.inputLength i ∧
      ∀ r < f.inputLength i, ∀ c < f.inputLength i, ∀ m' : Memory F, m'.WellSized →
        m'.sizes.check hessianOp (f.requiredMemory 1 1) = .ok () →
          ∃ tape product x, f.segments f.full = .ok tape ∧
            (f.hessianProducts tape xs o i [unitTangent i c]).alone m' = .ok [product] ∧
              product[r]? = some x ∧ hess.get? r c = some x := by
  obtain ⟨order, h⟩ := compiled_of_compile hbare hcompile
  have hf := h.wellFormed
  obtain ⟨plan, hplan, hsound, rfl, rfl⟩ := hessianPlan_spec hf ho hscalar hi
  have haccepts := acceptsHessian_of_checkHessian (hcheck plan hplan)
  obtain ⟨values, m₁, hgives, hvalues⟩ := gives_hessianWithPlan hf
    (h.one_le_maxDirections hmax) hsound hm (hcheck plan hplan)
  have hhessian : Run.Gives (f.hessian xs plan.output plan.input) m
      ⟨plan.pattern, values⟩ m₁ :=
    Run.gives_bind.2 ⟨plan, m, Run.gives_ofExcept.2 ⟨hplan, rfl⟩, hgives⟩
  have hsegments := segments_eq hf (l := f.full) (by
    have hoffsets := (hf.full_sound fun _ => True).size
    simpa [spans] using hoffsets)
  refine ⟨_, Run.alone_eq_ok_iff.2 ⟨m₁, hhessian⟩, hsound.nrow, hsound.ncol,
    fun r hr c hc m' hm' haccept => ?_⟩
  obtain ⟨product, hproduct, hentry⟩ := hessianProducts_unitTangent hf hsound.output hi hr c
    haccepts.fit hm' haccept
  refine ⟨_, product, _, hsegments, hproduct, hentry, ?_⟩
  exact get?_eq hsound.wellFormed hvalues (by rw [hsound.nrow]; exact hr)
    (by rw [hsound.ncol]; exact hc) fun hnot => hsound.zero r hr c hc hnot xs

/-- A memory of two directions is large enough for the plan of the product. -/
theorem checkHessian_scaling
    (plan : HessianPlan) (h : scaling.hessianPlan 0 0 = .ok plan) :
    scaling.checkHessian hessianOp (scaling.memory 2 1).sizes [[2, 3]] plan = .ok () := by
  have hplan : scaling.hessianPlan 0 0 =
      .ok ⟨0, 0, ⟨2, #[[1], [0]]⟩, ⟨#[some 0, some 1]⟩⟩ := by
    cbv
  rw [hplan] at h
  cases h
  cbv

theorem hessian_entries_eq_products_scaling :
    ∃ hess tape product x,
      (scaling.hessian [[2, 3]] 0 0).alone (scaling.memory 2 1) = .ok hess ∧
      scaling.segments scaling.full = .ok tape ∧
      (scaling.hessianProducts tape [[2, 3]] 0 0 [unitTangent 0 1]).alone (scaling.memory 1 1) =
        .ok [product] ∧
      product[0]? = some x ∧ hess.get? 0 1 = some x := by
  have hout : scaling.outputPatterns[0]? = some ⟨1, #[[0]]⟩ := by
    cbv
  obtain ⟨hess, hhess, -, -, hentries⟩ := hessian_entries_eq_products Graph.bareLeaves_scaling
    compile_scaling (by decide) hout (by decide) (by cbv)
    (Memory.wellSized_new (scaling.requiredMemory 2 1)) checkHessian_scaling
  obtain ⟨tape, product, x, htape, hproduct, hx, hget⟩ := hentries 0 (by cbv) 1 (by cbv)
    (scaling.memory 1 1) (Memory.wellSized_new _) (by cbv)
  exact ⟨hess, tape, product, x, hhess, htape, hproduct, hx, hget⟩

end Tape

end SparseDiff
