import SparseDiff.Proofs.Bounds.Agreement
import SparseDiff.Proofs.Bounds.Plans

/-!
# No access is out of range

Every call that passes its check does the same with every access checked as without
(`Strict.same_evaluate` and the lemmas like it). A plan may come from another function: what is
read through it is bounded by its own tables, and these by its shape, which the check compares.
-/

namespace SparseDiff

namespace Strict

open Run

variable {F : Type}

section Scatter

variable {p : Pattern} {values : Array F}

/-- Where nothing picked is out of range, values are scattered as without checks. -/
theorem overlay_eq
    {pick : Nat → Nat → Except Failure (Option F)} {pick' : Nat → Nat → Option F}
    (hpick : ∀ r c, c ∈ p.row r → pick r c = .ok (pick' r c)) (hsize : values.size = p.nnz) :
    overlay p pick values = .ok (SparseDiff.overlay p pick' values) := by
  refine foldlM_eq_ok_foldl (I := fun out => out.size = p.nnz) (fun item hitem out hout => ?_) hsize
  have hk := List.mem_zipIdx_iff_getElem?.1 hitem
  have hlt : item.2 < out.size := by
    rw [hout, ← Pattern.length_entries]
    exact (List.getElem?_eq_some_iff.1 hk).1
  simp only [hpick _ _ (Pattern.mem_entries_iff.1 (List.mem_of_getElem? hk)), bind, Except.bind]
  cases pick' item.1.1 item.1.2 with
  | none => exact ⟨rfl, hout⟩
  | some v =>
      simp only [inRange_eq hlt]
      exact ⟨rfl, by rw [Array.size_setIfInBounds, hout]⟩

theorem entryAt_eq
    {sum : Array F} {k : Nat} (hk : k < sum.size) :
    entryAt sum k = .ok sum[k]? := by
  unfold entryAt
  simp only [inRange_eq hk, bind, Except.bind]
  rfl

/-- Results of directions, each as long as it should be. -/
def Results (length : JacobianPlan → Nat) (dirs : List Direction) (found : Compressed F) : Prop :=
  ∀ item ∈ found, item.1 ∈ dirs ∧ item.2.size = length item.1.plan

variable {plans : List JacobianPlan} {plan : JacobianPlan} {block r c : Nat}
  {length count : JacobianPlan → Nat} {dirs : List Direction} {found : Compressed F}

/-- The result of a color of a block has the length of the block. -/
theorem Results.size_sum?
    (h : Results length dirs found) (hdirs : ∀ dir ∈ dirs, plans[dir.block]? = some dir.plan)
    (hplan : plans[block]? = some plan) {color : Nat} {sum : Array F}
    (hsum : found.sum? block color = some sum) :
    sum.size = length plan := by
  obtain ⟨item, hfound, rfl⟩ := Option.map_eq_some_iff.1 hsum
  obtain ⟨hdir, hsize⟩ := h item (List.mem_of_find?_eq_some hfound)
  have htest := List.find?_some hfound
  simp only [Bool.and_eq_true, beq_iff_eq] at htest
  have hsame := hdirs item.1 hdir
  rw [htest.1, hplan] at hsame
  rw [hsize, Option.some.inj hsame]

theorem fromColumns_eq
    (htabled : plan.Tabled) (hc : c ∈ plan.pattern.row r)
    (hsum : ∀ color sum, found.sum? block color = some sum → sum.size = plan.pattern.nrow) :
    fromColumns found block plan.partition r c =
      .ok (found.fromColumns block plan.partition r c) := by
  have hrow := Pattern.lt_nrow_of_mem_row hc
  have hcolor := Coloring.color_eq (c := plan.partition.forward) (v := c)
    (by rw [htabled.forward]; exact htabled.wellFormed.lt_ncol hc)
  have hadjoint := Coloring.color_eq (c := plan.partition.adjoint) (v := r)
    (by rw [htabled.adjoint]; exact hrow)
  unfold fromColumns Compressed.fromColumns Partition.isAdjointRow
  rw [hadjoint, hcolor]
  simp only [Except.map, bind, Except.bind]
  split
  · rfl
  · cases hsome : plan.partition.forward.colorOf c with
    | none => rfl
    | some color =>
        simp only [inRange_eq (Coloring.lt_ncolors hsome), Option.bind_some]
        cases hfound : found.sum? block color with
        | none => rfl
        | some sum => exact entryAt_eq (by rw [hsum color sum hfound]; exact hrow)

theorem fromRows_eq
    (htabled : plan.Tabled) (hc : c ∈ plan.pattern.row r)
    (hsum : ∀ color sum, found.sum? block color = some sum → sum.size = plan.pattern.ncol) :
    fromRows found block plan.partition r c = .ok (found.fromRows block plan.partition r c) := by
  have hadjoint := Coloring.color_eq (c := plan.partition.adjoint) (v := r)
    (by rw [htabled.adjoint]; exact Pattern.lt_nrow_of_mem_row hc)
  unfold fromRows Compressed.fromRows
  rw [hadjoint]
  simp only [bind, Except.bind]
  cases hsome : plan.partition.adjoint.colorOf r with
  | none => rfl
  | some color =>
      simp only [inRange_eq (Coloring.lt_ncolors hsome), Option.bind_some]
      cases hfound : found.sum? block color with
      | none => rfl
      | some sum =>
          exact entryAt_eq (by rw [hsum color sum hfound]; exact htabled.wellFormed.lt_ncol hc)

/-- A scatter of results into values of the right lengths. -/
theorem scatter_eq
    {recover : Compressed F → Nat → Partition → Nat → Nat → Except Failure (Option F)}
    {q : Recovery F} {values : List (Array F)}
    (hcolors : ∀ item ∈ found, ∀ plan, plans[item.1.block]? = some plan →
      item.1.color < count plan)
    (hrecover : ∀ block plan, plans[block]? = some plan → ∀ r c, c ∈ plan.pattern.row r →
      recover found block plan.partition r c = .ok (q found block plan.partition r c))
    (hvalues : List.Forall₂ (fun plan out => out.size = plan.pattern.nnz) plans values) :
    scatter count recover found plans values = .ok (SparseDiff.scatter q found plans values) := by
  refine mapM_eq_ok_map fun ((plan, out), block) hmem => ?_
  have hget := List.mem_zipIdx_iff_getElem?.1 hmem
  obtain ⟨hplan, hout⟩ := List.getElem?_zip_eq_some.1 hget
  obtain ⟨plan', hplan', hsize⟩ := getElem?_of_forall₂ hvalues hout
  cases hplan.symm.trans hplan'
  have hinside : ∀ item ∈ found, item.1.block = block → item.1.color < count plan := by
    rintro item hitem rfl
    exact hcolors item hitem plan hplan
  simp only [inRange_eq hinside, bind, Except.bind]
  exact overlay_eq (hrecover block plan hplan) hsize

/-- A scatter keeps the lengths of the values. -/
theorem forall₂_size_scatter
    {recover : Recovery F} {values : List (Array F)}
    (h : List.Forall₂ (fun plan out => out.size = plan.pattern.nnz) plans values) :
    List.Forall₂ (fun plan out => out.size = plan.pattern.nnz) plans
      (SparseDiff.scatter recover found plans values) :=
  SparseDiff.forall₂_scatter (R := fun (plan : JacobianPlan) (out : Array F) =>
    out.size = plan.pattern.nnz) (fun _ _ _ hout => (size_overlay ..).trans hout) h

end Scatter

variable {f : Tape F} {m : Memory F} {s : MemorySizes} {xs : List (List F)}

theorem seedEntries_eq
    {patterns : List Pattern} {seed : List (List F)} (h : FitLists patterns seed) :
    seedEntries patterns seed = .ok () := by
  refine inRange_eq fun (p, i) hmem => ?_
  obtain ⟨ys, hys, hlength⟩ :=
    getElem?_of_forall₂_left h (List.mem_zipIdx_iff_getElem?.1 hmem)
  rw [List.getD_eq_getElem?_getD, hys]
  exact hlength.ge

/-- Loading a tangent, or seeding, for every item of a list that has a direction each. -/
theorem same_directions
    {α : Type} {items : List α} {strict plain : α × Nat → Run F Unit} {n : Nat}
    (hn : items.length ≤ n) (hm : m.HasSizes s)
    (h : ∀ item ∈ items, ∀ d < n, ∀ m' : Memory F, m'.HasSizes s →
      Same (strict (item, d)) (plain (item, d)) m' fun _ m'' => m''.HasSizes s) :
    Same (items.zipIdx.forM strict) (items.zipIdx.forM plain) m fun _ m' => m'.HasSizes s := by
  refine same_forM (fun item hitem m' hm' => ?_) hm
  have hget := List.mem_zipIdx_iff_getElem?.1 hitem
  have hlt := (List.getElem?_eq_some_iff.1 hget).1
  exact h item.1 (List.mem_of_getElem? hget) item.2 (by omega) m' hm'

section Evaluate

variable [Zero F] [Add F] [Mul F] [Calculus F]

theorem same_loadValues
    (hf : f.WellFormed) (hm : m.HasSizes s) (hwork : f.full.size ≤ s.work)
    (hfit : FitLists f.inputPatterns xs) (op : String) :
    Same (loadValues f op (f.segmentsAt f.full) xs) (f.loadValues op (f.segmentsAt f.full) xs) m
      fun _ m' => m'.HasSizes s := by
  have hsound := hf.full_sound fun _ => True
  exact (same_loadInputs hf hsound hm hwork hfit).bind fun _ m' hm' =>
    same_forwardSweep hf hsound hm' hwork (Nat.zero_le _) op

theorem same_adjointSensitivities
    (hf : f.WellFormed) (hm : m.HasSizes s) (hwork : f.full.size ≤ s.work)
    {seeds : List (List (List F))} (hseeds : ∀ seed ∈ seeds, FitLists f.outputPatterns seed)
    (hnadj : seeds.length ≤ s.nadj) (op : String) :
    Same (adjointSensitivities f op (f.segmentsAt f.full) seeds)
      (f.adjointSensitivities op (f.segmentsAt f.full) seeds) m fun _ _ => True := by
  refine Same.bind (same_directions hnadj hm fun seed hseed d hd m' hm' => ?_) fun _ m₁ hm₁ => ?_
  · refine (same_clearAdjoint hm' hd).bind fun _ m'' hm'' => ?_
    refine Same.after (gives_ofExcept.2 ⟨seedEntries_eq (hseeds seed hseed), rfl⟩) ?_
    exact same_forM (fun o _ m₃ hm₃ => same_seedAdjoint hm₃ hd o _) hm''
  refine (same_adjointSweep hm₁ hnadj f.config.checkFinite op _).bind fun _ m₂ hm₂ => ?_
  refine (same_mapM (R := fun _ _ => True) (I := Memory.HasSizes s) (fun d hd m₃ hm₃ => ?_)
    hm₂).imp fun _ _ _ => trivial
  refine (same_mapM (R := fun _ _ => True) (I := Memory.HasSizes s) (fun i hi m₄ hm₄ => ?_)
    hm₃).imp fun _ _ h => ⟨trivial, h.2⟩
  have hd' := List.mem_range.1 hd
  exact (same_takeInputAdjoint hf hm₄ hwork (by omega) (List.mem_range.1 hi)).imp
    fun _ _ h => ⟨trivial, h.2⟩

theorem same_evaluate
    (hf : f.WellFormed) (hm : m.WellSized) (xs : List (List F))
    (fwdSeeds adjSeeds : List (List (List F))) :
    Same (evaluate f xs fwdSeeds adjSeeds) (f.evaluate xs fwdSeeds adjSeeds) m
      fun _ _ => True := by
  refine same_get.bind fun _ _ h => ?_
  obtain ⟨rfl, rfl⟩ := h
  refine (same_check _).bind fun _ _ h => ?_
  obtain ⟨hcheck, rfl⟩ := h
  have haccepts := Tape.checkEvaluation_eq_ok_iff.1 hcheck
  have hsound := Tape.layout_sound hf adjSeeds.length
  refine (same_loadInputs hf hsound ⟨hm, rfl⟩ haccepts.work haccepts.fitInputs).bind
    fun _ m₁ hm₁ => ?_
  refine (same_directions haccepts.nfwd hm₁ fun seed hseed d hd m' hm' => ?_).bind
    fun _ m₂ hm₂ => ?_
  · exact Same.after (gives_ofExcept.2 ⟨seedEntries_eq (haccepts.fitFwd seed hseed), rfl⟩)
      (same_loadTangent hm' hd _ _)
  refine (same_ofExcept rfl).bind fun tape _ h => ?_
  obtain ⟨htape, rfl⟩ := h
  rw [Tape.segments_of_sound hf hsound] at htape
  cases htape
  refine (same_forwardSweep hf hsound hm₂ haccepts.work haccepts.nfwd _).bind fun _ m₃ hm₃ => ?_
  refine Same.after (gives_arrays_fwd hm₃ haccepts.nfwd) (same_get.bind fun _ _ h => ?_)
  obtain ⟨rfl, rfl⟩ := h
  have hread : ∀ w : Array F, w.size = m.sizes.work →
      readOutputs f (f.layout adjSeeds.length) w = f.readOutputs (f.layout adjSeeds.length) w :=
    fun w hw => readOutputs_eq hf hsound (hw ▸ haccepts.work)
  refine (same_ofExcept (hread _ hm₃.values)).bind fun outputs _ h => ?_
  obtain ⟨-, rfl⟩ := h
  refine (same_mapM (R := fun _ _ => True) (I := Memory.HasSizes m.sizes) (fun t ht m' hm' => ?_)
    hm₃).bind fun fwd m₄ h => ?_
  · obtain ⟨d, hd⟩ := List.mem_iff_getElem?.1 (List.mem_of_mem_take ht)
    have hsize := hm₃.wellSized.fwd.2 d t (by simpa using hd)
    refine (same_ofExcept (hread t (hsize.trans (congrArg MemorySizes.work hm₃.sizes)))).imp ?_
    rintro _ _ ⟨-, rfl⟩
    exact ⟨trivial, hm'⟩
  split
  · exact same_refl trivial
  · next hsome =>
      have hfull : f.layout adjSeeds.length = f.full := by simp [Tape.layout, hsome]
      have hwork := haccepts.work
      rw [hfull] at hwork ⊢
      exact (same_adjointSensitivities hf h.2 hwork haccepts.fitAdj haccepts.nadj _).bind
        fun _ _ _ => same_refl trivial

end Evaluate

theorem results_of_forall₂
    {length : JacobianPlan → Nat} {dirs : List Direction} {found : Compressed F}
    (h : List.Forall₂ (fun item y => y.1 = item.1 ∧ y.2.size = length item.1.plan) dirs.zipIdx
      found) :
    Results length dirs found := by
  intro y hy
  obtain ⟨d, hd⟩ := List.mem_iff_getElem?.1 hy
  obtain ⟨item, hitem, hfst, hsize⟩ := getElem?_of_forall₂ h hd
  have hmem := List.mem_zipIdx_iff_getElem?.1 (List.mem_of_getElem? hitem)
  rw [hfst]
  exact ⟨List.mem_of_getElem? hmem, hsize⟩

/-- A direction of a block has a color of the plan of the block. -/
theorem color_lt_of_results
    {length count : JacobianPlan → Nat} {plans : List JacobianPlan} {dirs : List Direction}
    {found : Compressed F} (h : Results length dirs found)
    (hdirs : ∀ dir ∈ dirs, plans[dir.block]? = some dir.plan ∧ dir.color < count dir.plan) :
    ∀ item ∈ found, ∀ plan, plans[item.1.block]? = some plan → item.1.color < count plan := by
  intro item hitem plan hplan
  obtain ⟨hsame, hlt⟩ := hdirs item.1 (h item hitem).1
  cases hsame.symm.trans hplan
  exact hlt

/-- What is read at an output has the length of the output. -/
theorem length_readOutput
    [Zero F] {l : Layout} {w : Array F} {o : Nat} {ys : List F}
    (h : f.readOutput l w o = .ok ys) :
    ys.length = f.outputLength o := by
  unfold Tape.readOutput at h
  split at h
  · next hp =>
      obtain ⟨start, -, h⟩ := bind_eq_ok_iff.1 h
      split at h
      · cases h
        simp [Tape.outputLength, hp, slotsFrom]
      · cases h
  · cases h

/-- The plans of a request have the shapes of their blocks, and tables to read them with. -/
def Readable (f : Tape F) (plans : List JacobianPlan) : Prop :=
  ∀ plan ∈ plans, plan.Fits f ∧ plan.Tabled

section Assembly

variable [Zero F] [One F] [Add F] [Mul F] [Calculus F] {plans : List JacobianPlan}
  {dirs : List Direction} {values : List (Array F)}

/-- Values of every block, as many as its pattern has nonzeros. -/
def Lengths (plans : List JacobianPlan) (values : List (Array F)) : Prop :=
  List.Forall₂ (fun plan out => out.size = plan.pattern.nnz) plans values

theorem same_forwardDirections
    (hf : f.WellFormed) (hm : m.HasSizes s) (hwork : (f.layout 0).size ≤ s.work)
    (hfit : FitLists f.inputPatterns xs) (hplans : Readable f plans)
    (hdirs : ∀ dir ∈ dirs, plans[dir.block]? = some dir.plan) (hnfwd : dirs.length ≤ s.nfwd) :
    Same (forwardDirections f (f.segmentsAt (f.layout 0)) xs plans.length dirs)
      (f.forwardDirections (f.segmentsAt (f.layout 0)) xs dirs) m
      fun found m' => Results (fun plan => plan.pattern.nrow) dirs found ∧ m'.HasSizes s := by
  have hsound := Tape.layout_sound hf 0
  have hreadable := fun dir hdir => hplans _ (List.mem_of_getElem? (hdirs dir hdir))
  refine (same_loadInputs hf hsound hm hwork hfit).bind fun _ m₁ hm₁ => ?_
  refine (same_directions hnfwd hm₁ fun dir hdir d hd m' hm' => ?_).bind fun _ m₂ hm₂ => ?_
  · obtain ⟨hfits, htabled⟩ := hreadable dir hdir
    refine Same.after (gives_inRange (List.getElem?_eq_some_iff.1 (hdirs dir hdir)).1) ?_
    refine Same.after (gives_inRange ?_) (same_loadTangent hm' hd _ _)
    rw [htabled.forward, hfits.ncol]
  refine (same_forwardSweep hf hsound hm₂ hwork hnfwd _).bind fun _ m₃ hm₃ => ?_
  refine Same.after (gives_arrays_fwd hm₃ hnfwd) (same_get.bind fun _ _ h => ?_)
  obtain ⟨rfl, rfl⟩ := h
  refine (same_mapM (I := Memory.HasSizes s) (fun (dir, d) hitem m' hm' => ?_) hm₃).imp
    fun _ _ h => ⟨results_of_forall₂ h.1, h.2⟩
  have hget := List.mem_zipIdx_iff_getElem?.1 hitem
  obtain ⟨hlt, -⟩ := List.getElem?_eq_some_iff.1 hget
  obtain ⟨hfits, -⟩ := hreadable dir (List.mem_of_getElem? hget)
  have hsize : (m₃.fwd.getD d #[]).size = s.work := by
    rw [hm₃.wellSized.fwd.size_getD (by rw [hm₃.sizes]; omega), hm₃.sizes]
  refine (same_ofExcept (readOutput_eq hf hsound (by omega) hfits.output)).bind
    fun column _ h => ?_
  obtain ⟨hcolumn, rfl⟩ := h
  refine same_refl (ends_pure.2 ⟨⟨rfl, ?_⟩, hm'⟩)
  rw [hfits.nrow, ← length_readOutput hcolumn]
  rfl

theorem same_adjointDirections
    (hf : f.WellFormed) (hm : m.HasSizes s) (hwork : f.full.size ≤ s.work)
    (hplans : Readable f plans) (hdirs : ∀ dir ∈ dirs, plans[dir.block]? = some dir.plan)
    (hnadj : dirs.length ≤ s.nadj) :
    Same (adjointDirections f (f.segmentsAt f.full) plans.length dirs)
      (f.adjointDirections (f.segmentsAt f.full) dirs) m
      fun found m' => Results (fun plan => plan.pattern.ncol) dirs found ∧ m'.HasSizes s := by
  have hreadable := fun dir hdir => hplans _ (List.mem_of_getElem? (hdirs dir hdir))
  refine (same_directions hnadj hm fun dir hdir d hd m' hm' => ?_).bind fun _ m₁ hm₁ => ?_
  · obtain ⟨hfits, htabled⟩ := hreadable dir hdir
    refine Same.after (gives_inRange (List.getElem?_eq_some_iff.1 (hdirs dir hdir)).1) ?_
    refine Same.after (gives_inRange ?_) ((same_clearAdjoint hm' hd).bind fun _ m'' hm'' => ?_)
    · rw [htabled.adjoint, hfits.nrow]
    · exact same_seedAdjoint hm'' hd _ _
  refine (same_adjointSweep hm₁ hnadj _ _ _).bind fun _ m₂ hm₂ => ?_
  refine (same_mapM (I := Memory.HasSizes s) (fun (dir, d) hitem m' hm' => ?_) hm₂).imp
    fun _ _ h => ⟨results_of_forall₂ h.1, h.2⟩
  have hget := List.mem_zipIdx_iff_getElem?.1 hitem
  obtain ⟨hlt, -⟩ := List.getElem?_eq_some_iff.1 hget
  obtain ⟨hfits, -⟩ := hreadable dir (List.mem_of_getElem? hget)
  refine (same_takeInputAdjoint hf hm' hwork (by omega) hfits.input).bind fun row m'' h => ?_
  exact same_refl (ends_pure.2 ⟨⟨rfl, h.1.trans hfits.ncol.symm⟩, h.2⟩)

theorem selection_eq
    {n size : Nat} {b : Batch} (hb : b ∈ batches n size) :
    selection b n = .ok () := by
  refine inRange_eq ⟨?_, (stop_of_mem_batches hb).2⟩
  obtain ⟨k, hk, rfl⟩ := mem_batches_iff.1 hb
  exact Nat.le_min.2 ⟨Nat.le_add_right .., hk.le⟩

/-- One batch of directions of the plans. -/
theorem forall_select_directions
    {count : JacobianPlan → Nat} {size : Nat} {b : Batch}
    (hb : b ∈ batches (directions count plans).length size) :
    (b.select (directions count plans)).length ≤ size ∧
      ∀ dir ∈ b.select (directions count plans), plans[dir.block]? = some dir.plan ∧
        dir.color < count dir.plan :=
  ⟨(length_select_le ..).trans (stop_of_mem_batches hb).1, fun _ hdir =>
    mem_directions_iff.1 (mem_of_mem_select hdir)⟩

theorem same_forwardBatches
    (hf : f.WellFormed) (hm : m.HasSizes s) (hwork : (f.layout 0).size ≤ s.work)
    (hfit : FitLists f.inputPatterns xs) (hplans : Readable f plans) {size : Nat}
    (hsize : size ≤ s.nfwd) (hvalues : Lengths plans values) :
    Same (forwardBatches f xs plans (directions JacobianPlan.nfwd plans) size values)
      (f.forwardBatches xs plans (directions JacobianPlan.nfwd plans) size values) m
      fun values' m' => Lengths plans values' ∧ m'.HasSizes s := by
  refine (same_ofExcept rfl).bind fun tape _ h => ?_
  obtain ⟨htape, rfl⟩ := h
  rw [Tape.segments_of_sound hf (Tape.layout_sound hf 0)] at htape
  cases htape
  refine same_foldlM (I := fun values' m' => Lengths plans values' ∧ m'.HasSizes s)
    (fun b hb values' m' h => ?_) ⟨hvalues, hm⟩
  obtain ⟨hlength, hdirs⟩ := forall_select_directions hb
  refine Same.after (gives_ofExcept.2 ⟨selection_eq hb, rfl⟩) ?_
  refine (same_forwardDirections hf h.2 hwork hfit hplans (fun dir hdir => (hdirs dir hdir).1)
    (hlength.trans hsize)).bind fun found m'' hfound => ?_
  rw [scatter_eq (q := Compressed.fromColumns) (color_lt_of_results hfound.1 hdirs)
    (fun block plan hplan r c hc => fromColumns_eq (hplans plan (List.mem_of_getElem? hplan)).2 hc
      fun _ _ => hfound.1.size_sum? (fun dir hdir => (hdirs dir hdir).1) hplan) h.1]
  exact same_refl (ends_pure.2 ⟨forall₂_size_scatter h.1, hfound.2⟩)

theorem same_adjointBatches
    (hf : f.WellFormed) (hm : m.HasSizes s) (hwork : f.full.size ≤ s.work)
    (hfit : FitLists f.inputPatterns xs) (hplans : Readable f plans) (op : String) {size : Nat}
    (hsize : size ≤ s.nadj) (hvalues : Lengths plans values) :
    Same (adjointBatches f op xs plans (directions JacobianPlan.nadj plans) size values)
      (f.adjointBatches op xs plans (directions JacobianPlan.nadj plans) size values) m
      fun values' m' => Lengths plans values' ∧ m'.HasSizes s := by
  refine (same_ofExcept rfl).bind fun tape _ h => ?_
  obtain ⟨htape, rfl⟩ := h
  rw [Tape.segments_full hf] at htape
  cases htape
  refine (same_loadValues hf hm hwork hfit op).bind fun _ m₁ hm₁ => ?_
  refine same_foldlM (I := fun values' m' => Lengths plans values' ∧ m'.HasSizes s)
    (fun b hb values' m' h => ?_) ⟨hvalues, hm₁⟩
  obtain ⟨hlength, hdirs⟩ := forall_select_directions hb
  refine Same.after (gives_ofExcept.2 ⟨selection_eq hb, rfl⟩) ?_
  refine (same_adjointDirections hf h.2 hwork hplans (fun dir hdir => (hdirs dir hdir).1)
    (hlength.trans hsize)).bind fun found m'' hfound => ?_
  rw [scatter_eq (q := Compressed.fromRows) (color_lt_of_results hfound.1 hdirs)
    (fun block plan hplan r c hc => fromRows_eq (hplans plan (List.mem_of_getElem? hplan)).2 hc
      fun _ _ => hfound.1.size_sum? (fun dir hdir => (hdirs dir hdir).1) hplan) h.1]
  exact same_refl (ends_pure.2 ⟨forall₂_size_scatter h.1, hfound.2⟩)

theorem same_jacobianValues
    (hf : f.WellFormed) (hm : m.HasSizes s) (htabled : ∀ plan ∈ plans, plan.Tabled)
    (op : String) (xs : List (List F)) :
    Same (jacobianValues f op xs plans) (f.jacobianValues op xs plans) m fun _ _ => True := by
  refine same_get.bind fun _ _ h => ?_
  obtain ⟨rfl, rfl⟩ := h
  refine (same_check _).bind fun _ _ h => ?_
  obtain ⟨hcheck, rfl⟩ := h
  rw [hm.sizes] at hcheck ⊢
  have haccepts := Tape.acceptsBlocks_of_checkJacobians hf hcheck
  have hplans : Readable f plans := fun plan hplan =>
    ⟨haccepts.fits plan hplan, htabled plan hplan⟩
  have hzeros : Lengths plans (plans.map fun plan => zeroValues (F := F) plan.pattern) := by
    unfold Lengths
    rw [List.forall₂_map_right_iff, List.forall₂_same]
    exact fun plan _ => by simp [zeroValues]
  refine (same_forwardBatches hf hm haccepts.work haccepts.fit hplans (Nat.min_le_right ..)
    hzeros).bind fun values m₁ h => ?_
  split
  · exact same_refl trivial
  · next hsome =>
      exact (same_adjointBatches hf h.2 (haccepts.full (by simpa using hsome)) haccepts.fit hplans
        op (Nat.min_le_right ..) h.1).imp fun _ _ _ => trivial

theorem same_jacobianWithPlan
    (hf : f.WellFormed) (hm : m.WellSized) {plan : JacobianPlan} (htabled : plan.Tabled)
    (xs : List (List F)) :
    Same (jacobianWithPlan f xs plan) (f.jacobianWithPlan xs plan) m fun _ _ => True :=
  (same_jacobianValues hf ⟨hm, rfl⟩ (by simpa using htabled) _ xs).bind fun _ _ _ =>
    same_refl trivial

theorem same_jacobianBlocksWithPlans
    (hf : f.WellFormed) (hm : m.WellSized) (htabled : ∀ plan ∈ plans, plan.Tabled)
    (xs : List (List F)) :
    Same (jacobianBlocksWithPlans f xs plans) (f.jacobianBlocksWithPlans xs plans) m
      fun _ _ => True :=
  (same_jacobianValues hf ⟨hm, rfl⟩ htabled _ xs).bind fun _ _ _ => same_refl trivial

end Assembly

end Strict

end SparseDiff
