import SparseDiff.Proofs.Assembly.Batching

/-!
# Checked results

With checking on, everything that a forward sweep finds is finite, or the sweep is refused. So
outputs, forward sensitivities and the entries of a Jacobian that forward sweeps write are finite
whenever a result is returned, over any arithmetic with a finite zero (`Tape.checked_finite`).
A sweep from the end looks at what it takes out of a cell, not at what it leaves at the inputs: the
sensitivities of an adjoint direction are not covered (`Tape.evaluate_infinite_sensitivity`), nor
are the values of a Hessian.
-/

namespace SparseDiff

variable {F : Type}

/-- Every number of every list is finite. -/
def AllFinite [Calculus F] (lists : List (List F)) : Prop :=
  ∀ xs ∈ lists, ∀ x ∈ xs, Calculus.isFinite x = true

namespace Tape

section Outputs

variable [Zero F] [Calculus F] {f : Tape F} {l : Layout}

/-- An output is kept until it is read, so what is read there has passed the check. -/
theorem isFinite_of_mem_outputOf
    (hf : f.WellFormed) {lists : List (List F)} {v : Array F}
    (hholds : f.Holds l (· ∈ f.outputs) f.nIn v
      (writeLists l 0 lists (Array.replicate l.size 0)))
    (hfound : Everywhere f.elements fun p k => Calculus.isFinite (f.found l lists v p k) = true)
    {o : Nat} (ho : o < f.nOut) {x : F} (hx : x ∈ f.outputOf v o) :
    Calculus.isFinite x = true := by
  obtain ⟨k, hk, rfl⟩ := List.mem_map.1 hx
  obtain ⟨e, he, hnnz⟩ := hf.element_of_output ho
  have hmem := hf.getD_mem_outputs ho
  have hlt : k < e.nnz := by
    rw [hnnz]
    exact List.mem_range.1 hk
  have hfinite : Calculus.isFinite (f.found l lists v (f.outputs.getD o 0) k) = true :=
    hfound _ e he k hlt
  rwa [found_eq_of_holds hholds (fun _ => .inl hmem) he hlt] at hfinite

variable [Add F] [Mul F]

/-- What a sweep that has passed its check leaves at the outputs is finite. -/
theorem allFinite_of_passes
    (hf : f.WellFormed) {nadj : Nat} {xs : List (List F)} (hfit : FitLists f.inputPatterns xs)
    {us : List (Nat → Nat → F)}
    (hpassed : Everywhere f.elements (f.Passes (f.layout nadj) xs us)) :
    AllFinite ((List.range f.nOut).map (f.outputOf (f.valueArray xs))) ∧
      ∀ u ∈ us, AllFinite ((List.range f.nOut).map (f.outputOf (f.tangentArray xs u))) := by
  have hsound := layout_sound hf nadj
  obtain ⟨hvalues, htangents⟩ := everywhere_passes_iff.1 hpassed
  have hholds := holds_writeLists_values hf hsound hfit
    (w := Array.replicate (f.layout nadj).size 0) (by simp)
  have hholds' := fun u => holds_writeLists_tangents hf hsound xs u
    (w := Array.replicate (f.layout nadj).size 0) (by simp)
  constructor
  · rintro _ hlist x hx
    obtain ⟨o, ho, rfl⟩ := List.mem_map.1 hlist
    exact isFinite_of_mem_outputOf hf hholds hvalues (List.mem_range.1 ho) hx
  · rintro u hu _ hlist x hx
    obtain ⟨o, ho, rfl⟩ := List.mem_map.1 hlist
    exact isFinite_of_mem_outputOf hf (hholds' u) (htangents u hu) (List.mem_range.1 ho) hx

end Outputs

end Tape

section Adjoint

variable [Zero F]

theorem Cell.sized_adjointAll
    [Add F] [Mul F] [Calculus F] {count n : Nat} {arrays : Array (Array F)}
    (h : Sized count n arrays) (nadj : Nat) (w : Array F) (s : Nat) (c : Cell F) :
    Sized count n (c.adjointAll nadj w s arrays) := by
  unfold adjointAll
  split
  · exact h.updateFirst _ fun _ _ => by simp
  · exact h.updateFirst _ fun _ _ => by simp

/-- The memory has the sizes and the values that it had before. -/
structure Memory.Keeps (before m : Memory F) : Prop where
  wellSized : m.WellSized
  sizes : m.sizes = before.sizes
  values : m.values = before.values

namespace Tape

variable {f : Tape F} {m : Memory F}

/-- A sweep from the end whose steps keep the values keeps them. -/
theorem ends_backward
    (hf : f.WellFormed) (hm : m.WellSized) (hwork : f.full.size ≤ m.sizes.work)
    {body : NodeId → Nat → Nat → Cell F → Run F Unit}
    (hbody : ∀ (node : NodeId) (k s : Nat) (c : Cell F) (m' : Memory F), m'.WellSized →
      s < m'.values.size → (∀ r ∈ c.slots, r < m'.values.size) →
        Run.Ends (body node k s c) m' (fun _ m'' => m'.Keeps m'') Failure.IsNumeric) :
    Run.Ends ((f.segmentsAt f.full).reverse.forM fun s =>
        s.numbered.forM fun (c, k) => body s.node k (s.start + k) c) m
      (fun _ m' => m.Keeps m') Failure.IsNumeric := by
  refine Run.Ends.imp (ends_visits (E := Failure.IsNumeric)
    (I := fun visits m' => m.Keeps m' ∧ ∀ v ∈ visits, v ∈ f.visits)
    (fun node k s c visits m' hI => ?_) (f.segmentsAt f.full).reverse m
    ⟨⟨hm, rfl, rfl⟩, fun _ hv => hv⟩) (fun _ m' h => h.1) fun _ he => he
  obtain ⟨hkeeps, hvisits⟩ := hI
  obtain ⟨hs, hslots⟩ := visits_inside hf (s, c) (hvisits _ (List.mem_cons_self ..))
  have hroom : f.full.size ≤ m'.values.size := by
    rw [hkeeps.values, hm.values]
    exact hwork
  refine (hbody node k s c m' hkeeps.wellSized (by omega) fun r hr => ?_).imp
    (fun _ m'' h => ?_) fun _ he => he
  · have := hslots r hr
    omega
  · exact ⟨⟨h.wellSized, h.sizes.trans hkeeps.sizes, h.values.trans hkeeps.values⟩,
      fun v hv => hvisits v (List.mem_cons_of_mem _ hv)⟩

variable [Add F] [Mul F] [Calculus F]

/-- An adjoint sweep keeps the values, and fails at most for a number that is not finite. -/
theorem ends_adjointSweep
    (hf : f.WellFormed) (hm : m.WellSized) (hwork : f.full.size ≤ m.sizes.work) (check : Bool)
    (op : String) (nadj : Nat) :
    Run.Ends (adjointSweep check op nadj (f.segmentsAt f.full)) m (fun _ m' => m.Keeps m')
      Failure.IsNumeric := by
  refine ends_backward hf hm hwork fun node k s c m' hm' hs hslots => ?_
  refine Run.Ends.imp (Cell.guarded_adjoint hs hslots check op nadj node k) (fun _ _ h => ?_)
    fun _ he => he.2.2
  obtain ⟨rfl, -⟩ := h
  exact ⟨⟨hm'.values, hm'.fwd, Cell.sized_adjointAll hm'.adj .., hm'.adjFwd⟩, rfl, rfl⟩

/-- So does a second-order sweep. -/
theorem ends_secondOrderSweep
    (hf : f.WellFormed) (hm : m.WellSized) (hwork : f.full.size ≤ m.sizes.work) (check : Bool)
    (op : String) (nfwd : Nat) :
    Run.Ends (secondOrderSweep check op nfwd (f.segmentsAt f.full)) m (fun _ m' => m.Keeps m')
      Failure.IsNumeric := by
  refine ends_backward hf hm hwork fun node k s c m' hm' hs hslots => ?_
  refine Run.Ends.imp (Cell.guarded_secondOrder hs hslots check op nfwd node k) (fun _ _ h => ?_)
    fun _ he => he.2.2
  obtain ⟨rfl, -⟩ := h
  refine ⟨Cell.wellSized_secondOrderStep hm' nfwd s c, ?_, ?_⟩
  · rw [Cell.secondOrderStep_same]
  · rw [Cell.secondOrderStep_same]

theorem ends_adjointSensitivities
    (hf : f.WellFormed) (hm : m.WellSized) (hwork : f.full.size ≤ m.sizes.work)
    {seeds : List (List (List F))} (hnadj : seeds.length ≤ m.sizes.nadj) (op : String) :
    Run.Ends (f.adjointSensitivities op (f.segmentsAt f.full) seeds) m (fun _ _ => True)
      Failure.IsNumeric := by
  have hinside : ∀ seed ∈ seeds, ∀ o ∈ List.range f.nOut, o < f.nOut := fun _ _ _ ho =>
    List.mem_range.1 ho
  have hseeded := gives_withSeeds hf hinside seedOf hm hwork
  have hsized := wellSized_withSeeds (f := f) (fun _ => List.range f.nOut) seedOf seeds hm
  refine Run.ends_bind.2 ((Run.ends_iff_of_gives hseeded).2 (Run.ends_bind.2 ?_))
  refine (ends_adjointSweep hf hsized hwork _ op _).imp (fun _ m' hkeeps => ?_) fun _ he => he
  obtain ⟨m'', htaken⟩ := gives_takeAll hf hkeeps.wellSized
    (by rw [hkeeps.sizes]; exact hwork) (n := seeds.length) (by rw [hkeeps.sizes]; exact hnadj)
  exact (Run.ends_iff_of_gives htaken).2 trivial

/-- An accepted evaluation ends, with checking on with finite outputs and sensitivities. -/
theorem ends_checkedEvaluate
    (hf : f.WellFormed) (hm : m.WellSized) {xs : List (List F)}
    {fwdSeeds adjSeeds : List (List (List F))}
    (hcheck : f.checkEvaluation "evaluate" m.sizes xs fwdSeeds adjSeeds = .ok ()) :
    Run.Ends (f.evaluate xs fwdSeeds adjSeeds) m
      (fun e _ => f.config.checkFinite = true →
        AllFinite e.outputs ∧ ∀ sensitivities ∈ e.fwd, AllFinite sensitivities)
      Failure.IsNumeric := by
  have haccepts := checkEvaluation_eq_ok_iff.1 hcheck
  refine (ends_evaluate hf hm hcheck (Q := fun _ _ => True) (E := Failure.IsNumeric)
    (fun _ p e k _ => ⟨_, _, _, rfl⟩) fun _ => ?_).imp (fun e _ h hon => ?_) fun _ he => he
  · by_cases hnone : adjSeeds.length = 0
    · rw [if_pos hnone]
      trivial
    · have hlayout : f.layout adjSeeds.length = f.full := by simp [layout, hnone]
      have hreached := reached_afterForward hf (layout_sound hf adjSeeds.length) hm haccepts.work
        (show (fwdSeeds.map seedOf).length ≤ m.sizes.nfwd by
          rw [List.length_map]
          exact haccepts.nfwd) haccepts.fitInputs
      have hwork := haccepts.work
      rw [hlayout] at hwork
      rw [if_neg hnone, hlayout]
      rw [hlayout] at hreached
      exact ends_adjointSensitivities hf hreached.wellSized (by rw [hreached.sizes]; exact hwork)
        (by rw [hreached.sizes]; exact haccepts.nadj) "evaluate"
  · obtain ⟨hpassed, houtputs, hfwd, -⟩ := h
    obtain ⟨hvalues, htangents⟩ := allFinite_of_passes hf haccepts.fitInputs (hpassed hon)
    rw [houtputs, hfwd]
    exact ⟨hvalues, List.forall_mem_map.2 fun seed hseed =>
      htangents _ (List.mem_map_of_mem hseed)⟩

/-- An evaluation answers, with finite outputs and forward sensitivities. -/
theorem answers_evaluate
    (hf : f.WellFormed) (hon : f.config.checkFinite = true) (hm : m.WellSized)
    (xs : List (List F)) (fwdSeeds adjSeeds : List (List (List F))) :
    Run.Answers (f.checkEvaluation "evaluate" m.sizes xs fwdSeeds adjSeeds)
      (f.evaluate xs fwdSeeds adjSeeds) m
      fun e => AllFinite e.outputs ∧ ∀ sensitivities ∈ e.fwd, AllFinite sensitivities where
  refused _ he := congrArg Prod.fst (run_evaluate_of_check_error he)
  ends hcheck := (ends_checkedEvaluate hf hm hcheck).imp (fun _ _ h => h hon) fun _ he => he

theorem ends_adjointDirections
    [One F] (hf : f.WellFormed) (hm : m.WellSized) (hwork : f.full.size ≤ m.sizes.work)
    {dirs : List Direction}
    (hdirs : ∀ dir ∈ dirs, dir.plan.output < f.nOut ∧ dir.plan.input < f.nIn) :
    Run.Ends (f.adjointDirections (f.segmentsAt f.full) dirs) m (fun _ m' => m.Keeps m')
      Failure.IsNumeric := by
  have hseeded := gives_seedDirections hf hm hwork fun dir hdir => (hdirs dir hdir).1
  have hsized := wellSized_withSeeds (f := f) (fun dir : Direction => [dir.plan.output])
    Direction.adjointSeed dirs hm
  refine Run.ends_bind.2 ((Run.ends_iff_of_gives hseeded).2 (Run.ends_bind.2 ?_))
  refine (ends_adjointSweep hf hsized hwork _ jacobianOp _).imp (fun _ m' hkeeps => ?_)
    fun _ he => he
  obtain ⟨m'', htaken, hsized'', hsizes'', hvalues''⟩ := gives_takeDirections hf hkeeps.wellSized
    (by rw [hkeeps.sizes]; exact hwork) fun dir hdir => (hdirs dir hdir).2
  exact (Run.ends_iff_of_gives htaken).2
    ⟨hsized'', hsizes''.trans hkeeps.sizes, hvalues''.trans hkeeps.values⟩

end Tape

end Adjoint

/-- What holds of the values of every block is kept by a scatter that keeps it for each. -/
theorem forall₂_scatter
    {recover : Recovery F} {found : Compressed F} {plans : List JacobianPlan}
    {R : JacobianPlan → Array F → Prop} {values : List (Array F)}
    (hkeep : ∀ block plan out, R plan out →
      R plan (overlay plan.pattern (recover found block plan.partition) out))
    (h : List.Forall₂ R plans values) :
    List.Forall₂ R plans (scatter recover found plans values) := by
  rw [List.forall₂_iff_get] at h ⊢
  obtain ⟨hlength, hget⟩ := h
  refine ⟨by simp [scatter, hlength], fun k hk hk' => ?_⟩
  have hkeep' := hkeep k _ _ (hget k hk (by omega))
  simpa [scatter] using hkeep'

section Columns

variable [Calculus F]

namespace JacobianPlan

/-- The entries in rows without an adjoint color are there and finite. -/
structure FiniteColumns (plan : JacobianPlan) (values : Array F) : Prop where
  size : values.size = plan.pattern.nnz
  isFinite : ∀ k r c : Nat, plan.pattern.entries[k]? = some (r, c) →
    plan.partition.adjoint.colorOf r = none → ∃ x, values[k]? = some x ∧ Calculus.isFinite x = true

variable {plan : JacobianPlan} {values : Array F} {found : Compressed F}

theorem finiteColumns_zeroValues
    [Zero F] (hzero : Calculus.isFinite (0 : F) = true) (plan : JacobianPlan) :
    plan.FiniteColumns (zeroValues (F := F) plan.pattern) := by
  refine ⟨by simp [zeroValues], fun k r c hk _ => ⟨0, ?_, hzero⟩⟩
  have hlt := (List.getElem?_eq_some_iff.1 hk).1
  rw [Pattern.length_entries] at hlt
  simp [zeroValues, hlt]

/-- Finite columns put finite numbers in place of finite numbers. -/
theorem FiniteColumns.overlay_fromColumns
    (h : plan.FiniteColumns values)
    (hfound : ∀ item ∈ found, ∀ x ∈ item.2, Calculus.isFinite x = true) (block : Nat) :
    plan.FiniteColumns
      (overlay plan.pattern (found.fromColumns block plan.partition) values) := by
  refine ⟨by rw [size_overlay, h.size], fun k r c hk hrow => ?_⟩
  rw [getElem?_overlay hk h.size]
  cases hpick : found.fromColumns block plan.partition r c with
  | none => exact h.isFinite k r c hk hrow
  | some x =>
      refine ⟨x, Option.some_or, ?_⟩
      unfold Compressed.fromColumns at hpick
      rw [hrow, Option.isSome_none, if_neg Bool.false_ne_true] at hpick
      obtain ⟨color, -, hpick⟩ := Option.bind_eq_some_iff.1 hpick
      obtain ⟨column, hcolumn, hx⟩ := Option.bind_eq_some_iff.1 hpick
      obtain ⟨item, hitem, rfl⟩ := Option.map_eq_some_iff.1 hcolumn
      exact hfound item (List.mem_of_find?_eq_some hitem) x (Array.mem_of_getElem? hx)

/-- Rows are put in rows with an adjoint color only. -/
theorem FiniteColumns.overlay_fromRows
    (h : plan.FiniteColumns values) (found : Compressed F) (block : Nat) :
    plan.FiniteColumns (overlay plan.pattern (found.fromRows block plan.partition) values) := by
  refine ⟨by rw [size_overlay, h.size], fun k r c hk hrow => ?_⟩
  have hpick : found.fromRows block plan.partition r c = none := by
    simp [Compressed.fromRows, hrow]
  rw [getElem?_overlay hk h.size, hpick]
  exact h.isFinite k r c hk hrow

end JacobianPlan

end Columns

namespace Tape

section Batches

variable [Zero F] [One F] [Add F] [Mul F] [Calculus F] {f : Tape F} {m : Memory F}
  {xs : List (List F)} {plans : List JacobianPlan}

/-- With checking on and a finite zero, the entries that forward sweeps write are finite. -/
def ChecksColumns (f : Tape F) (plan : JacobianPlan) (values : Array F) : Prop :=
  f.config.checkFinite = true → Calculus.isFinite (0 : F) = true → plan.FiniteColumns values

theorem ends_forwardBatches
    (hf : f.WellFormed) (hm : m.WellSized)
    (hwork : (f.layout 0).size ≤ m.sizes.work) (hfit : FitLists f.inputPatterns xs)
    {dirs : List Direction} (hdirs : ∀ dir ∈ dirs, dir.plan.output < f.nOut) {size : Nat}
    (hsize : size ≤ m.sizes.nfwd) {values : List (Array F)}
    (hvalues : List.Forall₂ f.ChecksColumns plans values) :
    Run.Ends (f.forwardBatches xs plans dirs size values) m
      (fun values' m' => List.Forall₂ f.ChecksColumns plans values' ∧ m'.WellSized ∧
        m'.sizes = m.sizes) Failure.IsNumeric := by
  refine Run.ends_bind.2 ((Run.ends_ofExcept_ok (segments_of_sound hf (layout_sound hf 0))).2 ?_)
  refine (Run.ends_foldlM (I := fun steps values' m' =>
      (∀ b ∈ steps, b ∈ batches dirs.length size) ∧
        List.Forall₂ f.ChecksColumns plans values' ∧ m'.WellSized ∧ m'.sizes = m.sizes)
    (fun b steps values' m' hI => ?_) (batches dirs.length size) values m
    ⟨fun _ h => h, hvalues, hm, rfl⟩).imp (fun _ _ h => h.2) fun _ he => he
  obtain ⟨hsteps, hvalues', hsized, hsizes⟩ := hI
  have hlength := length_select_le b dirs
  have hstop := (stop_of_mem_batches (hsteps b (List.mem_cons_self ..))).1
  have hinside : ∀ dir ∈ b.select dirs, dir.plan.output < f.nOut := fun dir hdir =>
    hdirs dir (mem_of_mem_select hdir)
  refine Run.ends_bind.2 (((guarded_forwardDirections hf hsized (by rw [hsizes]; exact hwork) hfit
    (by rw [hsizes]; omega) hinside).ends).imp (fun found m'' h => ?_) fun _ he => he)
  obtain ⟨⟨rfl, hsized'', hsizes''⟩, hpassed⟩ := h
  refine ⟨fun b' hb' => hsteps b' (List.mem_cons_of_mem _ hb'),
    forall₂_scatter (fun block plan out h hon hzero => (h hon hzero).overlay_fromColumns ?_ block)
      hvalues', hsized'', hsizes''.trans hsizes⟩
  rintro _ hitem x hx
  obtain ⟨dir, hdir, rfl⟩ := List.mem_map.1 hitem
  refine (allFinite_of_passes hf hfit (hpassed hon)).2 dir.tangentSeed
    (List.mem_map_of_mem hdir) _
    (List.mem_map_of_mem (List.mem_range.2 (hinside dir hdir))) x ?_
  simpa [columnSum] using hx

theorem ends_adjointBatches
    (hf : f.WellFormed) (hm : m.WellSized)
    (hwork : f.full.size ≤ m.sizes.work) (hfit : FitLists f.inputPatterns xs) (op : String)
    {dirs : List Direction}
    (hdirs : ∀ dir ∈ dirs, dir.plan.output < f.nOut ∧ dir.plan.input < f.nIn) (size : Nat)
    {values : List (Array F)}
    (hvalues : List.Forall₂ f.ChecksColumns plans values) :
    Run.Ends (f.adjointBatches op xs plans dirs size values) m
      (fun values' _ => List.Forall₂ f.ChecksColumns plans values') Failure.IsNumeric := by
  refine Run.ends_bind.2 ((Run.ends_ofExcept_ok (segments_full hf)).2 (Run.ends_bind.2 ?_))
  refine (guarded_loadValues hf hm hwork hfit op).ends.imp (fun _ m₀ h => ?_) fun _ he => he
  obtain ⟨⟨hsized₀, hsizes₀, -⟩, -⟩ := h
  refine (Run.ends_foldlM (I := fun _ values' m' =>
      List.Forall₂ f.ChecksColumns plans values' ∧ m₀.Keeps m')
    (fun b steps values' m' hI => ?_) (batches dirs.length size) values m₀
    ⟨hvalues, hsized₀, rfl, rfl⟩).imp (fun _ _ h => h.1) fun _ he => he
  obtain ⟨hvalues', hkeeps⟩ := hI
  refine Run.ends_bind.2 ((ends_adjointDirections hf hkeeps.wellSized
    (by rw [hkeeps.sizes, hsizes₀]; exact hwork)
    fun dir hdir => hdirs dir (mem_of_mem_select hdir)).imp (fun found m'' h => ?_) fun _ he => he)
  exact ⟨forall₂_scatter (fun block plan out hout hon hzero =>
      (hout hon hzero).overlay_fromRows found block) hvalues',
    h.wellSized, h.sizes.trans hkeeps.sizes, h.values.trans hkeeps.values⟩

/-- An accepted assembly ends with entries that are finite where forward sweeps write them. -/
theorem ends_jacobianValues
    (hf : f.WellFormed) (hm : m.WellSized) {op : String}
    (hcheck : f.checkJacobians op m.sizes xs plans = .ok ()) :
    Run.Ends (f.jacobianValues op xs plans) m
      (fun values _ => List.Forall₂ f.ChecksColumns plans values) Failure.IsNumeric := by
  have haccepts := acceptsBlocks_of_checkJacobians hf hcheck
  have hzeros : List.Forall₂ f.ChecksColumns plans
      (plans.map fun plan => zeroValues (F := F) plan.pattern) := by
    rw [List.forall₂_map_right_iff, List.forall₂_same]
    exact fun plan _ _ hzero => JacobianPlan.finiteColumns_zeroValues hzero plan
  refine Run.ends_bind.2 (Run.ends_get.2 (Run.ends_bind.2 ((Run.ends_check_ok hcheck).2 ?_)))
  refine Run.ends_bind.2 ((ends_forwardBatches hf hm haccepts.work haccepts.fit
    (fun _ hdir => (haccepts.range_of_mem_directions hdir).1) (Nat.min_le_right ..) hzeros).imp
      (fun values m₁ h => ?_) fun _ he => he)
  obtain ⟨hvalues, hsized₁, hsizes₁⟩ := h
  split
  · exact hvalues
  · next hsome =>
      exact ends_adjointBatches hf hsized₁
        (by rw [hsizes₁]; exact haccepts.full (by simpa using hsome)) haccepts.fit op
        (fun _ => haccepts.range_of_mem_directions) _ hvalues

/-- An assembly answers, with finite entries where forward sweeps write them. -/
theorem answers_jacobianValues
    (hf : f.WellFormed) (hon : f.config.checkFinite = true)
    (hzero : Calculus.isFinite (0 : F) = true) (hm : m.WellSized) (op : String)
    (xs : List (List F)) (plans : List JacobianPlan) :
    Run.Answers (f.checkJacobians op m.sizes xs plans) (f.jacobianValues op xs plans) m
      (List.Forall₂ JacobianPlan.FiniteColumns plans) where
  refused _ he := jacobianValues_of_check_error he
  ends hcheck := (ends_jacobianValues hf hm hcheck).imp
    (fun _ _ h => h.imp fun _ _ hout => hout hon hzero) fun _ he => he

theorem ends_hessianBatch
    (hf : f.WellFormed) (hm : m.WellSized) {plan : HessianPlan} (hfits : plan.Fits f)
    (haccepts : f.AcceptsHessian m.sizes xs plan) {b : Batch}
    (hsize : b.stop - b.start ≤ m.sizes.nfwd) (values : Array F) :
    Run.Ends (f.hessianBatch (f.segmentsAt f.full) xs plan b values) m
      (fun values' m' => values'.size = values.size ∧ m'.WellSized ∧ m'.sizes = m.sizes)
      Failure.IsNumeric := by
  have hlength : (b.members.map (colorTangent (F := F) plan.input plan.coloring)).length ≤
      m.sizes.nfwd := by
    rwa [List.length_map, Batch.length_members]
  refine Run.ends_bind.2 (Run.Ends.imp (ends_hessianProducts hf hm haccepts.work haccepts.fit
    hfits.output hlength (Q := fun _ m' => m'.WellSized ∧ m'.sizes = m.sizes)
    (fun _ _ _ herr => herr) fun _ m₁ hreached => ?_)
    (fun products m' h => ⟨size_overlay .., h⟩) fun _ he => he)
  have hsized := hreached.wellSized
  have hsizes : m₁.sizes = m.sizes := hreached.sizes
  have hseeded : Memory.WellSized
      { m₁ with adj := m₁.adj.modify 0 (f.seededArray [plan.output] fun _ _ => 1) } :=
    ⟨hsized.values, hsized.fwd, hsized.adj.modify 0 fun w => by simp, hsized.adjFwd⟩
  refine Run.ends_bind.2 ((ends_secondOrderSweep hf hseeded (hsizes ▸ haccepts.work) _ hessianOp
    _).imp (fun _ m₂ hkeeps => ?_) fun _ he => he)
  have hsizes₂ : m₂.sizes = m.sizes := hkeeps.sizes.trans hsizes
  obtain ⟨m₃, htaken, hsized₃, hsizes₃⟩ := gives_takeTangents hf hkeeps.wellSized
    (hsizes₂ ▸ haccepts.work) hfits.input
    (b.members.map (colorTangent (F := F) plan.input plan.coloring)).length
  exact (Run.ends_iff_of_gives htaken).2 ⟨hsized₃, hsizes₃.trans hsizes₂⟩

/-- The assembly of a Hessian answers, with a value for every entry of its pattern. -/
theorem answers_hessianWithPlan
    (hf : f.WellFormed) (hm : m.WellSized) (xs : List (List F)) (plan : HessianPlan) :
    Run.Answers (f.checkHessian hessianOp m.sizes xs plan) (f.hessianWithPlan xs plan) m
      fun hess => hess.pattern = plan.pattern ∧ hess.values.size = plan.pattern.nnz where
  refused _ he := hessianWithPlan_of_check_error he
  ends hcheck := by
    have haccepts := acceptsHessian_of_checkHessian hcheck
    obtain ⟨_, hplan, -⟩ := bind_eq_ok_iff.1 hcheck
    refine Run.ends_bind.2 (Run.ends_get.2 (Run.ends_bind.2 ((Run.ends_check_ok hcheck).2 ?_)))
    refine Run.ends_bind.2 ((Run.ends_ofExcept_ok (segments_full hf)).2 (Run.ends_bind.2 ?_))
    refine (Run.ends_foldlM (I := fun steps values m' =>
        (∀ b ∈ steps, b ∈ batches plan.coloring.ncolors (min f.config.maxDirections m.sizes.nfwd)) ∧
          values.size = plan.pattern.nnz ∧ m'.WellSized ∧ m'.sizes = m.sizes)
      (fun b steps values m' hI => ?_) _ (zeroValues plan.pattern) m
      ⟨fun _ hb => hb, by simp [zeroValues], hm, rfl⟩).imp
        (fun values _ h => ⟨rfl, h.2.1⟩) fun _ he => he
    obtain ⟨hsteps, hvalues, hsized, hsizes⟩ := hI
    have hstop := (stop_of_mem_batches (hsteps b (List.mem_cons_self ..))).1
    exact (ends_hessianBatch hf hsized (fits_of_checkHessianPlan hplan) (hsizes ▸ haccepts)
      (by rw [hsizes]; omega) values).imp
        (fun _ _ h => ⟨fun b' hb' => hsteps b' (List.mem_cons_of_mem _ hb'), h.1.trans hvalues,
          h.2.1, h.2.2.trans hsizes⟩) fun _ he => he

end Batches

section Compiled

variable [Zero F] [One F] [Add F] [Sub F] [Neg F] [Mul F] [Div F] [Elementary F] [ElementText F]

/--
With checking on, outputs, forward sensitivities and the entries of Jacobians that forward
sweeps write are finite in every result, and after its check a request is refused for a number
that is not finite only. Nothing is said of what backward sweeps leave at the inputs, so of a
Hessian only that it has a value for every entry.
-/
theorem checked_finite
    {g : Graph F} {inputs outputs : List NodeId} {config : Config} {f : Tape F}
    (hbare : g.BareLeaves) (hcompile : compile g inputs outputs config = .ok f)
    (hon : config.checkFinite = true) (hzero : Calculus.isFinite (0 : F) = true) {m : Memory F}
    (hm : m.WellSized) (xs : List (List F)) :
    (∀ fwdSeeds adjSeeds, Run.Answers
      (f.checkEvaluation "evaluate" m.sizes xs fwdSeeds adjSeeds)
      (f.evaluate xs fwdSeeds adjSeeds) m
      fun e => AllFinite e.outputs ∧ ∀ sensitivities ∈ e.fwd, AllFinite sensitivities) ∧
    (∀ plan, Run.Answers (f.checkJacobians jacobianOp m.sizes xs [plan])
      (f.jacobianWithPlan xs plan) m fun jac => plan.FiniteColumns jac.values) ∧
    (∀ plans, Run.Answers (f.checkJacobians "jacobian_blocks" m.sizes xs plans)
      (f.jacobianBlocksWithPlans xs plans) m
      (List.Forall₂ (fun plan jac => plan.FiniteColumns jac.values) plans)) ∧
    (∀ plan, Run.Answers (f.checkHessian hessianOp m.sizes xs plan) (f.hessianWithPlan xs plan) m
      fun hess => hess.pattern = plan.pattern ∧ hess.values.size = plan.pattern.nnz) := by
  obtain ⟨order, h⟩ := compiled_of_compile hbare hcompile
  have hf := h.wellFormed
  have hon' : f.config.checkFinite = true := by
    rw [h.config]
    exact hon
  refine ⟨answers_evaluate hf hon' hm xs, ?_, ?_, answers_hessianWithPlan hf hm xs⟩
  · intro plan
    refine (answers_jacobianValues hf hon' hzero hm jacobianOp xs [plan]).map
      fun values hvalues => ?_
    obtain ⟨out, _, hout, hnil, rfl⟩ := List.forall₂_cons_left_iff.1 hvalues
    exact hout
  · intro plans
    refine (answers_jacobianValues hf hon' hzero hm "jacobian_blocks" xs plans).map
      fun values hvalues => ?_
    induction hvalues with
    | nil => exact .nil
    | cons hout _ ih => exact .cons hout ih

end Compiled

/-- The square root of a symbol. -/
def rootGraph : Graph Float :=
  ⟨#[⟨.symbolic "x", [], ⟨1, #[[0]]⟩⟩, ⟨.unary .sqrt, [0], ⟨1, #[[0]]⟩⟩]⟩

/-- Its tape, with checking on. -/
def root : Tape Float :=
  ⟨rootGraph, #[⟨0, .input 0 [], 1⟩, ⟨1, .unary .sqrt ⟨0, .same⟩, 1⟩], [1], [⟨1, #[[0]]⟩],
    [⟨1, #[[0]]⟩], ⟨#[0, 1], 2⟩, ⟨#[0, 1], 2⟩, {}⟩

theorem compile_root :
    compile rootGraph [0] [1] {} = .ok root := by
  cbv

theorem bareLeaves_rootGraph :
    rootGraph.BareLeaves := by
  simp [Graph.BareLeaves, rootGraph, NodeKind.isSymbolic]

theorem checked_finite_root :
    (∃ e, (root.evaluate [[4]] [[[1]]] [[[1]]]).alone (root.memory 1 1) = .ok e ∧
      AllFinite e.outputs ∧ ∀ sensitivities ∈ e.fwd, AllFinite sensitivities) ∧
    ∃ jac, (root.jacobianWithPlan [[4]] ⟨0, 0, ⟨1, #[[0]]⟩, ⟨⟨#[some 0]⟩, ⟨#[none]⟩⟩⟩).alone
        (root.memory 1 1) = .ok jac ∧
      JacobianPlan.FiniteColumns ⟨0, 0, ⟨1, #[[0]]⟩, ⟨⟨#[some 0]⟩, ⟨#[none]⟩⟩⟩ jac.values := by
  obtain ⟨hevaluate, hjacobian, -⟩ := checked_finite bareLeaves_rootGraph compile_root rfl
    (by decide +kernel) (Memory.wellSized_new (root.requiredMemory 1 1)) [[4]]
  obtain ⟨e, he⟩ := exists_eq_ok_of_isOk (x := (root.evaluate [[4]] [[[1]]] [[[1]]]).alone
    (root.memory 1 1)) (by decide +kernel)
  obtain ⟨jac, hjac⟩ := exists_eq_ok_of_isOk (x := (root.jacobianWithPlan [[4]]
    ⟨0, 0, ⟨1, #[[0]]⟩, ⟨⟨#[some 0]⟩, ⟨#[none]⟩⟩⟩).alone (root.memory 1 1)) (by decide +kernel)
  exact ⟨⟨e, he, (hevaluate _ _).of_eq_ok (by cbv) he⟩,
    ⟨jac, hjac, (hjacobian _).of_eq_ok (by cbv) hjac⟩⟩

/-- The derivative of the square root at zero is infinite, and it is returned. -/
theorem evaluate_infinite_sensitivity :
    compile rootGraph [0] [1] {} = .ok root ∧ root.config.checkFinite = true ∧
      ((root.evaluate [[0]] [] [[[1]]]).alone (root.memory 0 1)).map
        (fun e => e.adj.map fun lists => lists.map fun xs => xs.map Float.isFinite) =
          .ok [[[false]]] :=
  ⟨compile_root, rfl, by decide +kernel⟩

end Tape

end SparseDiff
