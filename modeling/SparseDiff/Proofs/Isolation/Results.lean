import SparseDiff.Proofs.Checked.Results
import SparseDiff.Proofs.Isolation.Shape
import SparseDiff.Proofs.Isolation.Sweeps

/-!
# Nothing is left behind

A memory is reused from call to call and is never reset as a whole. Yet every number that a call
reads was written by the call: what an earlier one has left, complete or not, does not show in any
result (`Tape.results_forget_memory`). A batch of a Jacobian or a Hessian is such a call too, so
the batches of one assembly do not see each other either.
-/

namespace SparseDiff

namespace Tape

variable {F : Type} [Zero F] [Add F] {f : Tape F} {m m' : Memory F} {nfwd : Nat}

/-- Seeding clears an array first, so seeded memories with the same values agree. -/
theorem agree_withSeeds
    {α : Type} {os : α → List Nat} {v : α → Nat → Nat → F} {items : List α}
    (hm : m.Holding f.full nfwd items.length) (hm' : m'.Holding f.full nfwd items.length)
    (hvalues : AgreeBelow f.full.size m.values m'.values) :
    (f.withSeeds os v items m).Agree f.full.size 0 items.length (f.withSeeds os v items m') where
  values := hvalues
  fwd d hd := absurd hd (Nat.not_lt_zero d)
  adj := agreeFirst_modifyEach hm.wellSized.adj hm'.wellSized.adj hm.nadj hm'.nadj hm.work hm'.work
    fun x _ _ _ ha hb => f.agreeBelow_seededArray (os x) (v x) ha hb
  adjFwd := ⟨Nat.zero_le _, Nat.zero_le _, fun d hd => absurd hd (Nat.not_lt_zero d)⟩

section Sweeps

variable [Mul F] [Calculus F] {xs : List (List F)} {us : List (Nat → Nat → F)} {nadj : Nat}

/-- A forward sweep keeps the sizes of a memory. -/
theorem holding_afterForward
    (hf : f.WellFormed) (hm : m.Holding f.full us.length nadj)
    (hfit : FitLists f.inputPatterns xs) :
    (f.afterForward f.full xs us m).Holding f.full us.length nadj := by
  have h := reached_afterForward hf (hf.full_sound fun _ => True) hm.wellSized hm.work hm.nfwd hfit
  exact hm.of_sizes h.wellSized h.sizes

/-- Two memories that a forward sweep has gone over hold the same values. -/
theorem agreeBelow_afterForward
    (hf : f.WellFormed) (hm : m.Holding f.full us.length nadj)
    (hm' : m'.Holding f.full us.length nadj) (hfit : FitLists f.inputPatterns xs) :
    AgreeBelow f.full.size (f.afterForward f.full xs us m).values
      (f.afterForward f.full xs us m').values := by
  have hsound := hf.full_sound fun _ => True
  have h := reached_afterForward hf hsound hm.wellSized hm.work hm.nfwd hfit
  have h' := reached_afterForward hf hsound hm'.wellSized hm'.work hm'.nfwd hfit
  have hafter := holding_afterForward hf hm hfit
  have hafter' := holding_afterForward hf hm' hfit
  exact (agreeBelow_valueArray hf (by rw [hafter.wellSized.values]; exact hafter.work)
    fun s => getD_of_holds_full hf h.values).of_common
      (agreeBelow_valueArray hf (by rw [hafter'.wellSized.values]; exact hafter'.work)
        fun s => getD_of_holds_full hf h'.values)

/-- Value sweeps leave the same values in both memories. -/
theorem alike_loadValues
    (hf : f.WellFormed) (hm : m.Holding f.full 0 nadj) (hm' : m'.Holding f.full 0 nadj)
    (hfit : FitLists f.inputPatterns xs) (op : String) :
    Run.Alike (f.loadValues op (f.segmentsAt f.full) xs) m
      (f.loadValues op (f.segmentsAt f.full) xs) m'
      fun _ m₁ _ m₁' => m₁.Holding f.full 0 nadj ∧ m₁'.Holding f.full 0 nadj ∧
        AgreeBelow f.full.size m₁.values m₁'.values := by
  have hsound := hf.full_sound fun _ => True
  refine Run.alike_bind_of_gives
    (gives_loadInputs hf hsound (by rw [hm.wellSized.values]; exact hm.work) hfit)
    (gives_loadInputs hf hsound (by rw [hm'.wellSized.values]; exact hm'.work) hfit) ?_
  have hnone : m.Holding f.full ([] : List (Nat → Nat → F)).length nadj := hm
  have hnone' : m'.Holding f.full ([] : List (Nat → Nat → F)).length nadj := hm'
  refine (alike_forwardSweep hf hsound hnone hnone' hfit f.config.checkFinite op).imp
    fun _ m₁ _ m₁' h => ?_
  obtain ⟨rfl, rfl⟩ := h
  exact ⟨holding_afterForward hf hnone hfit, holding_afterForward hf hnone' hfit,
    agreeBelow_afterForward hf hnone hnone' hfit⟩

/-- A seeded sweep from the end, with the values in both memories. -/
theorem alike_seededSweep
    (hf : f.WellFormed) {α : Type} {os : α → List Nat} {v : α → Nat → Nat → F} {items : List α}
    (hm : m.Holding f.full nfwd items.length) (hm' : m'.Holding f.full nfwd items.length)
    (hvalues : AgreeBelow f.full.size m.values m'.values) (check : Bool) (op : String) :
    Run.Alike (adjointSweep check op items.length (f.segmentsAt f.full)) (f.withSeeds os v items m)
      (adjointSweep check op items.length (f.segmentsAt f.full)) (f.withSeeds os v items m')
      fun _ m₁ _ m₁' => m.Keeps m₁ ∧ m'.Keeps m₁' ∧
        ∀ d < items.length, ∀ p < f.full.size, m₁.adjoint d p = m₁'.adjoint d p := by
  have hsized := wellSized_withSeeds (f := f) os v items hm.wellSized
  have hsized' := wellSized_withSeeds (f := f) os v items hm'.wellSized
  refine ((alike_adjointSweep hf (agree_withSeeds hm hm' hvalues) check op).and_ends
    (ends_adjointSweep hf hsized hm.work check op _)
    (ends_adjointSweep hf hsized' hm'.work check op _)).imp fun _ m₁ _ m₁' h => ?_
  obtain ⟨hagree, hkeeps, hkeeps'⟩ := h
  exact ⟨⟨hkeeps.wellSized, hkeeps.sizes, hkeeps.values⟩,
    ⟨hkeeps'.wellSized, hkeeps'.sizes, hkeeps'.values⟩,
    fun d hd => (hagree.adj.agree d hd).eq⟩

theorem alike_adjointSensitivities
    (hf : f.WellFormed) {seeds : List (List (List F))} (hm : m.Holding f.full nfwd seeds.length)
    (hm' : m'.Holding f.full nfwd seeds.length)
    (hvalues : AgreeBelow f.full.size m.values m'.values) (op : String) :
    Run.Alike (f.adjointSensitivities op (f.segmentsAt f.full) seeds) m
      (f.adjointSensitivities op (f.segmentsAt f.full) seeds) m' fun a _ a' _ => a = a' := by
  have hinside : ∀ seed ∈ seeds, ∀ o ∈ List.range f.nOut, o < f.nOut := fun _ _ _ ho =>
    List.mem_range.1 ho
  refine Run.alike_bind_of_gives (gives_withSeeds hf hinside seedOf hm.wellSized hm.work)
    (gives_withSeeds hf hinside seedOf hm'.wellSized hm'.work) ?_
  refine (alike_seededSweep hf hm hm' hvalues f.config.checkFinite op).bind fun _ m₁ _ m₁' h => ?_
  obtain ⟨hkeeps, hkeeps', hsame⟩ := h
  obtain ⟨m₂, htaken⟩ := gives_takeAll hf hkeeps.wellSized (by rw [hkeeps.sizes]; exact hm.work)
    (n := seeds.length) (by rw [hkeeps.sizes]; exact hm.nadj)
  obtain ⟨m₂', htaken'⟩ := gives_takeAll hf hkeeps'.wellSized
    (by rw [hkeeps'.sizes]; exact hm'.work) (n := seeds.length)
    (by rw [hkeeps'.sizes]; exact hm'.nadj)
  refine Run.alike_of_gives htaken htaken' (List.map_congr_left fun d hd => ?_)
  exact List.map_congr_left fun i hi =>
    inputOf_congr hf (hsame d (List.mem_range.1 hd)) (List.mem_range.1 hi)

/-- Evaluations that two memories accept, of whatever sizes, are alike. -/
theorem alike_evaluate
    (hf : f.WellFormed) (hm : m.WellSized) (hm' : m'.WellSized)
    {fwdSeeds adjSeeds : List (List (List F))}
    (hcheck : f.checkEvaluation "evaluate" m.sizes xs fwdSeeds adjSeeds = .ok ())
    (hcheck' : f.checkEvaluation "evaluate" m'.sizes xs fwdSeeds adjSeeds = .ok ()) :
    Run.Alike (f.evaluate xs fwdSeeds adjSeeds) m (f.evaluate xs fwdSeeds adjSeeds) m'
      fun e _ e' _ => e = e' := by
  have hsound := layout_sound hf adjSeeds.length
  have h := checkEvaluation_eq_ok_iff.1 hcheck
  have h' := checkEvaluation_eq_ok_iff.1 hcheck'
  have hlength : (fwdSeeds.map (seedOf (F := F))).length = fwdSeeds.length := List.length_map ..
  have hholding : m.Holding (f.layout adjSeeds.length) (fwdSeeds.map (seedOf (F := F))).length
      adjSeeds.length := ⟨hm, h.work, hlength ▸ h.nfwd, h.nadj⟩
  have hholding' : m'.Holding (f.layout adjSeeds.length) (fwdSeeds.map (seedOf (F := F))).length
      adjSeeds.length := ⟨hm', h'.work, hlength ▸ h'.nfwd, h'.nadj⟩
  have hloaded := fun {m₁ : Memory F} (hm₁ : m₁.WellSized)
      (hwork : (f.layout adjSeeds.length).size ≤ m₁.sizes.work) =>
    gives_loadInputs hf hsound (m := m₁) (by rw [hm₁.values]; exact hwork) h.fitInputs
  have hseeded := fun {m₁ : Memory F} (hm₁ : m₁.WellSized)
      (hwork : (f.layout adjSeeds.length).size ≤ m₁.sizes.work) =>
    gives_loadSeeds hf hsound seedOf fwdSeeds
      (m := { m₁ with values := writeLists (f.layout adjSeeds.length) 0 xs m₁.values })
      (by simpa [hm₁.values] using hwork)
  have hsegments := segments_of_sound hf hsound
  have hswept := alike_forwardSweep hf hsound hholding hholding' h.fitInputs f.config.checkFinite
    "evaluate"
  rw [hlength] at hswept
  obtain ⟨houtputs, hfwd⟩ := readOutputs_afterForward hf hm h
  obtain ⟨houtputs', hfwd'⟩ := readOutputs_afterForward hf hm' h'
  unfold evaluate
  refine Run.alike_bind_of_gives (Run.gives_get.2 ⟨rfl, rfl⟩) (Run.gives_get.2 ⟨rfl, rfl⟩) ?_
  refine Run.alike_bind_of_gives (Run.gives_check.2 ⟨hcheck, rfl⟩)
    (Run.gives_check.2 ⟨hcheck', rfl⟩) ?_
  refine Run.alike_bind_of_gives (hloaded hm h.work) (hloaded hm' h'.work) ?_
  refine Run.alike_bind_of_gives (hseeded hm h.work) (hseeded hm' h'.work) ?_
  refine Run.alike_bind_of_gives (Run.gives_ofExcept.2 ⟨hsegments, rfl⟩)
    (Run.gives_ofExcept.2 ⟨hsegments, rfl⟩) ?_
  refine hswept.bind fun _ m₁ _ m₁' hend => ?_
  obtain ⟨rfl, rfl⟩ := hend
  refine Run.alike_bind_of_gives (Run.gives_get.2 ⟨rfl, rfl⟩) (Run.gives_get.2 ⟨rfl, rfl⟩) ?_
  refine Run.alike_bind_of_gives (Run.gives_ofExcept.2 ⟨houtputs, rfl⟩)
    (Run.gives_ofExcept.2 ⟨houtputs', rfl⟩) ?_
  refine Run.alike_bind_of_gives (Run.gives_mapM_ofExcept.2 ⟨hfwd, rfl⟩)
    (Run.gives_mapM_ofExcept.2 ⟨hfwd', rfl⟩) ?_
  split
  · exact Run.alike_of_gives (Run.gives_bind.2 ⟨_, _, Run.gives_pure.2 ⟨rfl, rfl⟩,
      Run.gives_pure.2 ⟨rfl, rfl⟩⟩) (Run.gives_bind.2 ⟨_, _, Run.gives_pure.2 ⟨rfl, rfl⟩,
      Run.gives_pure.2 ⟨rfl, rfl⟩⟩) rfl
  · next hsome =>
      have hlayout : f.layout adjSeeds.length = f.full := by simp [layout, hsome]
      rw [hlayout] at hholding hholding'
      have hafter := holding_afterForward hf hholding h.fitInputs
      have hafter' := holding_afterForward hf hholding' h.fitInputs
      have hadj := alike_adjointSensitivities hf hafter hafter'
        (agreeBelow_afterForward hf hholding hholding' h.fitInputs) "evaluate"
      rw [hlayout]
      exact hadj.bind fun adj m₁ adj' m₁' heq => Run.alike_of_gives (Run.gives_pure.2 ⟨rfl, rfl⟩)
        (Run.gives_pure.2 ⟨rfl, rfl⟩) (by rw [heq])

/-- A request that both memories accept, or both refuse with one error, has one outcome. -/
theorem evaluate_alone_eq
    (hf : f.WellFormed) (hm : m.WellSized) (hm' : m'.WellSized)
    {fwdSeeds adjSeeds : List (List (List F))}
    (hsame : f.checkEvaluation "evaluate" m.sizes xs fwdSeeds adjSeeds =
      f.checkEvaluation "evaluate" m'.sizes xs fwdSeeds adjSeeds) :
    (f.evaluate xs fwdSeeds adjSeeds).alone m = (f.evaluate xs fwdSeeds adjSeeds).alone m' := by
  cases hcheck : f.checkEvaluation "evaluate" m.sizes xs fwdSeeds adjSeeds with
  | error e =>
      exact (congrArg Prod.fst (run_evaluate_of_check_error hcheck)).trans
        (congrArg Prod.fst (run_evaluate_of_check_error (hsame.symm.trans hcheck))).symm
  | ok _ => exact (alike_evaluate hf hm hm' hcheck (hsame.symm.trans hcheck)).alone_eq

variable [One F] {dirs : List Direction}

theorem alike_forwardDirections
    (hf : f.WellFormed) (hm : m.Holding (f.layout 0) dirs.length nadj)
    (hm' : m'.Holding (f.layout 0) dirs.length nadj) (hfit : FitLists f.inputPatterns xs)
    (hdirs : ∀ dir ∈ dirs, dir.plan.output < f.nOut) :
    Run.Alike (f.forwardDirections (f.segmentsAt (f.layout 0)) xs dirs) m
      (f.forwardDirections (f.segmentsAt (f.layout 0)) xs dirs) m'
      fun found _ found' _ => found = found' := by
  have hsound := layout_sound hf 0
  have hlength : (dirs.map (Direction.tangentSeed (F := F))).length = dirs.length :=
    List.length_map ..
  have hloaded := fun {m₁ : Memory F} (h : m₁.Holding (f.layout 0) dirs.length nadj) =>
    gives_loadInputs hf hsound (m := m₁) (by rw [h.wellSized.values]; exact h.work) hfit
  have hseeded := fun {m₁ : Memory F} (h : m₁.Holding (f.layout 0) dirs.length nadj) =>
    gives_loadSeeds hf hsound Direction.tangentSeed dirs
      (m := { m₁ with values := writeLists (f.layout 0) 0 xs m₁.values })
      (by simpa [h.wellSized.values] using h.work)
  have hread := fun {m₁ : Memory F} (h : m₁.Holding (f.layout 0) dirs.length nadj) =>
    gives_readDirections hf h.wellSized h.work hfit h.nfwd hdirs
  rw [← hlength] at hm hm'
  have hswept := alike_forwardSweep hf hsound hm hm' hfit f.config.checkFinite jacobianOp
  rw [hlength] at hm hm' hswept
  unfold forwardDirections
  refine Run.alike_bind_of_gives (hloaded hm) (hloaded hm') ?_
  refine Run.alike_bind_of_gives (hseeded hm) (hseeded hm') ?_
  refine hswept.bind fun _ m₁ _ m₁' hend => ?_
  obtain ⟨rfl, rfl⟩ := hend
  exact Run.alike_bind_of_gives (Run.gives_get.2 ⟨rfl, rfl⟩) (Run.gives_get.2 ⟨rfl, rfl⟩)
    (Run.alike_of_gives (hread hm) (hread hm') rfl)

theorem alike_adjointDirections
    (hf : f.WellFormed) (hm : m.Holding f.full nfwd dirs.length)
    (hm' : m'.Holding f.full nfwd dirs.length)
    (hvalues : AgreeBelow f.full.size m.values m'.values)
    (hdirs : ∀ dir ∈ dirs, dir.plan.output < f.nOut ∧ dir.plan.input < f.nIn) :
    Run.Alike (f.adjointDirections (f.segmentsAt f.full) dirs) m
      (f.adjointDirections (f.segmentsAt f.full) dirs) m'
      fun found m₁ found' m₁' => found = found' ∧ m.Keeps m₁ ∧ m'.Keeps m₁' := by
  have houtputs : ∀ dir ∈ dirs, dir.plan.output < f.nOut := fun dir hdir => (hdirs dir hdir).1
  have hinputs : ∀ dir ∈ dirs, dir.plan.input < f.nIn := fun dir hdir => (hdirs dir hdir).2
  refine Run.alike_bind_of_gives (gives_seedDirections hf hm.wellSized hm.work houtputs)
    (gives_seedDirections hf hm'.wellSized hm'.work houtputs) ?_
  refine (alike_seededSweep hf hm hm' hvalues f.config.checkFinite jacobianOp).bind
    fun _ m₁ _ m₁' h => ?_
  obtain ⟨hkeeps, hkeeps', hsame⟩ := h
  obtain ⟨m₂, htaken, hsized, hsizes, hkept⟩ := gives_takeDirections hf hkeeps.wellSized
    (by rw [hkeeps.sizes]; exact hm.work) hinputs
  obtain ⟨m₂', htaken', hsized', hsizes', hkept'⟩ := gives_takeDirections hf hkeeps'.wellSized
    (by rw [hkeeps'.sizes]; exact hm'.work) hinputs
  refine Run.alike_of_gives htaken htaken' ⟨List.map_congr_left fun item hitem => ?_,
    ⟨hsized, hsizes.trans hkeeps.sizes, hkept.trans hkeeps.values⟩,
    ⟨hsized', hsizes'.trans hkeeps'.sizes, hkept'.trans hkeeps'.values⟩⟩
  have hd := List.mem_zipIdx_iff_getElem?.1 hitem
  rw [inputOf_congr hf (hsame item.2 (List.getElem?_eq_some_iff.1 hd).1)
    (hinputs item.1 (List.mem_of_getElem? hd))]

variable {plans : List JacobianPlan} {values : List (Array F)}

theorem alike_forwardBatches
    (hf : f.WellFormed) {size : Nat} (hm : m.Holding (f.layout 0) size nadj)
    (hm' : m'.Holding (f.layout 0) size nadj) (hfit : FitLists f.inputPatterns xs)
    (hdirs : ∀ dir ∈ dirs, dir.plan.output < f.nOut) :
    Run.Alike (f.forwardBatches xs plans dirs size values) m
      (f.forwardBatches xs plans dirs size values) m'
      fun found m₁ found' m₁' => found = found' ∧
        (m₁.WellSized ∧ m₁.sizes = m.sizes) ∧ m₁'.WellSized ∧ m₁'.sizes = m'.sizes := by
  refine Run.alike_bind_of_gives
    (Run.gives_ofExcept.2 ⟨segments_of_sound hf (layout_sound hf 0), rfl⟩)
    (Run.gives_ofExcept.2 ⟨segments_of_sound hf (layout_sound hf 0), rfl⟩) ?_
  refine Run.alike_foldlM (I := fun m₁ m₁' => (m₁.WellSized ∧ m₁.sizes = m.sizes) ∧
    m₁'.WellSized ∧ m₁'.sizes = m'.sizes) (fun b hb values m₁ m₁' hI => ?_) values
    ⟨⟨hm.wellSized, rfl⟩, hm'.wellSized, rfl⟩
  obtain ⟨⟨hsized₁, hsizes₁⟩, hsized₁', hsizes₁'⟩ := hI
  have hlength := length_select_le b dirs
  have hstop := (stop_of_mem_batches hb).1
  have hinside : ∀ dir ∈ b.select dirs, dir.plan.output < f.nOut := fun dir hdir =>
    hdirs dir (mem_of_mem_select hdir)
  have hbatch := fun {m₂ : Memory F} (h : m₂.Holding (f.layout 0) size nadj) =>
    (⟨h.wellSized, h.work, by have := h.nfwd; omega, h.nadj⟩ :
      m₂.Holding (f.layout 0) (b.select dirs).length nadj)
  have hholding := hbatch (hm.of_sizes hsized₁ hsizes₁)
  have hholding' := hbatch (hm'.of_sizes hsized₁' hsizes₁')
  have hends := fun {m₂ : Memory F} (h : m₂.Holding (f.layout 0) (b.select dirs).length nadj) =>
    guarded_forwardDirections hf h.wellSized h.work hfit h.nfwd hinside
  refine ((alike_forwardDirections hf hholding hholding' hfit hinside).and_ends
    (hends hholding) (hends hholding')).bind fun found m₂ found' m₂' h => ?_
  obtain ⟨rfl, ⟨⟨-, hsized, hsizes⟩, -⟩, ⟨-, hsized', hsizes'⟩, -⟩ := h
  exact Run.alike_of_gives (Run.gives_pure.2 ⟨rfl, rfl⟩) (Run.gives_pure.2 ⟨rfl, rfl⟩)
    ⟨rfl, ⟨hsized, hsizes.trans hsizes₁⟩, hsized', hsizes'.trans hsizes₁'⟩

theorem alike_adjointBatches
    (hf : f.WellFormed) {size : Nat} (hm : m.Holding f.full 0 size) (hm' : m'.Holding f.full 0 size)
    (hfit : FitLists f.inputPatterns xs) (op : String)
    (hdirs : ∀ dir ∈ dirs, dir.plan.output < f.nOut ∧ dir.plan.input < f.nIn) :
    Run.Alike (f.adjointBatches op xs plans dirs size values) m
      (f.adjointBatches op xs plans dirs size values) m'
      fun found _ found' _ => found = found' := by
  refine Run.alike_bind_of_gives (Run.gives_ofExcept.2 ⟨segments_full hf, rfl⟩)
    (Run.gives_ofExcept.2 ⟨segments_full hf, rfl⟩) ?_
  refine (alike_loadValues hf hm hm' hfit op).bind fun _ m₀ _ m₀' h₀ => ?_
  obtain ⟨hholding, hholding', hvalues⟩ := h₀
  refine (Run.alike_foldlM (I := fun m₁ m₁' => m₀.Keeps m₁ ∧ m₀'.Keeps m₁')
    (fun b hb values m₁ m₁' hI => ?_) values ⟨⟨hholding.wellSized, rfl, rfl⟩,
      ⟨hholding'.wellSized, rfl, rfl⟩⟩).imp fun _ _ _ _ h => h.1
  obtain ⟨hkeeps, hkeeps'⟩ := hI
  have hlength := length_select_le b dirs
  have hstop := (stop_of_mem_batches hb).1
  have hbatch := fun {m₂ m₃ : Memory F} (h : m₂.Holding f.full 0 size) (hk : m₂.Keeps m₃) =>
    (⟨hk.wellSized, hk.sizes ▸ h.work, Nat.zero_le _, by rw [hk.sizes]; have := h.nadj; omega⟩ :
      m₃.Holding f.full 0 (b.select dirs).length)
  refine (alike_adjointDirections hf (hbatch hholding hkeeps) (hbatch hholding' hkeeps')
    (by rw [hkeeps.values, hkeeps'.values]; exact hvalues)
    fun dir hdir => hdirs dir (mem_of_mem_select hdir)).bind fun found m₂ found' m₂' h => ?_
  obtain ⟨rfl, h, h'⟩ := h
  exact Run.alike_of_gives (Run.gives_pure.2 ⟨rfl, rfl⟩) (Run.gives_pure.2 ⟨rfl, rfl⟩)
    ⟨rfl, ⟨h.wellSized, h.sizes.trans hkeeps.sizes, h.values.trans hkeeps.values⟩,
      ⟨h'.wellSized, h'.sizes.trans hkeeps'.sizes, h'.values.trans hkeeps'.values⟩⟩

/-- Assemblies of blocks on two memories of the same sizes. -/
theorem alike_jacobianValues
    (hf : f.WellFormed) (hm : m.WellSized) (hm' : m'.WellSized) (hsizes : m.sizes = m'.sizes)
    (op : String) (xs : List (List F)) (plans : List JacobianPlan) :
    Run.Alike (f.jacobianValues op xs plans) m (f.jacobianValues op xs plans) m'
      fun values _ values' _ => values = values' := by
  refine Run.alike_bind_of_gives (Run.gives_get.2 ⟨rfl, rfl⟩) (Run.gives_get.2 ⟨rfl, rfl⟩) ?_
  rw [← hsizes]
  refine Run.alike_check_bind fun _ hcheck => ?_
  have haccepts := acceptsBlocks_of_checkJacobians hf hcheck
  have hholding : m.Holding (f.layout 0) (min f.config.maxDirections m.sizes.nfwd) 0 :=
    ⟨hm, haccepts.work, Nat.min_le_right .., Nat.zero_le _⟩
  have hholding' : m'.Holding (f.layout 0) (min f.config.maxDirections m.sizes.nfwd) 0 :=
    hholding.of_sizes hm' hsizes.symm
  refine (alike_forwardBatches hf hholding hholding' haccepts.fit
    fun _ hdir => (haccepts.range_of_mem_directions hdir).1).bind fun values m₁ values' m₁' h => ?_
  obtain ⟨rfl, ⟨hsized₁, hsizes₁⟩, hsized₁', hsizes₁'⟩ := h
  split
  · exact Run.alike_of_gives (Run.gives_pure.2 ⟨rfl, rfl⟩) (Run.gives_pure.2 ⟨rfl, rfl⟩) rfl
  · next hsome =>
      have hfull : m.Holding f.full 0 (min f.config.maxDirections m.sizes.nadj) :=
        ⟨hm, haccepts.full (by simpa using hsome), Nat.zero_le _, Nat.min_le_right ..⟩
      exact alike_adjointBatches hf (hfull.of_sizes hsized₁ hsizes₁)
        (hfull.of_sizes hsized₁' (hsizes₁'.trans hsizes.symm)) haccepts.fit op
        fun _ => haccepts.range_of_mem_directions

/-- Jacobians on two memories of the same sizes. -/
theorem alike_jacobianWithPlan
    (hf : f.WellFormed) (hm : m.WellSized) (hm' : m'.WellSized) (hsizes : m.sizes = m'.sizes)
    (xs : List (List F)) (plan : JacobianPlan) :
    Run.Alike (f.jacobianWithPlan xs plan) m (f.jacobianWithPlan xs plan) m'
      fun jac _ jac' _ => jac = jac' := by
  refine (alike_jacobianValues hf hm hm' hsizes jacobianOp xs [plan]).bind
    fun values m₁ values' m₁' heq => ?_
  exact Run.alike_of_gives (Run.gives_pure.2 ⟨rfl, rfl⟩) (Run.gives_pure.2 ⟨rfl, rfl⟩)
    (by rw [heq])

/-- Memories that are ready for the same sweep agree. -/
theorem ReadyFor.agree
    {o : Nat} (h : f.ReadyFor xs o us m) (h' : f.ReadyFor xs o us m') :
    m.Agree f.full.size us.length 1 m' where
  values := h.values.of_common h'.values
  fwd d hd :=
    (h.fwd d _ (List.getElem?_eq_getElem hd)).of_common (h'.fwd d _ (List.getElem?_eq_getElem hd))
  adj := ⟨h.adj, h'.adj, fun d hd => by
    obtain rfl := Nat.lt_one_iff.1 hd
    exact h.seed.of_common h'.seed⟩
  adjFwd := ⟨h.adjFwd, h'.adjFwd, fun d hd => (h.cleared d hd).of_common (h'.cleared d hd)⟩

/-- The second sweep of products, and the reading of an input. -/
theorem alike_backwardTangents
    (hf : f.WellFormed) {o i : Nat} (hi : i < f.nIn) (h : f.ReadyFor xs o us m)
    (h' : f.ReadyFor xs o us m') (check : Bool) (op : String) :
    Run.Alike
      (do
        secondOrderSweep check op us.length (f.segmentsAt f.full)
        (List.range us.length).mapM fun d => f.takeInputAdjointTangent d i) m
      (do
        secondOrderSweep check op us.length (f.segmentsAt f.full)
        (List.range us.length).mapM fun d => f.takeInputAdjointTangent d i) m'
      fun products m₁ products' m₁' => products = products' ∧
        (m₁.WellSized ∧ m₁.sizes = m.sizes) ∧ m₁'.WellSized ∧ m₁'.sizes = m'.sizes := by
  refine ((alike_secondOrderSweep hf (h.agree h') check op).and_ends
    (ends_secondOrderSweep hf h.wellSized h.work check op _)
    (ends_secondOrderSweep hf h'.wellSized h'.work check op _)).bind fun _ m₁ _ m₁' hend => ?_
  obtain ⟨hagree, hkeeps, hkeeps'⟩ := hend
  obtain ⟨m₂, htaken, hsized, hsizes⟩ := gives_takeTangents hf hkeeps.wellSized
    (by rw [hkeeps.sizes]; exact h.work) hi us.length
  obtain ⟨m₂', htaken', hsized', hsizes'⟩ := gives_takeTangents hf hkeeps'.wellSized
    (by rw [hkeeps'.sizes]; exact h'.work) hi us.length
  refine Run.alike_of_gives htaken htaken' ⟨List.map_congr_left fun d hd => ?_,
    ⟨hsized, hsizes.trans hkeeps.sizes⟩, hsized', hsizes'.trans hkeeps'.sizes⟩
  exact inputOf_congr hf (hagree.adjFwd.agree d (List.mem_range.1 hd)).eq hi

theorem alike_hessianProducts
    (hf : f.WellFormed) (hnadj : 1 ≤ nadj) (hm : m.Holding f.full us.length nadj)
    (hm' : m'.Holding f.full us.length nadj) (hfit : FitLists f.inputPatterns xs) {o i : Nat}
    (ho : o < f.nOut) (hi : i < f.nIn) :
    Run.Alike (f.hessianProducts (f.segmentsAt f.full) xs o i us) m
      (f.hessianProducts (f.segmentsAt f.full) xs o i us) m'
      fun products m₁ products' m₁' => products = products' ∧
        (m₁.WellSized ∧ m₁.sizes = m.sizes) ∧ m₁'.WellSized ∧ m₁'.sizes = m'.sizes := by
  have hsound := hf.full_sound fun _ => True
  have hcleared : (clearedTangents us m).Holding f.full us.length nadj :=
    hm.of_sizes (wellSized_clearedTangents us hm.wellSized) rfl
  have hcleared' : (clearedTangents us m').Holding f.full us.length nadj :=
    hm'.of_sizes (wellSized_clearedTangents us hm'.wellSized) rfl
  have hreached := fun {m₁ : Memory F}
      (hc : (clearedTangents us m₁).Holding f.full us.length nadj) =>
    reached_afterForward hf hsound hc.wellSized hc.work hc.nfwd hfit
  have hready := fun {m₁ : Memory F} (h : m₁.Holding f.full us.length nadj)
      (hc : (clearedTangents us m₁).Holding f.full us.length nadj) =>
    readyFor_of_reached hf h.wellSized h.work (Nat.le_trans hnadj h.nadj) o h.nfwd (hreached hc)
  have hseeded := fun {m₁ : Memory F} (h : m₁.Holding f.full us.length nadj) =>
    Run.gives_bind.1 (gives_seed hf ho (by rw [h.wellSized.values]; exact h.work) 0
      fun _ _ => (1 : F))
  obtain ⟨_, _, hclear, hseed⟩ := hseeded (holding_afterForward hf hcleared hfit)
  obtain ⟨_, _, hclear', hseed'⟩ := hseeded (holding_afterForward hf hcleared' hfit)
  unfold hessianProducts
  refine Run.alike_bind_of_gives
    (gives_loadInputs hf hsound (by rw [hm.wellSized.values]; exact hm.work) hfit)
    (gives_loadInputs hf hsound (by rw [hm'.wellSized.values]; exact hm'.work) hfit) ?_
  refine Run.alike_bind_of_gives
    (gives_loadTangents hf hsound us (by simpa [hm.wellSized.values] using hm.work))
    (gives_loadTangents hf hsound us (by simpa [hm'.wellSized.values] using hm'.work)) ?_
  refine (alike_forwardSweep hf hsound hcleared hcleared' hfit f.config.checkFinite
    hessianOp).bind fun _ m₁ _ m₁' hend => ?_
  obtain ⟨rfl, rfl⟩ := hend
  refine Run.alike_bind_of_gives hclear hclear' ?_
  refine Run.alike_bind_of_gives hseed hseed' ?_
  refine (alike_backwardTangents hf hi (hready hm hcleared) (hready hm' hcleared')
    f.config.checkFinite hessianOp).imp fun _ _ _ _ h => ?_
  exact ⟨h.1, ⟨h.2.1.1, h.2.1.2.trans (hreached hcleared).sizes⟩,
    h.2.2.1, h.2.2.2.trans (hreached hcleared').sizes⟩

variable {plan : HessianPlan}

theorem alike_hessianBatch
    (hf : f.WellFormed) (hnadj : 1 ≤ nadj) {size : Nat} (hm : m.Holding f.full size nadj)
    (hm' : m'.Holding f.full size nadj) (hfit : FitLists f.inputPatterns xs) (hfits : plan.Fits f)
    {b : Batch} (hsize : b.stop - b.start ≤ size) (values : Array F) :
    Run.Alike (f.hessianBatch (f.segmentsAt f.full) xs plan b values) m
      (f.hessianBatch (f.segmentsAt f.full) xs plan b values) m'
      fun values m₁ values' m₁' => values = values' ∧
        (m₁.WellSized ∧ m₁.sizes = m.sizes) ∧ m₁'.WellSized ∧ m₁'.sizes = m'.sizes := by
  have hlength : (b.members.map (colorTangent (F := F) plan.input plan.coloring)).length ≤
      size := by
    rwa [List.length_map, Batch.length_members]
  have hbatch := fun {m₁ : Memory F} (h : m₁.Holding f.full size nadj) =>
    (⟨h.wellSized, h.work, Nat.le_trans hlength h.nfwd, h.nadj⟩ : m₁.Holding f.full
      (b.members.map (colorTangent (F := F) plan.input plan.coloring)).length nadj)
  refine (alike_hessianProducts hf hnadj (hbatch hm) (hbatch hm') hfit hfits.output
    hfits.input).bind fun products m₁ products' m₁' h => ?_
  obtain ⟨rfl, h⟩ := h
  exact Run.alike_of_gives (Run.gives_pure.2 ⟨rfl, rfl⟩) (Run.gives_pure.2 ⟨rfl, rfl⟩) ⟨rfl, h⟩

/-- Hessians on two memories of the same sizes. -/
theorem alike_hessianWithPlan
    (hf : f.WellFormed) (hm : m.WellSized) (hm' : m'.WellSized) (hsizes : m.sizes = m'.sizes)
    (xs : List (List F)) (plan : HessianPlan) :
    Run.Alike (f.hessianWithPlan xs plan) m (f.hessianWithPlan xs plan) m'
      fun hess _ hess' _ => hess = hess' := by
  refine Run.alike_bind_of_gives (Run.gives_get.2 ⟨rfl, rfl⟩) (Run.gives_get.2 ⟨rfl, rfl⟩) ?_
  rw [← hsizes]
  refine Run.alike_check_bind fun _ hcheck => ?_
  have haccepts := acceptsHessian_of_checkHessian hcheck
  obtain ⟨_, hplan, -⟩ := bind_eq_ok_iff.1 hcheck
  have hfits := fits_of_checkHessianPlan hplan
  have hholding : m.Holding f.full (min f.config.maxDirections m.sizes.nfwd) 1 :=
    ⟨hm, haccepts.work, Nat.min_le_right .., haccepts.nadj⟩
  have hholding' : m'.Holding f.full (min f.config.maxDirections m.sizes.nfwd) 1 :=
    hholding.of_sizes hm' hsizes.symm
  refine Run.alike_bind_of_gives (Run.gives_ofExcept.2 ⟨segments_full hf, rfl⟩)
    (Run.gives_ofExcept.2 ⟨segments_full hf, rfl⟩) ?_
  refine (Run.alike_foldlM (I := fun m₁ m₁' => (m₁.WellSized ∧ m₁.sizes = m.sizes) ∧
    m₁'.WellSized ∧ m₁'.sizes = m'.sizes) (fun b hb values m₁ m₁' hI => ?_)
    (zeroValues plan.pattern) ⟨⟨hm, rfl⟩, hm', rfl⟩).bind fun values m₁ values' m₁' h => ?_
  · obtain ⟨⟨hsized₁, hsizes₁⟩, hsized₁', hsizes₁'⟩ := hI
    refine (alike_hessianBatch hf (Nat.le_refl 1) (hholding.of_sizes hsized₁ hsizes₁)
      (hholding'.of_sizes hsized₁' hsizes₁') haccepts.fit hfits (stop_of_mem_batches hb).1
      values).imp fun _ _ _ _ h => ?_
    exact ⟨h.1, ⟨h.2.1.1, h.2.1.2.trans hsizes₁⟩, h.2.2.1, h.2.2.2.trans hsizes₁'⟩
  · obtain ⟨rfl, -⟩ := h
    exact Run.alike_of_gives (Run.gives_pure.2 ⟨rfl, rfl⟩) (Run.gives_pure.2 ⟨rfl, rfl⟩) rfl

end Sweeps

section Compiled

variable {F : Type} [Zero F] [One F] [Add F] [Sub F] [Neg F] [Mul F] [Div F] [Elementary F]
  [ElementText F]

/--
What a memory holds before a call does not show in the result of the call, over any arithmetic. A
call leaves a memory with the same arrays, whether it returns or fails midway. And on two memories
of the same sizes, whatever is in them, evaluations, Jacobians, Jacobian blocks and Hessians return
the same results and fail with the same errors, for all inputs, seeds and plans. Evaluations do so
on memories of different sizes too, as long as both are large enough.
-/
theorem results_forget_memory
    {g : Graph F} {inputs outputs : List NodeId} {config : Config} {f : Tape F}
    (hbare : g.BareLeaves) (hcompile : compile g inputs outputs config = .ok f) {m m' : Memory F}
    (hm : m.WellSized) (hm' : m'.WellSized) (xs : List (List F)) :
    (∀ fwdSeeds adjSeeds, (f.evaluate xs fwdSeeds adjSeeds).KeepsShape ∧
      (m.sizes = m'.sizes ∨
          (f.checkEvaluation "evaluate" m.sizes xs fwdSeeds adjSeeds = .ok () ∧
            f.checkEvaluation "evaluate" m'.sizes xs fwdSeeds adjSeeds = .ok ()) →
        (f.evaluate xs fwdSeeds adjSeeds).alone m = (f.evaluate xs fwdSeeds adjSeeds).alone m')) ∧
    (∀ plan, (f.jacobianWithPlan xs plan).KeepsShape ∧
      (m.sizes = m'.sizes →
        (f.jacobianWithPlan xs plan).alone m = (f.jacobianWithPlan xs plan).alone m')) ∧
    (∀ plans, (f.jacobianBlocksWithPlans xs plans).KeepsShape ∧
      (m.sizes = m'.sizes →
        (f.jacobianBlocksWithPlans xs plans).alone m =
          (f.jacobianBlocksWithPlans xs plans).alone m')) ∧
    ∀ plan, (f.hessianWithPlan xs plan).KeepsShape ∧
      (m.sizes = m'.sizes →
        (f.hessianWithPlan xs plan).alone m = (f.hessianWithPlan xs plan).alone m') := by
  obtain ⟨order, h⟩ := compiled_of_compile hbare hcompile
  have hf := h.wellFormed
  refine ⟨?_, ?_, ?_, ?_⟩
  · intro fwdSeeds adjSeeds
    refine ⟨f.keepsShape_evaluate .., ?_⟩
    rintro (hsizes | ⟨hcheck, hcheck'⟩)
    · exact evaluate_alone_eq hf hm hm' (by rw [hsizes])
    · exact evaluate_alone_eq hf hm hm' (hcheck.trans hcheck'.symm)
  · intro plan
    refine ⟨f.keepsShape_jacobianWithPlan .., fun hsizes => ?_⟩
    exact (alike_jacobianWithPlan hf hm hm' hsizes xs plan).alone_eq
  · intro plans
    refine ⟨f.keepsShape_jacobianBlocksWithPlans .., fun hsizes => ?_⟩
    refine ((alike_jacobianValues hf hm hm' hsizes "jacobian_blocks" xs plans).bind
      fun values m₁ values' m₁' heq => ?_).alone_eq
    exact Run.alike_of_gives (Run.gives_pure.2 ⟨rfl, rfl⟩) (Run.gives_pure.2 ⟨rfl, rfl⟩)
      (by rw [heq])
  · intro plan
    refine ⟨f.keepsShape_hessianWithPlan .., fun hsizes => ?_⟩
    exact (alike_hessianWithPlan hf hm hm' hsizes xs plan).alone_eq

end Compiled

/-- What is left of a memory after a call that failed in its forward sweep. -/
def usedMemory : Memory Extended :=
  (((quotient 8).evaluate zeroDivisor [[[1, 1]]] [[[1]]]).run.run ((quotient 8).memory 2 1)).2

theorem results_forget_memory_quotient :
    ((quotient 8).evaluate zeroDivisor [[[1, 1]]] [[[1]]]).alone ((quotient 8).memory 2 1) =
      .error (.rejected (.numeric "evaluate" 3 0)) ∧
    usedMemory.values ≠ ((quotient 8).memory 2 1).values ∧
    ((quotient 8).evaluate quotientInputs [[[1, 0]]] [[[1]]]).alone usedMemory =
      ((quotient 8).evaluate quotientInputs [[[1, 0]]] [[[1]]]).alone ((quotient 8).memory 3 2) ∧
    ((quotient 8).jacobianWithPlan quotientInputs quotientColumns).alone usedMemory =
      ((quotient 8).jacobianWithPlan quotientInputs quotientColumns).alone
        ((quotient 8).memory 2 1) ∧
    ((quotient 8).jacobianBlocksWithPlans quotientInputs [quotientColumns]).alone usedMemory =
      ((quotient 8).jacobianBlocksWithPlans quotientInputs [quotientColumns]).alone
        ((quotient 8).memory 2 1) ∧
    ((quotient 8).hessianWithPlan quotientInputs quotientHessian).alone usedMemory =
      ((quotient 8).hessianWithPlan quotientInputs quotientHessian).alone
        ((quotient 8).memory 2 1) := by
  have hfresh := Memory.wellSized_new (F := Extended) ((quotient 8).requiredMemory 2 1)
  have hlarge := Memory.wellSized_new (F := Extended) ((quotient 8).requiredMemory 3 2)
  obtain ⟨hused, hsizes⟩ : usedMemory.WellSized ∧
      usedMemory.sizes = ((quotient 8).memory 2 1).sizes :=
    ((quotient 8).keepsShape_evaluate ..).after _ hfresh
  obtain ⟨-, hjacobian, hblocks, hhessian⟩ := results_forget_memory Graph.bareLeaves_quotient
    (compile_quotient 8) hused hfresh quotientInputs
  obtain ⟨hevaluate, -⟩ := results_forget_memory Graph.bareLeaves_quotient (compile_quotient 8)
    hused hlarge quotientInputs
  refine ⟨by cbv, by cbv; decide, (hevaluate _ _).2 (.inr ⟨?_, by cbv⟩), (hjacobian _).2 hsizes,
    (hblocks _).2 hsizes, (hhessian _).2 hsizes⟩
  rw [hsizes]
  cbv

end Tape

end SparseDiff
