import SparseDiff.Proofs.Checked.Forward
import SparseDiff.Proofs.Directions.SecondOrder

/-!
# Products, direction by direction

The product of a Hessian with one tangent among several is the product that a sweep along this
tangent alone would find (`Tape.dots`), and a checked sweep along several tangents refuses exactly
where one of them would (`Tape.guarded_hessianProducts`). The arithmetic need not be exact.
-/

namespace SparseDiff

variable {F : Type}

namespace Tape

variable [Zero F] [Add F] [Mul F] [Calculus F] {f : Tape F} {xs : List (List F)}

/-- A memory with the tangents of the trace agrees with the trace. -/
theorem agreeBelow_tangentArray
    (hf : f.WellFormed) {t : Array F} (hroom : f.full.size ≤ t.size) {u : Nat → Nat → F}
    (htangents : ∀ s < f.full.size, t.getD s 0 = (f.tangentArray xs u).getD s 0) :
    AgreeBelow f.full.size t (f.tangentArray xs u) :=
  ⟨hroom, by rw [tangentArray, Trace.tangents, Trace.size_record, length_trace hf], htangents⟩

/-- The tangents of the trace solve the equations of all visited cells. -/
theorem solvedAt_of_agreeBelow
    (hf : f.WellFormed) {w : Array F} (hw : AgreeBelow f.full.size w (f.valueArray xs))
    {nfwd : Nat} {ts : Nat → Array F}
    (hts : ∀ d < nfwd, ∃ u, AgreeBelow f.full.size (ts d) (f.tangentArray xs u))
    {v : Nat × Cell F} (hv : v ∈ f.visits) :
    SolvedAt f.full.size nfwd w ts v.1 v.2 := by
  obtain ⟨hslot, hslots⟩ := visits_inside hf v hv
  refine ⟨hslot, hslots, not_mem_slots_of_mem_visits hf hv, fun hinput d hd => ?_⟩
  obtain ⟨u, ht⟩ := hts d hd
  rw [ht.eq v.1 hslot, hw.eq v.1 hslot, tangentArray_of_mem_visits hf hv hinput]
  exact (Cell.tangent_congr (fun s hs => hw.eq s (hslots s hs))
    (fun s hs => ht.eq s (hslots s hs)) _).symm

/-- The adjoint tangents are still as they were cleared. -/
theorem adjointTangent_of_reached
    {m m₁ : Memory F} {us : List (Nat → Nat → F)} (hm : m.WellSized) (hnadj : 1 ≤ m.sizes.nadj)
    (hnfwd : us.length ≤ m.sizes.nfwd)
    (hreached : f.Reached f.full (fun _ => True) (f.valueArray xs)
      (fun d => f.tangentArray xs (us.getD d fun _ _ => 0)) us.length (clearedTangents us m)
      f.elements.size m₁) :
    ∀ d < us.length, ∀ p, (m₁.adjFwd.getD d #[]).getD p 0 = 0 := by
  intro d hd p
  have hsecond : m.sizes.second = m.sizes.nfwd := if_pos hnadj
  have hzero : (clearedTangents us m).adjointTangent d = fun _ => 0 :=
    adjointTangent_clearedTangents (by rw [hm.adjFwd.1, hsecond]; exact hnfwd) hd
  rw [hreached.adjFwd]
  exact congrFun hzero p

variable [One F]

/-- The adjoint one at the nonzeros of output `o`, over the trace. -/
def unitAdjoint (f : Tape F) (o : Nat) : Array F :=
  f.seededArray [o] (fun _ _ => 1) (Array.replicate f.full.size 0)

/-- The adjoint tangents that the input tangents `u` leave over the trace. -/
def dots (f : Tape F) (xs : List (List F)) (o : Nat) (u : Nat → Nat → F) : Array F :=
  dotWalk (f.valueArray xs) (f.tangentArray xs u) f.visits (f.unitAdjoint o)
    (Array.replicate f.full.size 0)

/-- The sweeps along the input tangents `u` meet finite numbers only. -/
structure FiniteProduct (f : Tape F) (xs : List (List F)) (o : Nat) (u : Nat → Nat → F) :
    Prop where
  forward : f.FiniteForward f.full xs u
  dots : FiniteDots (f.valueArray xs) (f.tangentArray xs u) f.visits (f.unitAdjoint o)
    (Array.replicate f.full.size 0)

/-- The products are finite exactly if both sweeps are, along every tangent. -/
theorem forall_finiteProduct_iff
    {o : Nat} {us : List (Nat → Nat → F)} (hne : us ≠ []) :
    (∀ u ∈ us, f.FiniteProduct xs o u) ↔
      Everywhere f.elements (f.Passes f.full xs us) ∧
        ∀ u ∈ us, FiniteDots (f.valueArray xs) (f.tangentArray xs u) f.visits (f.unitAdjoint o)
          (Array.replicate f.full.size 0) := by
  rw [everywhere_passes_iff_of_ne_nil hne]
  exact ⟨fun h => ⟨fun u hu => (h u hu).forward, fun u hu => (h u hu).dots⟩,
    fun h u hu => ⟨h.1 u hu, h.2 u hu⟩⟩

/-- Products fail in the forward sweep, or they end as the second sweep and the reading do. -/
theorem ends_hessianProducts
    (hf : f.WellFormed) {m : Memory F} (hm : m.WellSized) (hwork : f.full.size ≤ m.sizes.work)
    (hfit : FitLists f.inputPatterns xs) {o i : Nat} (ho : o < f.nOut)
    {us : List (Nat → Nat → F)} (hnfwd : us.length ≤ m.sizes.nfwd)
    {Q : List (List F) → Memory F → Prop} {E : Failure → Prop}
    (hbad : f.config.checkFinite = true → ¬ Everywhere f.elements (f.Passes f.full xs us) →
      ∀ err, err.IsNumeric → E err)
    (hback : (f.config.checkFinite = true → Everywhere f.elements (f.Passes f.full xs us)) →
      ∀ m₁ : Memory F,
        f.Reached f.full (fun _ => True) (f.valueArray xs)
          (fun d => f.tangentArray xs (us.getD d fun _ _ => 0)) us.length (clearedTangents us m)
          f.elements.size m₁ →
        Run.Ends
          (do
            secondOrderSweep f.config.checkFinite hessianOp us.length (f.segmentsAt f.full)
            (List.range us.length).mapM fun d => f.takeInputAdjointTangent d i)
          { m₁ with adj := m₁.adj.modify 0 (f.seededArray [o] fun _ _ => 1) } Q E) :
    Run.Ends (f.hessianProducts (f.segmentsAt f.full) xs o i us) m Q E := by
  have hsound := hf.full_sound fun _ => True
  have hcleared := wellSized_clearedTangents us hm
  have hloaded := gives_loadInputs hf hsound (by rw [hm.values]; exact hwork) hfit
  have htangents := gives_loadTangents hf hsound us
    (m := { m with values := writeLists f.full 0 xs m.values })
    (by rw [size_writeLists, hm.values]; exact hwork)
  have hforward := guarded_forwardSweep hf hsound hcleared hwork hnfwd hfit f.config.checkFinite
    hessianOp
  have hreached := reached_afterForward hf hsound hcleared hwork hnfwd hfit
  have hroom : f.full.size ≤ (f.afterForward f.full xs us (clearedTangents us m)).values.size := by
    rw [hreached.wellSized.values, hreached.sizes]
    exact hwork
  obtain ⟨_, _, hclear, hseed⟩ := Run.gives_bind.1 (gives_seed hf ho hroom 0 fun _ _ => (1 : F))
  refine Run.ends_bind.2 ((Run.ends_iff_of_gives hloaded).2 (Run.ends_bind.2 ?_))
  refine (Run.ends_iff_of_gives htangents).2 (Run.ends_bind.2 (Run.Ends.imp hforward
    (fun _ m₁ h => ?_) fun err h => hbad h.1 h.2.1 err h.2.2))
  obtain ⟨rfl, hpassed⟩ := h
  exact Run.ends_bind.2 ((Run.ends_iff_of_gives hclear).2 (Run.ends_bind.2
    ((Run.ends_iff_of_gives hseed).2 (hback hpassed _ hreached))))

/-- Reading an input after a sweep gives its part of every walk. -/
theorem gives_takeDots
    (hf : f.WellFormed) {m : Memory F} (hm : m.WellSized) (hwork : f.full.size ≤ m.sizes.work)
    {o i : Nat} (hi : i < f.nIn) {us : List (Nat → Nat → F)}
    (hdots : ∀ (d : Nat) (u : Nat → Nat → F), us[d]? = some u → ∀ p < f.full.size,
      m.adjointTangent d p = (f.dots xs o u).getD p 0) :
    ∃ m', Run.Gives ((List.range us.length).mapM fun d => f.takeInputAdjointTangent d i) m
        (us.map fun u => f.inputOf ((f.dots xs o u).getD · 0) i) m' ∧
      m'.WellSized ∧ m'.sizes = m.sizes := by
  have hproducts : ((List.range us.length).map fun d => f.inputOf (m.adjointTangent d) i) =
      us.map fun u => f.inputOf ((f.dots xs o u).getD · 0) i := by
    refine List.ext_getElem? fun d => ?_
    rcases Nat.lt_or_ge d us.length with hd | hd
    · have hget := List.getElem?_eq_getElem hd
      rw [List.getElem?_map, List.getElem?_map, List.getElem?_range hd, hget, Option.map_some,
        Option.map_some, inputOf_congr hf (hdots d _ hget) hi]
    · rw [List.getElem?_eq_none (by simpa using hd), List.getElem?_eq_none (by simpa using hd)]
  rw [← hproducts]
  exact gives_takeTangents hf hm hwork hi us.length

/-- A memory that is ready for the sweep from output `o` along `us` agrees with the trace. -/
structure ReadyFor (f : Tape F) (xs : List (List F)) (o : Nat) (us : List (Nat → Nat → F))
    (m : Memory F) : Prop where
  wellSized : m.WellSized
  work : f.full.size ≤ m.sizes.work
  adj : 1 ≤ m.adj.size
  adjFwd : us.length ≤ m.adjFwd.size
  values : AgreeBelow f.full.size m.values (f.valueArray xs)
  fwd : ∀ (d : Nat) (u : Nat → Nat → F), us[d]? = some u →
    AgreeBelow f.full.size (m.fwd.getD d #[]) (f.tangentArray xs u)
  seed : AgreeBelow f.full.size (m.adj.getD 0 #[]) (f.unitAdjoint o)
  cleared : ∀ d < us.length,
    AgreeBelow f.full.size (m.adjFwd.getD d #[]) (Array.replicate f.full.size 0)

variable {m m₁ : Memory F} {o : Nat} {us : List (Nat → Nat → F)}

/-- After the forward sweep and the seeding, a memory is ready. -/
theorem readyFor_of_reached
    (hf : f.WellFormed) (hm : m.WellSized) (hwork : f.full.size ≤ m.sizes.work)
    (hnadj : 1 ≤ m.sizes.nadj) (o : Nat) (hnfwd : us.length ≤ m.sizes.nfwd)
    (hreached : f.Reached f.full (fun _ => True) (f.valueArray xs)
      (fun d => f.tangentArray xs (us.getD d fun _ _ => 0)) us.length (clearedTangents us m)
      f.elements.size m₁) :
    f.ReadyFor xs o us { m₁ with adj := m₁.adj.modify 0 (f.seededArray [o] fun _ _ => 1) } := by
  have hsized := hreached.wellSized
  have hsizes : m₁.sizes = m.sizes := hreached.sizes
  have hsecond : m.sizes.second = m.sizes.nfwd := if_pos hnadj
  have hadj : 0 < m₁.adj.size := by
    rw [hsized.adj.1, hsizes]
    exact hnadj
  have hadjFwd : us.length ≤ m₁.adjFwd.size := by
    rw [hsized.adjFwd.1, hsizes, hsecond]
    exact hnfwd
  refine ⟨⟨hsized.values, hsized.fwd, hsized.adj.modify 0 fun w => by simp, hsized.adjFwd⟩,
    hsizes ▸ hwork, by rw [Array.size_modify]; exact hadj, hadjFwd, ?_, fun d u hd => ?_, ?_,
    fun d hd => ?_⟩
  · exact agreeBelow_valueArray hf (by rw [hsized.values, hsizes]; exact hwork)
      fun s => getD_of_holds_full hf hreached.values
  · have hlt := (List.getElem?_eq_some_iff.1 hd).1
    have hseed : us.getD d (fun _ _ => 0) = u := by
      rw [List.getD_eq_getElem?_getD, hd]
      rfl
    refine agreeBelow_tangentArray hf ?_ fun s hs => ?_
    · rw [hsized.fwd.size_getD (by rw [hsizes]; omega), hsizes]
      exact hwork
    · rw [getD_of_holds_full hf (hreached.fwd d hlt) hs, hseed]
  · rw [getD_modify_array _ hadj]
    refine f.agreeBelow_seededArray _ _ ?_ (by simp)
    rw [hsized.adj.size_getD (by rw [hsizes]; exact hnadj), hsizes]
    exact hwork
  · refine ⟨?_, by simp, fun p hp => ?_⟩
    · rw [hsized.adjFwd.size_getD (by rw [← hsized.adjFwd.1]; omega), hsizes]
      exact hwork
    · rw [adjointTangent_of_reached hm hnadj hnfwd hreached d hd, Array.getD_eq_getD_getElem?,
        Array.getElem?_replicate, if_pos hp]
      rfl

/-- The adjoint of a scalar output is a single seed, so the directions start in phase. -/
theorem seeded_of_reached
    (hm : m.WellSized) (hnadj : 1 ≤ m.sizes.nadj) (hone : f.outputLength o = 1)
    (hnfwd : us.length ≤ m.sizes.nfwd)
    (hreached : f.Reached f.full (fun _ => True) (f.valueArray xs)
      (fun d => f.tangentArray xs (us.getD d fun _ _ => 0)) us.length (clearedTangents us m)
      f.elements.size m₁) :
    Seeded us.length ((m₁.adj.modify 0 (f.seededArray [o] fun _ _ => 1)).getD 0 #[])
      fun d => m₁.adjFwd.getD d #[] := by
  have hsizes : m₁.sizes = m.sizes := hreached.sizes
  have hadj : 0 < m₁.adj.size := by
    rw [hreached.wellSized.adj.1, hsizes]
    exact hnadj
  have hseed : ∀ w : Array F, f.seededArray [o] (fun _ _ => 1) w =
      (w.map fun _ => 0).modify (f.outputSlot o 0) (· + 1) := fun w => by
    rw [seededArray, List.foldl_cons, List.foldl_nil, hone]
    rfl
  refine ⟨f.outputSlot o 0, fun p hp => ?_, adjointTangent_of_reached hm hnadj hnfwd hreached⟩
  rw [getD_modify_array _ hadj, hseed, getD_modify_ne hp, getD_clear]

variable [Calculus.NeutralZero F] [Calculus.AbsorbingZero F]

/-- In every direction, the sweep of a memory that is ready walks over the trace. -/
theorem guarded_dots
    (hf : f.WellFormed) (h : f.ReadyFor xs o us m)
    (hseeded : Seeded us.length (m.adj.getD 0 #[]) fun d => m.adjFwd.getD d #[]) (hne : us ≠ [])
    (check : Bool) (op : String) :
    Run.Guarded check
      (∀ u ∈ us, FiniteDots (f.valueArray xs) (f.tangentArray xs u) f.visits (f.unitAdjoint o)
        (Array.replicate f.full.size 0))
      (secondOrderSweep check op us.length (f.segmentsAt f.full)) m
      fun _ m' => m'.WellSized ∧ m'.sizes = m.sizes ∧ ∀ (d : Nat) (u : Nat → Nat → F),
        us[d]? = some u → ∀ p < f.full.size, m'.adjointTangent d p = (f.dots xs o u).getD p 0 := by
  have hsolved : ∀ v ∈ f.visits,
      SolvedAt f.full.size us.length m.values (fun d => m.fwd.getD d #[]) v.1 v.2 :=
    fun v hv => solvedAt_of_agreeBelow hf h.values
      (fun d hd => ⟨_, h.fwd d _ (List.getElem?_eq_getElem hd)⟩) hv
  have hswept := guarded_secondOrderSweep h.wellSized h.work h.adj h.adjFwd
    (List.length_pos_iff.2 hne) hsolved hseeded check op
  have hinside := visits_inside hf
  refine (hswept.imp fun _ m' h' => ?_).congr ?_
  · obtain ⟨hsized, hsizes, hdots⟩ := h'
    refine ⟨hsized, hsizes, fun d u hd p hp => ?_⟩
    have hlt := (List.getElem?_eq_some_iff.1 hd).1
    rw [Memory.adjointTangent, hdots d hlt]
    exact (h.values.dotWalk (h.fwd d u hd) hinside h.seed (h.cleared d hlt)).eq p hp
  · have hiff : ∀ (d : Nat) (u : Nat → Nat → F), us[d]? = some u → _ := fun d u hd =>
      h.values.finiteDots_iff (h.fwd d u hd) hinside h.seed
        (h.cleared d (List.getElem?_eq_some_iff.1 hd).1)
    constructor
    · intro hall u hu
      obtain ⟨d, hd⟩ := List.mem_iff_getElem?.1 hu
      exact (hiff d u hd).1 (hall d (List.getElem?_eq_some_iff.1 hd).1)
    · intro hall d hd
      have hget := List.getElem?_eq_getElem hd
      exact (hiff d _ hget).2 (hall _ (List.mem_of_getElem? hget))

/-- One sweep finds the products along all given tangents, each as if it were alone. -/
theorem guarded_hessianProducts
    (hf : f.WellFormed) (hm : m.WellSized) (hwork : f.full.size ≤ m.sizes.work)
    (hnadj : 1 ≤ m.sizes.nadj) (hfit : FitLists f.inputPatterns xs) (ho : o < f.nOut)
    (hone : f.outputLength o = 1) {i : Nat} (hi : i < f.nIn) (hne : us ≠ [])
    (hnfwd : us.length ≤ m.sizes.nfwd) :
    Run.Guarded f.config.checkFinite (∀ u ∈ us, f.FiniteProduct xs o u)
      (f.hessianProducts (f.segmentsAt f.full) xs o i us) m
      fun products m' => products = us.map (fun u => f.inputOf ((f.dots xs o u).getD · 0) i) ∧
        m'.WellSized ∧ m'.sizes = m.sizes := by
  have hfinite : (∀ u ∈ us, f.FiniteProduct xs o u) ↔ _ := forall_finiteProduct_iff hne
  refine ends_hessianProducts hf hm hwork hfit ho hnfwd (fun hon hbad err herr => ?_)
    fun hpassed m₁ hreached => ?_
  · exact ⟨hon, fun hgood => hbad (hfinite.1 hgood).1, herr⟩
  · have hready := readyFor_of_reached hf hm hwork hnadj o hnfwd hreached
    have hseeded := seeded_of_reached hm hnadj hone hnfwd hreached
    have hdots := guarded_dots hf hready hseeded hne f.config.checkFinite hessianOp
    refine Run.Ends.imp (hdots.bind_gives fun _ m₂ h => ?_)
      (fun _ _ h => ⟨h.1, fun hon => hfinite.2 ⟨hpassed hon, h.2 hon⟩⟩)
      fun _ he => ⟨he.1, fun hgood => he.2.1 (hfinite.1 hgood).2, he.2.2⟩
    obtain ⟨hsized₂, hsizes₂, hdots₂⟩ := h
    have hsizes₂ : m₂.sizes = m.sizes := hsizes₂.trans hreached.sizes
    obtain ⟨m₃, htaken, hsized₃, hsizes₃⟩ := gives_takeDots hf hsized₂
      (by rw [hsizes₂]; exact hwork) hi hdots₂
    exact ⟨_, m₃, htaken, rfl, hsized₃, hsizes₃.trans hsizes₂⟩

end Tape

end SparseDiff
