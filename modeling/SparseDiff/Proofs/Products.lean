import SparseDiff.Assembly.Hessian
import SparseDiff.Proofs.Linear
import SparseDiff.Proofs.SecondOrder

/-!
# Products of a Hessian

A second-order sweep ends with the adjoints of the seeded outputs and with their tangents
(`Tape.gives_sweptTangents`). With adjoint one on a scalar output, it leaves at an input the
product of a Hessian with the input tangent (`Tape.gives_hessianProducts`). The product is
linear in the tangent (`Tape.gradientTangent_eq_sum`); against a second tangent it is the
curvature along the two (`Tape.sum_adjointTangents_mul`, `Tape.pairing_hessianTimes`).
-/

namespace SparseDiff

namespace Tape

variable {F : Type} {f : Tape F}

section Arrays

variable [Zero F]

section Loading

variable {l : Layout} {keep : Nat → Prop}

/-- The adjoint tangents of the listed directions are zero. -/
def clearedTangents (us : List (Nat → Nat → F)) (m : Memory F) : Memory F :=
  { m with adjFwd := modifyEach (fun _ w => w.map fun _ => 0) us m.adjFwd }

theorem wellSized_clearedTangents
    (us : List (Nat → Nat → F)) {m : Memory F} (hm : m.WellSized) :
    (clearedTangents us m).WellSized :=
  ⟨hm.values, hm.fwd, hm.adj, hm.adjFwd.modifyEach (fun _ _ => by simp) us⟩

theorem adjointTangent_clearedTangents
    {us : List (Nat → Nat → F)} {m : Memory F} (hroom : us.length ≤ m.adjFwd.size) {d : Nat}
    (hd : d < us.length) :
    (clearedTangents us m).adjointTangent d = fun _ => 0 := by
  funext p
  rw [Memory.adjointTangent, clearedTangents,
    getD_modifyEach _ hroom (List.getElem?_eq_getElem hd), Array.getD_eq_getD_getElem?,
    Array.getElem?_map]
  cases (m.adjFwd.getD d #[])[p]? <;> rfl

/-- Loading the tangent of every direction and clearing its adjoint tangent. -/
theorem gives_loadTangents
    (hf : f.WellFormed) (hsound : l.Sound f.spans keep) (us : List (Nat → Nat → F))
    {m : Memory F} (hroom : l.size ≤ m.values.size) :
    Run.Gives
      (us.zipIdx.forM fun (u, d) => do
        f.loadTangent l d u
        clearAdjointTangent d) m ()
      (f.loadSeeds l us (clearedTangents us m)) := by
  have hfold : us.zipIdx.foldl (fun (m : Memory F) (item : (Nat → Nat → F) × Nat) =>
      { m with
        fwd := m.fwd.modify item.2 (writeLists l 0 (f.seedLists item.1))
        adjFwd := m.adjFwd.modify item.2 fun w => w.map fun _ => 0 }) m =
      f.loadSeeds l us (clearedTangents us m) := by
    induction us using List.reverseRecOn with
    | nil => rfl
    | append_singleton us u ih =>
        rw [List.zipIdx_append, List.foldl_append, ih]
        simp [loadSeeds, clearedTangents, modifyEach_concat]
  have hloop := (Run.gives_forM
    (f := fun (item : (Nat → Nat → F) × Nat) => do
      f.loadTangent l item.2 item.1
      clearAdjointTangent item.2)
    (g := fun (m : Memory F) (item : (Nat → Nat → F) × Nat) =>
      { m with
        fwd := m.fwd.modify item.2 (writeLists l 0 (f.seedLists item.1))
        adjFwd := m.adjFwd.modify item.2 fun w => w.map fun _ => 0 })
    (I := fun _ m' => l.size ≤ m'.values.size)
    (fun item _ m' hI => ⟨Run.gives_bind.2 ⟨(), _,
      gives_loadTangent hf hsound hI item.2 item.1, Run.gives_modify.2 rfl⟩, hI⟩)
    us.zipIdx m hroom).1
  rw [hfold] at hloop
  exact hloop

end Loading

/-- Reading the adjoint tangent of an input and clearing it. -/
theorem gives_takeInputAdjointTangent
    (hf : f.WellFormed) {i : Nat} (hi : i < f.nIn) {m : Memory F}
    (hroom : f.full.size ≤ m.values.size) (d : Nat) :
    Run.Gives (f.takeInputAdjointTangent d i) m (f.inputOf (m.adjointTangent d) i)
      { m with
        adjFwd := m.adjFwd.modify d
          (writeAt (f.full.slot i 0) (List.replicate (f.inputLength i) 0)) } := by
  unfold takeInputAdjointTangent
  simp only [inputRange_eq hf hi, Run.gives_bind, Run.gives_ofExcept, Run.gives_requireSlots,
    Run.gives_get, Run.gives_modify, Run.gives_pure]
  exact ⟨_, m, ⟨rfl, rfl⟩, (), m,
    ⟨fun _ hr => Nat.lt_of_lt_of_le (lt_of_mem_inputSlots hf hi hr) hroom, rfl⟩, m, m,
    ⟨rfl, rfl⟩, (), _, rfl, map_getD_inputSlots .., rfl⟩

/-- The directions still to be read are as they were before the first was. -/
structure UnreadTangents (before : Memory F) (rest : List Nat) (m : Memory F) : Prop where
  wellSized : m.WellSized
  sizes : m.sizes = before.sizes
  distinct : rest.Nodup
  tangent : ∀ d ∈ rest, m.adjointTangent d = before.adjointTangent d

/-- Reading one input in several directions. -/
theorem gives_takeTangents
    (hf : f.WellFormed) {m : Memory F} (hm : m.WellSized) (hwork : f.full.size ≤ m.sizes.work)
    {i : Nat} (hi : i < f.nIn) (n : Nat) :
    ∃ m', Run.Gives ((List.range n).mapM fun d => f.takeInputAdjointTangent d i) m
        ((List.range n).map fun d => f.inputOf (m.adjointTangent d) i) m' ∧
      m'.WellSized ∧ m'.sizes = m.sizes := by
  obtain ⟨m', hread, hend⟩ := Run.gives_mapM
    (f := fun d => f.takeInputAdjointTangent d i)
    (g := fun d => f.inputOf (m.adjointTangent d) i) (I := UnreadTangents m)
    (fun d rest m₁ h => by
      obtain ⟨hnew, hdistinct⟩ := List.nodup_cons.1 h.distinct
      have htaken := gives_takeInputAdjointTangent hf hi (m := m₁)
        (by rw [h.wellSized.values, h.sizes]; exact hwork) d
      rw [h.tangent d (List.mem_cons_self ..)] at htaken
      refine ⟨_, htaken, ⟨h.wellSized.values, h.wellSized.fwd, h.wellSized.adj,
        h.wellSized.adjFwd.modify d fun w => size_writeAt ..⟩, h.sizes, hdistinct,
        fun d' hd' => ?_⟩
      have hne : d' ≠ d := by
        rintro rfl
        exact hnew hd'
      rw [← h.tangent d' (List.mem_cons_of_mem _ hd')]
      funext p
      simp only [Memory.adjointTangent, getD_modify_array_ne m₁.adjFwd hne])
    (List.range n) m ⟨hm, rfl, List.nodup_range, fun _ _ => rfl⟩
  exact ⟨m', hread, hend.wellSized, hend.sizes⟩

end Arrays

variable [CommRing F] [Calculus F]

/--
The tangents, along the input tangents `u`, of the adjoints that the listed outputs have with
seeds `v`: what a second-order sweep leaves.
-/
def adjointTangents (f : Tape F) (xs : List (List F)) (os : List Nat) (v u : Nat → Nat → F) :
    Nat → F :=
  pullTangentAll (f.valueArray xs) (f.tangentArray xs u) f.visits (f.seedVector os v) fun _ => 0

/--
What a second-order sweep leaves where the nonzeros of output `o` have adjoint one and the
inputs have the tangents `u`.
-/
def gradientTangent (f : Tape F) (xs : List (List F)) (o : Nat) (u : Nat → Nat → F) : Nat → F :=
  pullTangentAll (f.valueArray xs) (f.tangentArray xs u) f.visits
    (f.seedVector [o] fun _ _ => 1) fun _ => 0

variable [Calculus.Exact F]

/-- The forward half of a sweep: values and tangents, with the adjoint tangents cleared. -/
theorem gives_forwardTangents
    (hf : f.WellFormed) {m : Memory F} (hm : m.WellSized) (hwork : f.full.size ≤ m.sizes.work)
    {xs : List (List F)} (hfit : FitLists f.inputPatterns xs) {us : List (Nat → Nat → F)}
    (hnfwd : us.length ≤ m.sizes.nfwd) :
    ∃ m', Run.Gives
        (do
          f.loadInputs f.full xs
          us.zipIdx.forM fun (u, d) => do
            f.loadTangent f.full d u
            clearAdjointTangent d
          forwardSweep f.config.checkFinite hessianOp us.length (f.segmentsAt f.full)) m () m' ∧
      f.Reached f.full (fun _ => True) (f.valueArray xs)
        (fun d => f.tangentArray xs (us.getD d fun _ _ => 0)) us.length (clearedTangents us m)
        f.elements.size m' := by
  have hsound := hf.full_sound fun _ => True
  have hroom : f.full.size ≤ m.values.size := by
    rw [hm.values]
    exact hwork
  have hloaded := gives_loadInputs hf hsound hroom hfit
  have hseeded := gives_loadTangents hf hsound us
    (m := { m with values := writeLists f.full 0 xs m.values }) (by simpa using hroom)
  have hswept := gives_forwardSweep us.length hf hsound f.config.checkFinite hessianOp
    Calculus.Exact.isFinite
    (m := f.loadSeeds f.full us
      (clearedTangents us { m with values := writeLists f.full 0 xs m.values }))
    (by simpa [loadSeeds, clearedTangents] using hroom)
  exact ⟨f.afterForward f.full xs us (clearedTangents us m),
    Run.gives_bind.2 ⟨(), _, hloaded, Run.gives_bind.2 ⟨(), _, hseeded, hswept⟩⟩,
    reached_afterForward hf hsound (wellSized_clearedTangents us hm) hwork hnfwd hfit⟩

/-- From values, tangents and seeds: the sweep leaves adjoints and adjoint tangents. -/
theorem gives_sweptTangents
    (hf : f.WellFormed) {m m₁ : Memory F} (hm : m.WellSized)
    (hwork : f.full.size ≤ m.sizes.work) (hnadj : 1 ≤ m.sizes.nadj) {xs : List (List F)}
    {os : List Nat} (hos : ∀ o ∈ os, o < f.nOut) (v : Nat → Nat → F)
    {us : List (Nat → Nat → F)} (hnfwd : us.length ≤ m.sizes.nfwd)
    (hreached : f.Reached f.full (fun _ => True) (f.valueArray xs)
      (fun d => f.tangentArray xs (us.getD d fun _ _ => 0)) us.length (clearedTangents us m)
      f.elements.size m₁) :
    ∃ m₂, Run.Gives
        (secondOrderSweep f.config.checkFinite hessianOp us.length (f.segmentsAt f.full))
        { m₁ with adj := m₁.adj.modify 0 (f.seededArray os v) } () m₂ ∧
      m₂.WellSized ∧ m₂.sizes = m.sizes ∧
      m₂.adjoint 0 = f.adjoints (f.valueArray xs) os v ∧
      ∀ d < us.length, m₂.adjointTangent d =
        f.adjointTangents xs os v (us.getD d fun _ _ => 0) := by
  have hsizes : m₁.sizes = m.sizes := hreached.sizes
  have hsized := hreached.wellSized
  rw [← hsizes] at hwork hnadj hnfwd
  obtain ⟨m₂, hswept, hsized₂, hsizes₂, hadjoint₂, htangent₂⟩ := gives_secondOrderSweep hf
    (m := { m₁ with adj := m₁.adj.modify 0 (f.seededArray os v) })
    ⟨hsized.values, hsized.fwd, hsized.adj.modify 0 fun w => by simp, hsized.adjFwd⟩
    hwork hnadj hnfwd f.config.checkFinite hessianOp
  have hseeded : Memory.adjoint
      { m₁ with adj := m₁.adj.modify 0 (f.seededArray os v) } 0 = f.seedVector os v := by
    funext p
    rw [Memory.adjoint, getD_modify_array _ (by rw [hsized.adj.1]; exact hnadj)]
    exact getD_seededArray hf hos _ (by rw [hsized.adj.size_getD hnadj]; exact hwork) p
  have hvalues : ∀ s < f.full.size, m₁.values.getD s 0 = (f.valueArray xs).getD s 0 :=
    fun s hs => getD_of_holds_full hf hreached.values hs
  refine ⟨m₂, hswept, hsized₂, hsizes₂.trans hsizes, ?_, fun d hd => ?_⟩
  · rw [hadjoint₂, hseeded]
    exact adjoints_congr hf hvalues os v
  · have hcleared : m₁.adjointTangent d = fun _ => 0 := by
      have hsecond : us.length ≤ m.adjFwd.size := by
        rw [hm.adjFwd.1, MemorySizes.second, if_pos (by rw [← hsizes]; exact hnadj), ← hsizes]
        exact hnfwd
      have hkept : m₁.adjointTangent d = (clearedTangents us m).adjointTangent d := by
        funext p
        rw [Memory.adjointTangent, Memory.adjointTangent, hreached.adjFwd]
      rw [hkept, adjointTangent_clearedTangents hsecond hd]
    have hstart : Memory.adjointTangent
        { m₁ with adj := m₁.adj.modify 0 (f.seededArray os v) } d = fun _ => 0 :=
      hcleared
    rw [htangent₂ d hd, hseeded, hstart, adjointTangents]
    refine pullTangentAll_congr (fun a ha => ?_) _ _
    refine ⟨hvalues _ (lt_of_mem_visits hf ha).1, fun r hr => ?_⟩
    have hlt := slots_lt_of_mem_visits hf ha r hr
    exact ⟨hvalues r hlt, getD_of_holds_full hf (hreached.fwd d hd) hlt⟩

/-- The backward half of a sweep: from values and tangents to the products. -/
theorem gives_backwardTangents
    (hf : f.WellFormed) {m m₁ : Memory F} (hm : m.WellSized)
    (hwork : f.full.size ≤ m.sizes.work) (hnadj : 1 ≤ m.sizes.nadj) {xs : List (List F)}
    {o i : Nat} (ho : o < f.nOut) (hi : i < f.nIn) {us : List (Nat → Nat → F)}
    (hnfwd : us.length ≤ m.sizes.nfwd)
    (hreached : f.Reached f.full (fun _ => True) (f.valueArray xs)
      (fun d => f.tangentArray xs (us.getD d fun _ _ => 0)) us.length (clearedTangents us m)
      f.elements.size m₁) :
    ∃ m', Run.Gives
        (do
          clearAdjoint 0
          f.seedAdjoint 0 o fun _ => 1
          secondOrderSweep f.config.checkFinite hessianOp us.length (f.segmentsAt f.full)
          (List.range us.length).mapM fun d => f.takeInputAdjointTangent d i) m₁
        (us.map fun u => f.inputOf (f.gradientTangent xs o u) i) m' ∧
      m'.WellSized ∧ m'.sizes = m.sizes := by
  have hroom : f.full.size ≤ m₁.values.size := by
    rw [hreached.wellSized.values, show m₁.sizes = m.sizes from hreached.sizes]
    exact hwork
  have hseed := gives_seed hf ho hroom 0 fun _ _ => (1 : F)
  obtain ⟨m₂, hswept, hsized₂, hsizes₂, -, htangent₂⟩ := gives_sweptTangents hf hm hwork hnadj
    (show ∀ o' ∈ [o], o' < f.nOut by simpa using ho) (fun _ _ => 1) hnfwd hreached
  obtain ⟨m₃, htaken, hsized₃, hsizes₃⟩ := gives_takeTangents hf hsized₂
    (by rw [hsizes₂]; exact hwork) hi us.length
  have hproducts : ((List.range us.length).map fun d => f.inputOf (m₂.adjointTangent d) i) =
      us.map fun u => f.inputOf (f.gradientTangent xs o u) i := by
    refine List.ext_getElem? fun d => ?_
    rcases Nat.lt_or_ge d us.length with hd | hd
    · simp [hd, htangent₂ d hd, gradientTangent, adjointTangents]
    · simp [hd]
  rw [hproducts] at htaken
  obtain ⟨_, _, hclear, hseed⟩ := Run.gives_bind.1 hseed
  exact ⟨m₃, Run.gives_bind.2 ⟨_, _, hclear, Run.gives_bind.2 ⟨_, _, hseed,
    Run.gives_bind.2 ⟨(), m₂, hswept, htaken⟩⟩⟩, hsized₃, hsizes₃.trans hsizes₂⟩

/-- One sweep finds the products with all given tangents. -/
theorem gives_hessianProducts
    (hf : f.WellFormed) {m : Memory F} (hm : m.WellSized) (hwork : f.full.size ≤ m.sizes.work)
    (hnadj : 1 ≤ m.sizes.nadj) {xs : List (List F)} (hfit : FitLists f.inputPatterns xs)
    {o i : Nat} (ho : o < f.nOut) (hi : i < f.nIn) {us : List (Nat → Nat → F)}
    (hnfwd : us.length ≤ m.sizes.nfwd) :
    ∃ m', Run.Gives (f.hessianProducts (f.segmentsAt f.full) xs o i us) m
        (us.map fun u => f.inputOf (f.gradientTangent xs o u) i) m' ∧
      m'.WellSized ∧ m'.sizes = m.sizes := by
  obtain ⟨m₁, hforward, hreached⟩ := gives_forwardTangents hf hm hwork hfit hnfwd
  obtain ⟨m', hbackward, hsized, hsizes⟩ :=
    gives_backwardTangents hf hm hwork hnadj ho hi hnfwd hreached
  obtain ⟨_, _, hinputs, hforward⟩ := Run.gives_bind.1 hforward
  obtain ⟨_, _, htangents, hswept⟩ := Run.gives_bind.1 hforward
  exact ⟨m', Run.gives_bind.2 ⟨_, _, hinputs, Run.gives_bind.2 ⟨_, _, htangents,
    Run.gives_bind.2 ⟨(), m₁, hswept, hbackward⟩⟩⟩, hsized, hsizes⟩

/-- Derivative by nonzero `c` of input `i` of the derivative of output `o` by nonzero `r`. -/
def secondDerivative (f : Tape F) (xs : List (List F)) (o i r c : Nat) : F :=
  f.gradientTangent xs o (unitTangent i c) (f.full.slot i r)

/-- Products are linear in the tangent. -/
theorem gradientTangent_eq_sum
    (hf : f.WellFormed) (xs : List (List F)) (o : Nat) (u : Nat → Nat → F) (p : Nat) :
    f.gradientTangent xs o u p =
      ∑ i ∈ Finset.range f.nIn, ∑ k ∈ Finset.range (f.inputLength i),
        u i k * f.gradientTangent xs o (unitTangent i k) p := by
  have htangent : ∀ v ∈ f.visits, ∀ s ∈ v.2.slots, (f.tangentArray xs u).getD s 0 =
      ∑ n ∈ (Finset.range f.nIn).sigma fun i => Finset.range (f.inputLength i),
        u n.1 n.2 * (f.tangentArray xs (unitTangent n.1 n.2)).getD s 0 := by
    intro v hv s hs
    rw [Finset.sum_sigma]
    exact tangentArray_eq_sum hf xs u (slots_lt_of_mem_visits hf hv s hs)
  have hsum := pullTangentAll_eq_sum (w := f.valueArray xs) htangent
    (f.seedVector [o] fun _ _ => 1) (fun _ _ => 0) p
  simp only [mul_zero, Finset.sum_const_zero, Finset.sum_sigma] at hsum
  exact hsum

/-- With a tangent of one input only, a product is a sum of columns of its Hessian. -/
theorem gradientTangent_input
    (hf : f.WellFormed) (xs : List (List F)) (o : Nat) {i : Nat} (hi : i < f.nIn)
    {u : Nat → Nat → F} (hu : ∀ j k, j ≠ i → u j k = 0) (r : Nat) :
    f.gradientTangent xs o u (f.full.slot i r) =
      ∑ k ∈ Finset.range (f.inputLength i), u i k * f.secondDerivative xs o i r k := by
  rw [gradientTangent_eq_sum hf, Finset.sum_eq_single i]
  · rfl
  · intro j _ hj
    refine Finset.sum_eq_zero fun k _ => ?_
    rw [hu j k hj, zero_mul]
  · intro hnot
    exact absurd (Finset.mem_range.2 hi) hnot

/-- Adjoint tangents against a second input tangent are the curvature along the two. -/
theorem sum_adjointTangents_mul
    (hf : f.WellFormed) (xs : List (List F)) (os : List Nat) (v u u' : Nat → Nat → F) :
    ∑ i ∈ Finset.range f.nIn, ∑ k ∈ Finset.range (f.inputLength i),
        f.adjointTangents xs os v u (f.full.slot i k) * u' i k =
      curvature (f.valueArray xs) (f.tangentArray xs u) (f.tangentArray xs u') f.visits
        (f.seedVector os v) := by
  have hinputs := sum_range_full_of_inputs (f := f) hf
    (g := fun s => f.adjointTangents xs os v u s * (f.tangentArray xs u').getD s 0) (by
      intro a ha hinput
      have hend := pullTangentAll_eq_zero (f.valueArray xs) (f.tangentArray xs u)
        (readersFirst_visits hf) (fun _ => not_mem_slots_of_mem_visits hf) (s := a.1) (c := a.2)
        ha hinput (f.seedVector os v) fun _ => 0
      simp only [adjointTangents, hend, zero_mul])
  calc
    _ = ∑ i ∈ Finset.range f.nIn, ∑ k ∈ Finset.range (f.inputLength i),
          f.adjointTangents xs os v u (f.full.slot i k) *
            (f.tangentArray xs u').getD (f.full.slot i k) 0 := by
        refine Finset.sum_congr rfl fun i hi => Finset.sum_congr rfl fun k hk => ?_
        rw [tangentArray_input hf (Finset.mem_range.1 hi) (Finset.mem_range.1 hk)]
    _ = ∑ s ∈ Finset.range f.full.size,
          f.adjointTangents xs os v u s * (f.tangentArray xs u').getD s 0 := hinputs.symm
    _ = _ := by
        have hcurved := sum_pullTangentAll (t := f.tangentArray xs u)
          (solves_tangentArray hf xs u') (f.seedVector os v) fun _ => 0
        simp only [zero_mul, Finset.sum_const_zero, zero_add] at hcurved
        exact hcurved

/-- A second derivative is the curvature along the tangents of both its nonzeros. -/
theorem secondDerivative_eq_curvature
    (hf : f.WellFormed) (xs : List (List F)) (o : Nat) {i r : Nat} (hi : i < f.nIn)
    (hr : r < f.inputLength i) (c : Nat) :
    f.secondDerivative xs o i r c =
      curvature (f.valueArray xs) (f.tangentArray xs (unitTangent i c))
        (f.tangentArray xs (unitTangent i r)) f.visits (f.seedVector [o] fun _ _ => 1) := by
  rw [← sum_adjointTangents_mul hf]
  exact (sum_mul_unitTangent hi hr fun j k =>
    f.gradientTangent xs o (unitTangent i c) (f.full.slot j k)).symm

/-- The product of the Hessian of output `o` with the tangents `u`, at every input. -/
def hessianTimes (f : Tape F) (xs : List (List F)) (o : Nat) (u : List (List F)) :
    List (List F) :=
  (List.range f.nIn).map (f.inputOf (f.gradientTangent xs o (seedOf u)))

/-- Every sweep that is accepted finds these products at its input. -/
theorem hessianProducts_eq_hessianTimes
    (hf : f.WellFormed) {m : Memory F} (hm : m.WellSized) {xs : List (List F)}
    (hfit : FitLists f.inputPatterns xs) {o i : Nat} (ho : o < f.nOut) (hi : i < f.nIn)
    {us : List (List (List F))}
    (hcheck : m.sizes.check hessianOp (f.requiredMemory us.length 1) = .ok ()) :
    (f.hessianProducts (f.segmentsAt f.full) xs o i (us.map seedOf)).alone m =
      .ok (us.map fun u => (f.hessianTimes xs o u).getD i []) := by
  obtain ⟨hwork, hnfwd, hnadj, -⟩ := MemorySizes.check_eq_ok_iff.1 hcheck
  obtain ⟨m', hgives, -⟩ := gives_hessianProducts hf hm hwork hnadj hfit ho hi
    (show (us.map seedOf).length ≤ m.sizes.nfwd by rw [List.length_map]; exact hnfwd)
  have hproducts : ((us.map seedOf).map fun u => f.inputOf (f.gradientTangent xs o u) i) =
      us.map fun u => (f.hessianTimes xs o u).getD i [] := by
    rw [List.map_map]
    refine List.map_congr_left fun u _ => ?_
    simp [hessianTimes, hi]
  rw [hproducts] at hgives
  exact Run.alone_eq_ok_iff.2 ⟨m', hgives⟩

/-- Against a second tangent, the products are the curvature along the two. -/
theorem pairing_hessianTimes
    (hf : f.WellFormed) (xs : List (List F)) (o : Nat) (u : List (List F)) {v : List (List F)}
    (hv : FitLists f.inputPatterns v) :
    pairing v (f.hessianTimes xs o u) =
      curvature (f.valueArray xs) (f.tangentArray xs (seedOf u)) (f.tangentArray xs (seedOf v))
        f.visits (f.seedVector [o] fun _ _ => 1) := by
  rw [hessianTimes, pairing_inputOf hv]
  exact sum_adjointTangents_mul hf xs [o] (fun _ _ => 1) (seedOf u) (seedOf v)

end Tape

end SparseDiff
