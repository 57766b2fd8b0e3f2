import SparseDiff.Proofs.Seeds

/-!
# Duality of tangents and adjoints

The adjoints that a sweep leaves at the inputs are the transpose of the forward sweep:
against any input tangents they sum to the same as the seeds against the output tangents
(`Tape.sum_adjoints_mul`). Over exact arithmetic every accepted evaluation returns, and its
two kinds of sensitivities are dual.
-/

namespace SparseDiff

variable {F : Type}

/-- A sum over all items of consecutive blocks, block by block. -/
theorem sum_range_total
    [CommRing F] (ns : List Nat) (g : Nat → F) :
    ∑ s ∈ Finset.range (total ns), g s =
      ∑ p ∈ Finset.range ns.length,
        ∑ k ∈ Finset.range (ns.getD p 0), g (total (ns.take p) + k) := by
  induction ns using List.reverseRecOn with
  | nil => simp
  | append_singleton ns n ih =>
      have htotal : total (ns ++ [n]) = total ns + n := by simp [total_eq_sum]
      rw [htotal, Finset.sum_range_add, ih, List.length_append, List.length_singleton,
        Finset.sum_range_succ]
      congr 1
      · refine Finset.sum_congr rfl fun p hp => ?_
        have hlt := Finset.mem_range.1 hp
        rw [List.take_append_of_le_length (by omega)]
        simp [List.getD_eq_getElem?_getD, List.getElem?_append_left hlt]
      · simp

namespace Tape

variable {f : Tape F}

/-- A sum over the slots of the full layout, element by element. -/
theorem sum_range_full
    [CommRing F] (hf : f.WellFormed) (g : Nat → F) :
    ∑ s ∈ Finset.range f.full.size, g s =
      ∑ p ∈ Finset.range f.elements.size,
        ∑ k ∈ Finset.range ((f.elements[p]?.map Element.nnz).getD 0), g (f.full.slot p k) := by
  have hsize : f.full.size = total (f.spans.map Span.length) := by
    conv_lhs => rw [hf.full]
    rw [Layout.size_ofLengths, total_eq_sum]
    rfl
  have hlength : (f.spans.map Span.length).length = f.elements.size := by simp [spans]
  rw [hsize, sum_range_total, hlength]
  refine Finset.sum_congr rfl fun p hp => ?_
  have hlt := Finset.mem_range.1 hp
  have hnnz : (f.spans.map Span.length).getD p 0 = (f.elements[p]?.map Element.nnz).getD 0 := by
    simp [List.getD_eq_getElem?_getD, spans, span, Function.comp_def]
  rw [hnnz]
  refine Finset.sum_congr rfl fun k _ => ?_
  have hslot : f.full.slot p k = total ((f.spans.map Span.length).take p) + k := by
    conv_lhs => rw [hf.full]
    exact Layout.slot_ofLengths f.spans (by simpa [spans] using hlt) k
  rw [hslot]

/-- A sum over numbers that vanish outside the inputs, input by input. -/
theorem sum_range_full_of_inputs
    [CommRing F] (hf : f.WellFormed) {g : Nat → F}
    (hg : ∀ v ∈ f.visits, v.2.isInput = false → g v.1 = 0) :
    ∑ s ∈ Finset.range f.full.size, g s =
      ∑ i ∈ Finset.range f.nIn, ∑ k ∈ Finset.range (f.inputLength i), g (f.full.slot i k) := by
  rw [sum_range_full hf]
  have hinputs : ∑ i ∈ Finset.range f.nIn, ∑ k ∈ Finset.range (f.inputLength i),
      g (f.full.slot i k) =
      ∑ i ∈ Finset.range f.nIn, ∑ k ∈ Finset.range ((f.elements[i]?.map Element.nnz).getD 0),
        g (f.full.slot i k) := by
    refine Finset.sum_congr rfl fun i hi => ?_
    obtain ⟨e, he, hnnz⟩ := hf.element_of_input (Finset.mem_range.1 hi)
    rw [← hnnz, he]
    rfl
  rw [hinputs]
  refine (Finset.sum_subset (Finset.range_subset_range.2 hf.nIn_le) fun p hp hlate => ?_).symm
  have hlt := Finset.mem_range.1 hp
  have he := Array.getElem?_eq_getElem hlt
  have hinput : f.elements[p].instr.isInput = false := by
    have hiff := hf.isInput_iff p _ he
    rw [Finset.mem_range] at hlate
    cases hval : f.elements[p].instr.isInput with
    | false => rfl
    | true => exact absurd (hiff.1 hval) hlate
  refine Finset.sum_eq_zero fun k hk => ?_
  rw [he, Option.map_some, Option.getD_some, Finset.mem_range] at hk
  exact hg _ (mem_visits_iff.2 ⟨p, _, k, he, hk, rfl⟩) (by simpa using hinput)

/-- The tangents of a trace solve the equations of the visited cells. -/
theorem tangentArray_of_mem_visits
    [Zero F] [Add F] [Mul F] [Calculus F] (hf : f.WellFormed) {xs : List (List F)}
    {u : Nat → Nat → F} {a : Nat × Cell F} (ha : a ∈ f.visits) (hinput : a.2.isInput = false) :
    (f.tangentArray xs u).getD a.1 0 =
      a.2.tangent (f.valueArray xs) ((f.valueArray xs).getD a.1 0) (f.tangentArray xs u) := by
  rw [← Cell.evalTangent_of_not_input hinput u]
  exact getD_tangentArray hf xs u (getElem?_trace_of_mem_visits hf ha)

section Adjoints

variable [CommRing F] [Calculus F]

/-- What an adjoint sweep leaves where the listed outputs have seeds `v` and `w` holds values. -/
def adjoints (f : Tape F) (w : Array F) (os : List Nat) (v : Nat → Nat → F) : Nat → F :=
  pullAll w f.visits (f.seedVector os v)

/-- The adjoints depend on the values of the full layout only. -/
theorem adjoints_congr
    (hf : f.WellFormed) {w w' : Array F} (h : ∀ s < f.full.size, w.getD s 0 = w'.getD s 0)
    (os : List Nat) (v : Nat → Nat → F) :
    f.adjoints w os v = f.adjoints w' os v := by
  refine pullAll_congr (fun a ha => ?_) _
  obtain ⟨hlt, hslots⟩ := lt_of_mem_visits hf ha
  exact ⟨h _ hlt, fun r hr => h r (by have := hslots r hr; omega)⟩

/-- Within the full layout, tangents solve the equations of the cells. -/
theorem solves_tangentArray
    (hf : f.WellFormed) (xs : List (List F)) (u : Nat → Nat → F) :
    ∀ a ∈ f.visits, a.1 < f.full.size ∧ (∀ r ∈ a.2.slots, r < f.full.size) ∧
      (a.2.isInput = false → (f.tangentArray xs u).getD a.1 0 =
        a.2.tangent (f.valueArray xs) ((f.valueArray xs).getD a.1 0) (f.tangentArray xs u)) :=
  fun _ ha => ⟨(lt_of_mem_visits hf ha).1, slots_lt_of_mem_visits hf ha,
    tangentArray_of_mem_visits hf ha⟩

/-- Input nonzeros have the tangents of the seed. -/
theorem tangentArray_input
    (hf : f.WellFormed) {xs : List (List F)} {u : Nat → Nat → F} {i k : Nat} (hi : i < f.nIn)
    (hk : k < f.inputLength i) :
    (f.tangentArray xs u).getD (f.full.slot i k) 0 = u i k := by
  obtain ⟨e, he, hnnz⟩ := hf.element_of_input hi
  rw [getD_tangentArray hf xs u (getElem?_trace hf he (by omega : k < e.nnz)),
    cellAt_input hf he hi]
  rfl

variable [Calculus.Exact F]

/-- Input adjoints against input tangents are output seeds against output tangents. -/
theorem sum_adjoints_mul
    (hf : f.WellFormed) {os : List Nat} (hos : ∀ o ∈ os, o < f.nOut) (v u : Nat → Nat → F)
    (xs : List (List F)) :
    ∑ i ∈ Finset.range f.nIn, ∑ k ∈ Finset.range (f.inputLength i),
        f.adjoints (f.valueArray xs) os v (f.full.slot i k) * u i k =
      (os.map fun o => ∑ k ∈ Finset.range (f.outputLength o),
        v o k * (f.tangentArray xs u).getD (f.outputSlot o k) 0).sum := by
  have hinputs := sum_range_full_of_inputs (f := f) hf
    (g := fun s => f.adjoints (f.valueArray xs) os v s * (f.tangentArray xs u).getD s 0) (by
      intro a ha hinput
      have hend := pullAll_eq_zero (f.valueArray xs) (readersFirst_visits hf)
        (fun _ => not_mem_slots_of_mem_visits hf) (s := a.1) (c := a.2) ha hinput
        (f.seedVector os v)
      simp only [adjoints, hend, zero_mul])
  have hsolves := solves_tangentArray hf xs u
  calc
    _ = ∑ i ∈ Finset.range f.nIn, ∑ k ∈ Finset.range (f.inputLength i),
          f.adjoints (f.valueArray xs) os v (f.full.slot i k) *
            (f.tangentArray xs u).getD (f.full.slot i k) 0 := by
        refine Finset.sum_congr rfl fun i hi => Finset.sum_congr rfl fun k hk => ?_
        rw [tangentArray_input hf (Finset.mem_range.1 hi) (Finset.mem_range.1 hk)]
    _ = ∑ s ∈ Finset.range f.full.size,
          f.adjoints (f.valueArray xs) os v s * (f.tangentArray xs u).getD s 0 := by
        exact hinputs.symm
    _ = ∑ s ∈ Finset.range f.full.size,
          f.seedVector os v s * (f.tangentArray xs u).getD s 0 := by
        unfold adjoints
        exact sum_pullAll (w := f.valueArray xs) hsolves (f.seedVector os v)
    _ = _ := sum_seedVector_mul hf hos v _

end Adjoints

section Sensitivities

/-- A loop that changes the adjoint array of every item. -/
theorem gives_modifyEach
    {α : Type} (body : α → Nat → Run F Unit) {g : α → Array F → Array F} {n : Nat}
    {items : List α}
    (hbody : ∀ x ∈ items, ∀ (d : Nat) (m : Memory F), n ≤ m.values.size →
      Run.Gives (body x d) m () { m with adj := m.adj.modify d (g x) })
    {m : Memory F} (hroom : n ≤ m.values.size) :
    Run.Gives (items.zipIdx.forM fun (x, d) => body x d) m ()
      { m with adj := modifyEach g items m.adj } := by
  have hfold : ∀ (items : List α) (m : Memory F),
      items.zipIdx.foldl
        (fun m (item : α × Nat) => { m with adj := m.adj.modify item.2 (g item.1) }) m =
      { m with adj := modifyEach g items m.adj } := by
    intro items m
    induction items using List.reverseRecOn with
    | nil => rfl
    | append_singleton items x ih =>
        rw [List.zipIdx_append, List.foldl_append, ih, modifyEach_concat]
        simp
  have hloop := (Run.gives_forM (f := fun (item : α × Nat) => body item.1 item.2)
    (g := fun m item => { m with adj := m.adj.modify item.2 (g item.1) })
    (I := fun rest m' => n ≤ m'.values.size ∧ ∀ item ∈ rest, item.1 ∈ items)
    (fun item rest m' hI => ⟨hbody _ (hI.2 item (List.mem_cons_self ..)) item.2 m' hI.1, hI.1,
      fun i hi => hI.2 i (List.mem_cons_of_mem _ hi)⟩)
    items.zipIdx m ⟨hroom, fun item hitem => List.fst_mem_of_mem_zipIdx hitem⟩).1
  rw [hfold] at hloop
  exact hloop

section Arrays

variable [Zero F] [Add F]

/-- Seed an adjoint array for every item: outputs `os x` with seeds `v x`. -/
def withSeeds {α : Type} (f : Tape F) (os : α → List Nat) (v : α → Nat → Nat → F)
    (items : List α) (m : Memory F) : Memory F :=
  { m with adj := modifyEach (fun x => f.seededArray (os x) (v x)) items m.adj }

theorem wellSized_withSeeds
    {α : Type} (os : α → List Nat) (v : α → Nat → Nat → F) (items : List α) {m : Memory F}
    (hm : m.WellSized) :
    (f.withSeeds os v items m).WellSized :=
  ⟨hm.values, hm.fwd, hm.adj.modifyEach (fun _ _ => by simp) items, hm.adjFwd⟩

theorem gives_withSeeds
    (hf : f.WellFormed) {α : Type} {items : List α} {os : α → List Nat}
    (hos : ∀ x ∈ items, ∀ o ∈ os x, o < f.nOut) (v : α → Nat → Nat → F) {m : Memory F}
    (hm : m.WellSized) (hwork : f.full.size ≤ m.sizes.work) :
    Run.Gives
      (items.zipIdx.forM fun (x, d) => do
        clearAdjoint d
        (os x).forM fun o => f.seedAdjoint d o (v x o)) m ()
      (f.withSeeds os v items m) :=
  gives_modifyEach
    (fun x d => do
      clearAdjoint d
      (os x).forM fun o => f.seedAdjoint d o (v x o))
    (fun x hx d _ hroom => gives_seeds hf (hos x hx) hroom d (v x))
    (by rw [hm.values]; exact hwork)

end Arrays

/-- Reading all inputs of the first directions. -/
theorem gives_takeAll
    [Zero F] (hf : f.WellFormed) {m : Memory F} (hm : m.WellSized)
    (hwork : f.full.size ≤ m.sizes.work) {n : Nat} (hn : n ≤ m.sizes.nadj) :
    ∃ m', Run.Gives
      ((List.range n).mapM fun d => (List.range f.nIn).mapM fun i => f.takeInputAdjoint d i) m
      ((List.range n).map fun d => (List.range f.nIn).map (f.inputOf (m.adjoint d))) m' := by
  refine (Run.gives_mapM
    (I := fun rest m' => rest.Nodup ∧ (∀ d ∈ rest, d < n) ∧ m'.WellSized ∧ m'.sizes = m.sizes ∧
      ∀ d ∈ rest, m'.adjoint d = m.adjoint d)
    (f := fun d => (List.range f.nIn).mapM fun i => f.takeInputAdjoint d i)
    (g := fun d => (List.range f.nIn).map (f.inputOf (m.adjoint d)))
    (fun d rest m' hI => ?_) (List.range n) m
    ⟨List.nodup_range, fun d hd => List.mem_range.1 hd, hm, rfl, fun _ _ => rfl⟩).imp
    fun m' h => h.1
  obtain ⟨hnodup, hrest, hsized, hsizes, hsame⟩ := hI
  obtain ⟨hnew, hnodup⟩ := List.nodup_cons.1 hnodup
  have hd := hrest d (List.mem_cons_self ..)
  obtain ⟨m'', hgives, hbut⟩ := gives_takeInputs hf hsized (by rw [hsizes]; exact hwork)
    (d := d) (by rw [hsizes]; omega)
  rw [hsame d (List.mem_cons_self ..)] at hgives
  refine ⟨m'', hgives, hnodup, fun d' hd' => hrest d' (List.mem_cons_of_mem _ hd'),
    hbut.wellSized, hbut.sizes.trans hsizes, fun d' hd' => ?_⟩
  have hne : d' ≠ d := by
    rintro rfl
    exact hnew hd'
  rw [hbut.adjoint d' hne, hsame d' (List.mem_cons_of_mem _ hd')]

variable [CommRing F]

theorem adjoint_withSeeds
    (hf : f.WellFormed) {α : Type} {items : List α} {os : α → List Nat}
    (hos : ∀ x ∈ items, ∀ o ∈ os x, o < f.nOut) (v : α → Nat → Nat → F) {m : Memory F}
    (hm : m.WellSized) (hwork : f.full.size ≤ m.sizes.work) (hnadj : items.length ≤ m.sizes.nadj)
    {d : Nat} {x : α} (hd : items[d]? = some x) :
    (f.withSeeds os v items m).adjoint d = f.seedVector (os x) (v x) := by
  have hlt := (List.getElem?_eq_some_iff.1 hd).1
  funext p
  rw [Memory.adjoint, withSeeds, getD_modifyEach _ (by rw [hm.adj.1]; exact hnadj) hd]
  exact getD_seededArray hf (hos x (List.mem_of_getElem? hd)) (v x)
    (by rw [hm.adj.size_getD (by omega)]; exact hwork) p

variable [Calculus F] [Calculus.Exact F]

/-- The adjoint sensitivities of an evaluation. -/
theorem gives_adjointSensitivities
    (hf : f.WellFormed) {m : Memory F} (hm : m.WellSized) (hwork : f.full.size ≤ m.sizes.work)
    {seeds : List (List (List F))} (hnadj : seeds.length ≤ m.sizes.nadj) (op : String) :
    ∃ m', Run.Gives (f.adjointSensitivities op (f.segmentsAt f.full) seeds) m
      (seeds.map fun v => (List.range f.nIn).map
        (f.inputOf (f.adjoints m.values (List.range f.nOut) (seedOf v)))) m' := by
  have hos : ∀ seed ∈ seeds, ∀ o ∈ List.range f.nOut, o < f.nOut :=
    fun _ _ o ho => List.mem_range.1 ho
  have hseeded := gives_withSeeds hf hos seedOf hm hwork
  have hadjoint := fun {d : Nat} {seed : List (List F)} (hd : seeds[d]? = some seed) =>
    adjoint_withSeeds hf hos seedOf hm hwork hnadj hd
  obtain ⟨m₂, hswept, hsized₂, hsizes₂, -, hadjoint₂⟩ := gives_adjointSweep hf
    (wellSized_withSeeds (f := f) (fun _ => List.range f.nOut) seedOf seeds hm) hwork
    hnadj f.config.checkFinite op
  obtain ⟨m₃, htaken⟩ := gives_takeAll hf hsized₂ (by rw [hsizes₂]; exact hwork)
    (n := seeds.length) (by rw [hsizes₂]; exact hnadj)
  have hresult : (List.range seeds.length).map
      (fun d => (List.range f.nIn).map (f.inputOf (m₂.adjoint d))) =
      seeds.map fun v => (List.range f.nIn).map
        (f.inputOf (f.adjoints m.values (List.range f.nOut) (seedOf v))) := by
    refine List.ext_getElem? fun d => ?_
    rw [List.getElem?_map, List.getElem?_map]
    rcases Nat.lt_or_ge d seeds.length with hd | hd
    · have hget := List.getElem?_eq_getElem hd
      rw [List.getElem?_range hd, hget, Option.map_some, Option.map_some, hadjoint₂ d hd,
        hadjoint hget]
      rfl
    · rw [List.getElem?_eq_none (by simpa using hd), List.getElem?_eq_none hd]
      rfl
  rw [hresult] at htaken
  refine ⟨m₃, ?_⟩
  unfold adjointSensitivities
  simp only [Run.gives_bind]
  exact ⟨(), _, hseeded, (), m₂, hswept, htaken⟩

/-- An evaluation that is accepted returns, and what it returns. -/
theorem gives_evaluate
    (hf : f.WellFormed) {m : Memory F} (hm : m.WellSized) {xs : List (List F)}
    {fwdSeeds adjSeeds : List (List (List F))} (h : f.Accepts m.sizes xs fwdSeeds adjSeeds) :
    ∃ m', Run.Gives (f.evaluate xs fwdSeeds adjSeeds) m
      { outputs := (List.range f.nOut).map (f.outputOf (f.valueArray xs))
        fwd := fwdSeeds.map fun u =>
          (List.range f.nOut).map (f.outputOf (f.tangentArray xs (seedOf u)))
        adj := adjSeeds.map fun v => (List.range f.nIn).map
          (f.inputOf (f.adjoints (f.valueArray xs) (List.range f.nOut) (seedOf v))) } m' := by
  have hsound := layout_sound hf adjSeeds.length
  have hnfwd : (fwdSeeds.map seedOf).length ≤ m.sizes.nfwd := by
    rw [List.length_map]
    exact h.nfwd
  have hswept := gives_forwardSweep fwdSeeds.length hf hsound f.config.checkFinite "evaluate"
    Calculus.Exact.isFinite (m := f.loadSeeds (f.layout adjSeeds.length) (fwdSeeds.map seedOf)
      { m with values := writeLists (f.layout adjSeeds.length) 0 xs m.values })
    (by simpa [loadSeeds, hm.values] using h.work)
  have hafter : (f.segmentsAt (f.layout adjSeeds.length)).foldl
      (fun m s => s.sweep fwdSeeds.length m)
      (f.loadSeeds (f.layout adjSeeds.length) (fwdSeeds.map seedOf)
        { m with values := writeLists (f.layout adjSeeds.length) 0 xs m.values }) =
      f.afterForward (f.layout adjSeeds.length) xs (fwdSeeds.map seedOf) m := by
    rw [afterForward, List.length_map]
  rw [hafter] at hswept
  by_cases hnone : adjSeeds.length = 0
  · refine ⟨f.afterForward (f.layout adjSeeds.length) xs (fwdSeeds.map seedOf) m,
      (gives_evaluate_iff hf hm).2 ⟨checkEvaluation_eq_ok_iff.2 h, hswept, rfl, rfl, ?_⟩⟩
    rw [if_pos hnone, Run.gives_pure]
    exact ⟨by simp [List.length_eq_zero_iff.1 hnone], rfl⟩
  · -- with adjoints the sweeps run in the full layout, where all values are kept
    have hfull : f.layout adjSeeds.length = f.full := by
      simp [layout, hnone]
    have hwork := h.work
    rw [hfull] at hswept hwork
    have hreached := reached_afterForward hf (hf.full_sound fun _ => True) hm hwork hnfwd
      h.fitInputs
    obtain ⟨m', hadj⟩ := gives_adjointSensitivities hf hreached.wellSized
      (by rw [hreached.sizes]; exact hwork)
      (show adjSeeds.length ≤ _ by rw [hreached.sizes]; exact h.nadj) "evaluate"
    simp only [adjoints_congr hf fun s => getD_of_holds_full hf hreached.values] at hadj
    refine ⟨m', (gives_evaluate_iff hf hm).2
      ⟨checkEvaluation_eq_ok_iff.2 h, by rw [hfull]; exact hswept, rfl, rfl, ?_⟩⟩
    rw [if_neg hnone, hfull]
    exact hadj

end Sensitivities

section Pairing

variable [CommRing F]

/-- Sum of the products of two lists, item by item. -/
def dot (xs ys : List F) : F := (List.zipWith (· * ·) xs ys).sum

/-- Sum of the products of two families of lists. -/
def pairing (xss yss : List (List F)) : F := (List.zipWith dot xss yss).sum

theorem dot_comm
    (xs ys : List F) :
    dot xs ys = dot ys xs := by
  unfold dot
  rw [List.zipWith_comm]
  simp only [mul_comm]

theorem dot_range_map
    {n : Nat} {xs : List F} (hxs : xs.length = n) (g : Nat → F) :
    dot xs ((List.range n).map g) = ∑ k ∈ Finset.range n, xs.getD k 0 * g k := by
  induction xs using List.reverseRecOn generalizing n with
  | nil =>
      subst hxs
      simp [dot]
  | append_singleton xs x ih =>
      subst hxs
      have hlast := ih rfl
      rw [List.length_append, List.length_singleton, List.range_succ, List.map_append,
        Finset.sum_range_succ]
      have hzip : dot (xs ++ [x]) ((List.range xs.length).map g ++ [xs.length].map g) =
          dot xs ((List.range xs.length).map g) + x * g xs.length := by
        simp [dot, List.zipWith_append]
      rw [hzip, hlast]
      congr 1
      · refine Finset.sum_congr rfl fun k hk => ?_
        have hlt := Finset.mem_range.1 hk
        simp [List.getD_eq_getElem?_getD, List.getElem?_append_left hlt]
      · simp

theorem pairing_range_map
    {n : Nat} {xss : List (List F)} (hxss : xss.length = n) (g : Nat → List F) :
    pairing xss ((List.range n).map g) =
      ((List.range n).map fun i => dot (xss.getD i []) (g i)).sum := by
  unfold pairing
  congr 1
  refine List.ext_getElem? fun i => ?_
  rcases Nat.lt_or_ge i n with hi | hi
  · have hlt : i < xss.length := by omega
    simp [hi, hlt, List.getD_eq_getElem?_getD]
  · simp [hi]

theorem pairing_comm
    (xss yss : List (List F)) :
    pairing xss yss = pairing yss xss := by
  unfold pairing
  rw [List.zipWith_comm]
  simp only [dot_comm]

theorem sum_map_range
    (n : Nat) (g : Nat → F) :
    ((List.range n).map g).sum = ∑ i ∈ Finset.range n, g i := by
  induction n with
  | zero => rfl
  | succ n ih => rw [List.sum_range_succ, Finset.sum_range_succ, ih]

/-- Lists that fit, item by item. -/
theorem getD_of_fitLists
    {patterns : List Pattern} {lists : List (List F)} (h : FitLists patterns lists) {i : Nat}
    (hi : i < patterns.length) :
    (lists.getD i []).length = (patterns[i]?.map Pattern.nnz).getD 0 ∧
      ∀ k, seedOf lists i k = (lists.getD i []).getD k 0 := by
  obtain ⟨ys, hys, hlength⟩ := getElem?_of_forall₂_left h (List.getElem?_eq_getElem hi)
  refine ⟨by simp [hys, hlength, hi], fun k => ?_⟩
  rw [seedOf, getD_seedAt hys, List.getD_eq_getElem?_getD (l := lists), hys]
  rfl

/-- Lists that fit the inputs, against numbers at all inputs. -/
theorem pairing_inputOf
    {u : List (List F)} (hu : FitLists f.inputPatterns u) (lam : Nat → F) :
    pairing u ((List.range f.nIn).map (f.inputOf lam)) =
      ∑ i ∈ Finset.range f.nIn, ∑ k ∈ Finset.range (f.inputLength i),
        lam (f.full.slot i k) * seedOf u i k := by
  rw [pairing_range_map (n := f.nIn) hu.length_eq.symm, sum_map_range]
  refine Finset.sum_congr rfl fun i hi => ?_
  obtain ⟨hlength, hget⟩ := getD_of_fitLists hu (Finset.mem_range.1 hi)
  rw [inputOf, dot_range_map (n := f.inputLength i) hlength]
  exact Finset.sum_congr rfl fun k _ => by rw [hget, mul_comm]

/-- Lists that fit the outputs, against numbers at all outputs. -/
theorem pairing_outputOf
    {v : List (List F)} (hv : FitLists f.outputPatterns v) (t : Array F) :
    pairing v ((List.range f.nOut).map (f.outputOf t)) =
      ((List.range f.nOut).map fun o => ∑ k ∈ Finset.range (f.outputLength o),
        seedOf v o k * t.getD (f.outputSlot o k) 0).sum := by
  rw [pairing_range_map (n := f.nOut) hv.length_eq.symm]
  refine congrArg List.sum (List.map_congr_left fun o ho => ?_)
  obtain ⟨hlength, hget⟩ := getD_of_fitLists hv (List.mem_range.1 ho)
  rw [outputOf, dot_range_map (n := f.outputLength o) hlength]
  exact Finset.sum_congr rfl fun k _ => by rw [hget]

variable [Calculus F] [Calculus.Exact F]

/-- One forward and one adjoint direction of an evaluation. -/
theorem pairing_adjoints
    (hf : f.WellFormed) {u v : List (List F)} (hu : FitLists f.inputPatterns u)
    (hv : FitLists f.outputPatterns v) (xs : List (List F)) :
    pairing v ((List.range f.nOut).map (f.outputOf (f.tangentArray xs (seedOf u)))) =
      pairing ((List.range f.nIn).map
        (f.inputOf (f.adjoints (f.valueArray xs) (List.range f.nOut) (seedOf v)))) u := by
  rw [pairing_comm _ u, pairing_inputOf hu, pairing_outputOf hv]
  exact (sum_adjoints_mul hf (fun o ho => List.mem_range.1 ho) (seedOf v) (seedOf u) xs).symm

/--
An evaluation that is accepted returns, and for every forward seed `u` and adjoint seed `v`
the output tangents of `u` against `v` are the input adjoints of `v` against `u`.
-/
theorem evaluate_sensitivities_dual
    [Elementary F] [ElementText F] {g : Graph F} {inputs outputs : List NodeId}
    {config : Config} (hbare : g.BareLeaves) (hcompile : compile g inputs outputs config = .ok f)
    {m : Memory F} (hm : m.WellSized) {xs : List (List F)}
    {fwdSeeds adjSeeds : List (List (List F))}
    (hcheck : f.checkEvaluation "evaluate" m.sizes xs fwdSeeds adjSeeds = .ok ()) :
    ∃ e : Evaluation F, (f.evaluate xs fwdSeeds adjSeeds).alone m = .ok e ∧
      ∀ (d d' : Nat) (u v : List (List F)), fwdSeeds[d]? = some u → adjSeeds[d']? = some v →
        ∃ tangents adjoints, e.fwd[d]? = some tangents ∧ e.adj[d']? = some adjoints ∧
          pairing v tangents = pairing adjoints u := by
  obtain ⟨order, h⟩ := compiled_of_compile hbare hcompile
  have hf := h.wellFormed
  have haccepts := checkEvaluation_eq_ok_iff.1 hcheck
  obtain ⟨m', hgives⟩ := gives_evaluate hf hm haccepts
  refine ⟨_, Run.alone_eq_ok_iff.2 ⟨m', hgives⟩, fun d d' u v hu hv => ?_⟩
  refine ⟨_, _, by rw [List.getElem?_map, hu]; rfl, by rw [List.getElem?_map, hv]; rfl, ?_⟩
  exact pairing_adjoints hf (haccepts.fitFwd u (List.mem_of_getElem? hu))
    (haccepts.fitAdj v (List.mem_of_getElem? hv)) xs

theorem evaluate_sensitivities_dual_scaling :
    ∃ e : Evaluation Int,
      (scaling.evaluate [[2, 3]] [[[1, 4]]] [[[5], [1, 7], [2, 0]]]).alone (scaling.memory 1 1) =
        .ok e ∧
      ∀ (d d' : Nat) (u v : List (List Int)), [[[1, 4]]][d]? = some u →
        [[[5], [1, 7], [2, 0]]][d']? = some v →
          ∃ tangents adjoints, e.fwd[d]? = some tangents ∧ e.adj[d']? = some adjoints ∧
            pairing v tangents = pairing adjoints u :=
  evaluate_sensitivities_dual Graph.bareLeaves_scaling compile_scaling (Memory.wellSized_new _)
    (by cbv)

end Pairing

end Tape

end SparseDiff
