import SparseDiff.Proofs.Forward

/-!
# Values and tangents of an evaluation

Loading the inputs and the seeds and sweeping once leaves the values and tangents of the
trace at the outputs, in the layout that the evaluation chose (`Tape.reached_afterForward`).
What an evaluation returns, and when, follows from its forward sweep over any arithmetic
(`Tape.gives_evaluate_iff`).
-/

namespace SparseDiff

variable {F : Type}

namespace Tape

/-- Load a tangent for every seed, the first into array `0`. -/
def loadSeeds (f : Tape F) (l : Layout) (seeds : List (Nat → Nat → F)) (m : Memory F) :
    Memory F :=
  { m with fwd := modifyEach (fun u => writeLists l 0 (f.seedLists u)) seeds m.fwd }

/-- Loading seeds one after the other. -/
theorem foldl_loadTangent
    (f : Tape F) (l : Layout) (seeds : List (Nat → Nat → F)) (m : Memory F) :
    seeds.zipIdx.foldl
        (fun m (u, d) => { m with fwd := m.fwd.modify d (writeLists l 0 (f.seedLists u)) }) m =
      f.loadSeeds l seeds m := by
  induction seeds using List.reverseRecOn with
  | nil => rfl
  | append_singleton seeds u ih =>
      rw [List.zipIdx_append, List.foldl_append, ih, loadSeeds, loadSeeds, modifyEach_concat]
      simp

variable {f : Tape F} {l : Layout} {keep : Nat → Prop}

theorem gives_loadSeeds
    (hf : f.WellFormed) (hsound : l.Sound f.spans keep) {α : Type} (g : α → Nat → Nat → F)
    (seeds : List α) {m : Memory F} (hroom : l.size ≤ m.values.size) :
    Run.Gives (seeds.zipIdx.forM fun (seed, d) => f.loadTangent l d (g seed)) m ()
      (f.loadSeeds l (seeds.map g) m) := by
  have hloop := (Run.gives_forM
    (f := fun (item : α × Nat) => f.loadTangent l item.2 (g item.1))
    (g := fun m (item : α × Nat) =>
      { m with fwd := m.fwd.modify item.2 (writeLists l 0 (f.seedLists (g item.1))) })
    (I := fun _ m' => l.size ≤ m'.values.size)
    (fun item _ m' hI => ⟨gives_loadTangent hf hsound hI item.2 (g item.1), hI⟩)
    seeds.zipIdx m hroom).1
  have hfold : seeds.zipIdx.foldl (fun m (item : α × Nat) =>
      { m with fwd := m.fwd.modify item.2 (writeLists l 0 (f.seedLists (g item.1))) }) m =
        f.loadSeeds l (seeds.map g) m := by
    rw [← foldl_loadTangent, List.zipIdx_map, List.foldl_map]
    rfl
  rw [← hfold]
  exact hloop

theorem layout_sound
    (hf : f.WellFormed) (nadj : Nat) :
    (f.layout nadj).Sound f.spans (· ∈ f.outputs) := by
  unfold layout
  split
  · exact hf.compact_sound
  · exact hf.full_sound _

theorem size_layout_le
    (hf : f.WellFormed) (nadj : Nat) :
    (f.layout nadj).size ≤ f.full.size := by
  unfold layout
  split
  · rw [hf.compact, hf.full]
    exact Layout.size_reusing_le _ _
  · exact Nat.le_refl _

/-- An output has a position, a pattern and an element of as many nonzeros. -/
theorem WellFormed.exists_output
    (hf : f.WellFormed) {o : Nat} (ho : o < f.nOut) :
    ∃ q p e, f.outputs[o]? = some q ∧ f.outputPatterns[o]? = some p ∧
      f.elements[q]? = some e ∧ e.nnz = p.nnz := by
  have hlt : o < f.outputs.length := by
    rw [hf.length_outputs]
    exact ho
  have hq := List.getElem?_eq_getElem hlt
  have hp : f.outputPatterns[o]? = some f.outputPatterns[o] := List.getElem?_eq_getElem ho
  obtain ⟨e, he, hnnz⟩ := hf.output o _ _ hq hp
  exact ⟨_, _, e, hq, hp, he, hnnz⟩

/-- Number of nonzeros of output `o`. -/
def outputLength (f : Tape F) (o : Nat) : Nat := (f.outputPatterns[o]?.map Pattern.nnz).getD 0

theorem outputLength_of_isDenseScalar
    {o : Nat} {out : Pattern} (ho : f.outputPatterns[o]? = some out)
    (hscalar : out.isDenseScalar = true) :
    f.outputLength o = 1 := by
  simp only [Pattern.isDenseScalar, Bool.and_eq_true, beq_iff_eq] at hscalar
  rw [outputLength, ho]
  exact hscalar.2

/-- Slot of nonzero `k` of output `o` in the full layout. -/
def outputSlot (f : Tape F) (o k : Nat) : Nat := f.full.slot (f.outputs.getD o 0) k

/-- Number of nonzeros of input `i`. -/
def inputLength (f : Tape F) (i : Nat) : Nat := (f.inputPatterns[i]?.map Pattern.nnz).getD 0

theorem WellFormed.element_of_output
    (hf : f.WellFormed) {o : Nat} (ho : o < f.nOut) :
    ∃ e, f.elements[f.outputs.getD o 0]? = some e ∧ e.nnz = f.outputLength o := by
  obtain ⟨q, p, e, hq, hp, he, hnnz⟩ := hf.exists_output ho
  refine ⟨e, ?_, ?_⟩
  · rw [List.getD_eq_getElem?_getD, hq]
    exact he
  · rw [outputLength, hp]
    exact hnnz

theorem WellFormed.getD_mem_outputs
    (hf : f.WellFormed) {o : Nat} (ho : o < f.nOut) :
    f.outputs.getD o 0 ∈ f.outputs := by
  obtain ⟨q, -, -, hq, -⟩ := hf.exists_output ho
  rw [List.getD_eq_getElem?_getD, hq]
  exact List.mem_of_getElem? hq

theorem WellFormed.element_of_input
    (hf : f.WellFormed) {i : Nat} (hi : i < f.nIn) :
    ∃ e, f.elements[i]? = some e ∧ e.nnz = f.inputLength i := by
  have hp : f.inputPatterns[i]? = some f.inputPatterns[i] := List.getElem?_eq_getElem hi
  obtain ⟨e, he, hnnz⟩ := hf.input i _ hp
  refine ⟨e, he, ?_⟩
  rw [inputLength, hp]
  exact hnnz

/-- The lists of a request fit the patterns, and the memory holds what the sweeps need. -/
structure Accepts (f : Tape F) (sizes : MemorySizes) (inputs : List (List F))
    (fwdSeeds adjSeeds : List (List (List F))) : Prop where
  fitInputs : FitLists f.inputPatterns inputs
  fitFwd : ∀ seed ∈ fwdSeeds, FitLists f.inputPatterns seed
  fitAdj : ∀ seed ∈ adjSeeds, FitLists f.outputPatterns seed
  work : (f.layout adjSeeds.length).size ≤ sizes.work
  nfwd : fwdSeeds.length ≤ sizes.nfwd
  nadj : adjSeeds.length ≤ sizes.nadj

theorem checkEvaluation_eq_ok_iff
    {op : String} {sizes : MemorySizes} {inputs : List (List F)}
    {fwdSeeds adjSeeds : List (List (List F))} :
    f.checkEvaluation op sizes inputs fwdSeeds adjSeeds = .ok () ↔
      f.Accepts sizes inputs fwdSeeds adjSeeds := by
  unfold checkEvaluation checkInputValues
  constructor
  · intro h
    obtain ⟨_, hin, h⟩ := bind_eq_ok_iff.1 h
    obtain ⟨_, hfwd, h⟩ := bind_eq_ok_iff.1 h
    obtain ⟨_, hadj, h⟩ := bind_eq_ok_iff.1 h
    obtain ⟨hwork, hnfwd, hnadj, -⟩ := MemorySizes.check_eq_ok_iff.1 h
    exact ⟨checkLists_eq_ok_iff.1 hin, checkSeeds_eq_ok_iff.1 hfwd, checkSeeds_eq_ok_iff.1 hadj,
      hwork, hnfwd, hnadj⟩
  · intro h
    -- an array of adjoint tangents is needed only where there are tangents and adjoints
    have hsecond : (f.requiredMemory fwdSeeds.length adjSeeds.length).second ≤ sizes.second := by
      have hnfwd := h.nfwd
      have hnadj := h.nadj
      unfold MemorySizes.second requiredMemory
      split
      · next hpos =>
          have hpos' : 0 < adjSeeds.length := hpos
          rw [if_pos (by omega)]
          exact hnfwd
      · exact Nat.zero_le _
    refine bind_eq_ok_iff.2 ⟨(), checkLists_eq_ok_iff.2 h.fitInputs, ?_⟩
    refine bind_eq_ok_iff.2 ⟨(), checkSeeds_eq_ok_iff.2 h.fitFwd, ?_⟩
    refine bind_eq_ok_iff.2 ⟨(), checkSeeds_eq_ok_iff.2 h.fitAdj, ?_⟩
    exact MemorySizes.check_eq_ok_iff.2 ⟨h.work, h.nfwd, h.nadj, hsecond⟩

section Outputs

variable [Zero F]

/-- The nonzeros of output `o` in an array of the full layout. -/
def outputOf (f : Tape F) (w : Array F) (o : Nat) : List F :=
  (List.range (f.outputLength o)).map fun k => w.getD (f.outputSlot o k) 0

theorem outputOf_eq
    {o q : Nat} {p : Pattern} (hq : f.outputs[o]? = some q)
    (hp : f.outputPatterns[o]? = some p) (w : Array F) :
    f.outputOf w o = (List.range p.nnz).map fun k => w.getD (f.full.slot q k) 0 := by
  simp [outputOf, outputLength, outputSlot, hq, hp, List.getD_eq_getElem?_getD]

/-- A scalar output is one slot. -/
theorem getElem?_outputs_of_isDenseScalar
    {o : Nat} {out : Pattern} (ho : f.outputPatterns[o]? = some out)
    (hscalar : out.isDenseScalar = true) (w : Array F) :
    ((List.range f.nOut).map (f.outputOf w))[o]? = some [w.getD (f.outputSlot o 0) 0] := by
  have hlt : o < f.nOut := (List.getElem?_eq_some_iff.1 ho).1
  simp [hlt, outputOf, outputLength_of_isDenseScalar ho hscalar]

/-- Outputs are kept to the end, so their slots hold their values there. -/
theorem map_getD_outputSlots
    (hf : f.WellFormed) {v w : Array F}
    (h : f.Holds l (· ∈ f.outputs) f.elements.size v w) {o : Nat} (ho : o < f.nOut) :
    (slotsFrom (l.slot (f.outputs.getD o 0) 0) (f.outputLength o)).map (w.getD · 0) =
      f.outputOf v o := by
  obtain ⟨e, he, hnnz⟩ := hf.element_of_output ho
  have hmem : f.outputs.getD o 0 ∈ f.outputs := hf.getD_mem_outputs ho
  rw [slotsFrom, List.map_map, outputOf]
  refine List.map_congr_left fun k hk => ?_
  rw [Function.comp_apply, Layout.slot_zero_add]
  exact h _ (Array.getElem?_eq_some_iff.1 he).1 (.inl hmem) e he k
    (hnnz ▸ List.mem_range.1 hk)

/-- Outputs can be read in the end. -/
theorem readOutput_eq
    (hf : f.WellFormed) (hsound : l.Sound f.spans (· ∈ f.outputs)) {v w : Array F}
    (h : f.Holds l (· ∈ f.outputs) f.elements.size v w) (hw : l.size ≤ w.size) {o : Nat}
    (ho : o < f.nOut) :
    f.readOutput l w o = .ok (f.outputOf v o) := by
  obtain ⟨q, p, e, hq, hp, he, hnnz⟩ := hf.exists_output ho
  have hoffset : q < l.offsets.size := by
    rw [hsound.size]
    exact (List.getElem?_eq_some_iff.1 (getElem?_spans he)).1
  have hroom : l.slot q 0 + p.nnz ≤ w.size := by
    have hle := hsound.inside _ (span e) (getElem?_spans he)
    have hlen : (span e).length = p.nnz := hnnz
    rw [hlen] at hle
    rw [Layout.slot_zero_add]
    omega
  have hread := map_getD_outputSlots hf h ho
  rw [List.getD_eq_getElem?_getD, hq, outputLength, hp] at hread
  unfold readOutput
  simp only [hq, hp, Layout.offset_eq hoffset, bind, Except.bind, hroom, true_or, if_true]
  exact congrArg Except.ok hread

theorem readOutputs_eq
    (hf : f.WellFormed) (hsound : l.Sound f.spans (· ∈ f.outputs)) {v w : Array F}
    (h : f.Holds l (· ∈ f.outputs) f.elements.size v w) (hw : l.size ≤ w.size) :
    f.readOutputs l w = .ok ((List.range f.nOut).map (f.outputOf v)) :=
  mapM_eq_ok_map fun _ ho => readOutput_eq hf hsound h hw (List.mem_range.1 ho)

end Outputs

section Trace

variable [Zero F]

/-- The cell of an input nonzero. -/
theorem cellAt_input
    (hf : f.WellFormed) {i : Nat} {e : Element F} (he : f.elements[i]? = some e)
    (hi : i < f.nIn) (slot : Nat → Nat → Nat) (k : Nat) :
    e.instr.cellAt slot k = .input i k := by
  have hinput := (hf.isInput_iff i e he).2 hi
  have hfits := hf.fits i e he
  cases hinstr : e.instr with
  | input number listed =>
      rw [hinstr] at hfits
      cases hfits
      rfl
  | _ => simp [hinstr, Instr.isInput] at hinput

theorem getD_seedAt
    {lists : List (List F)} {i : Nat} {xs : List F} (hi : lists[i]? = some xs) (k : Nat) :
    seedAt (lists.map List.toArray) i k = xs.getD k 0 := by
  simp [seedAt, hi, List.getD_eq_getElem?_getD, Array.getD_eq_getD_getElem?]

/-- In the full layout, an array that has reached the end holds a number in every slot. -/
theorem getD_of_holds_full
    (hf : f.WellFormed) {v w : Array F}
    (h : f.Holds f.full (fun _ => True) f.elements.size v w) {s : Nat} (hs : s < f.full.size) :
    w.getD s 0 = v.getD s 0 := by
  obtain ⟨p, e, k, he, hk, rfl⟩ := exists_of_lt_full hf hs
  exact h p (Array.getElem?_eq_some_iff.1 he).1 (.inl trivial) e he k hk

variable [Calculus F]

/-- The values of all slots of the full layout, for given input values. -/
def valueArray (f : Tape F) (inputs : List (List F)) : Array F :=
  Trace.values (seedAt (inputs.map List.toArray)) f.trace

theorem getD_valueArray
    (hf : f.WellFormed) (inputs : List (List F)) {s : Nat} {c : Cell F}
    (hc : f.trace[s]? = some c) :
    (f.valueArray inputs).getD s 0 =
      c.eval (seedAt (inputs.map List.toArray)) (f.valueArray inputs) :=
  Trace.getD_values _ (causal_trace hf) hc

/-- The values of an input are the given ones. -/
theorem getD_valueArray_input
    (hf : f.WellFormed) {inputs : List (List F)} (hfit : FitLists f.inputPatterns inputs) {i : Nat}
    {xs : List F} (hi : inputs[i]? = some xs) {k : Nat} (hk : k < xs.length) :
    (f.valueArray inputs).getD (f.full.slot i k) 0 = xs.getD k 0 := by
  obtain ⟨e, he, hnnz⟩ := element_of_fitLists hf hfit hi
  have hlt : i < f.nIn := by
    rw [nIn, hfit.length_eq]
    exact (List.getElem?_eq_some_iff.1 hi).1
  rw [getD_valueArray hf inputs (getElem?_trace hf he (hnnz ▸ hk)), cellAt_input hf he hlt,
    Cell.eval, getD_seedAt hi]

/-- Entries of the inputs are numbers of the trace. -/
theorem exists_slot_of_mem
    (hf : f.WellFormed) {inputs : List (List F)} (hfit : FitLists f.inputPatterns inputs)
    {xs : List F} (hxs : xs ∈ inputs) {x : F} (hx : x ∈ xs) :
    ∃ s < f.full.size, (f.valueArray inputs).getD s 0 = x := by
  obtain ⟨i, hi⟩ := List.mem_iff_getElem?.1 hxs
  obtain ⟨k, hk⟩ := List.mem_iff_getElem?.1 hx
  have hlt : k < xs.length := (List.getElem?_eq_some_iff.1 hk).1
  obtain ⟨e, he, hnnz⟩ := element_of_fitLists hf hfit hi
  refine ⟨_, full_slot_lt hf he (hnnz ▸ hlt), ?_⟩
  rw [getD_valueArray_input hf hfit hi hlt, List.getD_eq_getElem?_getD, hk]
  rfl

/-- Loading leaves the values of the inputs. -/
theorem holds_writeLists_values
    (hf : f.WellFormed) (hsound : l.Sound f.spans keep) {inputs : List (List F)}
    (hfit : FitLists f.inputPatterns inputs) {w : Array F} (hw : l.size ≤ w.size) :
    f.Holds l keep f.nIn (f.valueArray inputs) (writeLists l 0 inputs w) := by
  have hlength : inputs.length = f.nIn := hfit.length_eq.symm
  have h := holds_writeLists hsound hw inputs (holds_zero f l keep (f.valueArray inputs) w)
    fun i xs hmem => by
      have hi : inputs[i]? = some xs := List.mem_zipIdx_iff_getElem?.1 hmem
      obtain ⟨e, he, hnnz⟩ := element_of_fitLists hf hfit hi
      exact ⟨e, he, hnnz, fun k hk => getD_valueArray_input hf hfit hi (hnnz ▸ hk)⟩
  rwa [Nat.zero_add, hlength] at h

variable [Add F] [Mul F]

/-- The tangents of all slots of the full layout, for input tangents `u`. -/
def tangentArray (f : Tape F) (inputs : List (List F)) (u : Nat → Nat → F) : Array F :=
  Trace.tangents u (f.valueArray inputs) f.trace

theorem getD_tangentArray
    (hf : f.WellFormed) (inputs : List (List F)) (u : Nat → Nat → F) {s : Nat} {c : Cell F}
    (hc : f.trace[s]? = some c) :
    (f.tangentArray inputs u).getD s 0 =
      c.evalTangent u (f.valueArray inputs) ((f.valueArray inputs).getD s 0)
        (f.tangentArray inputs u) :=
  Trace.getD_tangents u _ (causal_trace hf) hc

/-- Loading a seed leaves the tangents of the inputs. -/
theorem holds_writeLists_tangents
    (hf : f.WellFormed) (hsound : l.Sound f.spans keep) (inputs : List (List F))
    (u : Nat → Nat → F) {w : Array F} (hw : l.size ≤ w.size) :
    f.Holds l keep f.nIn (f.tangentArray inputs u) (writeLists l 0 (f.seedLists u) w) := by
  have h := holds_writeLists hsound hw (f.seedLists u)
    (holds_zero f l keep (f.tangentArray inputs u) w) fun i xs hmem => by
      have hi : (f.seedLists u)[i]? = some xs := List.mem_zipIdx_iff_getElem?.1 hmem
      rw [seedLists, List.getElem?_map, List.getElem?_zipIdx, Option.map_map] at hi
      obtain ⟨p, hp, rfl⟩ := Option.map_eq_some_iff.1 hi
      obtain ⟨e, he, hnnz⟩ := hf.input i p hp
      refine ⟨e, he, by simp [hnnz], fun k hk => ?_⟩
      have hlt : i < f.nIn := (List.getElem?_eq_some_iff.1 hp).1
      rw [tangentArray, Trace.getD_tangents _ _ (causal_trace hf) (getElem?_trace hf he hk),
        cellAt_input hf he hlt, Cell.evalTangent]
      have hk' : k < p.nnz := by omega
      simp [hk']
  have hlength : (f.seedLists u).length = f.nIn := by simp [seedLists, nIn]
  rwa [Nat.zero_add, hlength] at h

/-- Inputs and seeds are loaded: the sweep has reached the last input. -/
theorem reached_loadSeeds
    (hf : f.WellFormed) (hsound : l.Sound f.spans keep) {m : Memory F} (hm : m.WellSized)
    (hwork : l.size ≤ m.sizes.work) {seeds : List (Nat → Nat → F)}
    (hnfwd : seeds.length ≤ m.sizes.nfwd) {inputs : List (List F)}
    (hfit : FitLists f.inputPatterns inputs) :
    f.Reached l keep (f.valueArray inputs)
      (fun d => f.tangentArray inputs (seeds.getD d fun _ _ => 0)) seeds.length m f.nIn
      (f.loadSeeds l seeds { m with values := writeLists l 0 inputs m.values }) := by
  have hsized : Sized m.sizes.nfwd m.sizes.work
      (modifyEach (fun u => writeLists l 0 (f.seedLists u)) seeds m.fwd) :=
    hm.fwd.modifyEach (fun _ _ => by simp) seeds
  refine ⟨⟨by simpa [loadSeeds] using hm.values, hsized, hm.adj, hm.adjFwd⟩, rfl, rfl, rfl,
    holds_writeLists_values hf hsound hfit (by rw [hm.values]; exact hwork), fun d hd => ?_⟩
  have hget : seeds[d]? = some seeds[d] := List.getElem?_eq_getElem hd
  have hfwd := getD_modifyEach (fun u => writeLists l 0 (f.seedLists u))
    (show seeds.length ≤ m.fwd.size by rw [hm.fwd.1]; exact hnfwd) hget
  have hseed : seeds.getD d (fun _ _ => 0) = seeds[d] := by simp [hd]
  simp only [loadSeeds, hseed, hfwd]
  exact holds_writeLists_tangents hf hsound inputs seeds[d]
    (by rw [hm.fwd.size_getD (by omega)]; exact hwork)

/-- The memory after the forward sweep of an evaluation. -/
def afterForward (f : Tape F) (l : Layout) (inputs : List (List F))
    (seeds : List (Nat → Nat → F)) (m : Memory F) : Memory F :=
  (f.segmentsAt l).foldl (fun m s => s.sweep seeds.length m)
    (f.loadSeeds l seeds { m with values := writeLists l 0 inputs m.values })

/-- After the forward sweep, the values and tangents of the trace are there. -/
theorem reached_afterForward
    (hf : f.WellFormed) (hsound : l.Sound f.spans keep) {m : Memory F} (hm : m.WellSized)
    (hwork : l.size ≤ m.sizes.work) {seeds : List (Nat → Nat → F)}
    (hnfwd : seeds.length ≤ m.sizes.nfwd) {inputs : List (List F)}
    (hfit : FitLists f.inputPatterns inputs) :
    f.Reached l keep (f.valueArray inputs)
      (fun d => f.tangentArray inputs (seeds.getD d fun _ _ => 0)) seeds.length m
      f.elements.size (f.afterForward l inputs seeds m) :=
  reached_foldl hf hsound (reached_loadSeeds hf hsound hm hwork hnfwd hfit) hwork hnfwd

/-- A seed of a request, as a function of input or output and nonzero. -/
def seedOf (seed : List (List F)) : Nat → Nat → F := seedAt (seed.map List.toArray)

theorem take_toList_eq_map
    {α : Type} (items : Array α) (default : α) {n : Nat} (hn : n ≤ items.size) :
    items.toList.take n = (List.range n).map (items.getD · default) := by
  refine List.ext_getElem? fun i => ?_
  rw [List.getElem?_take, List.getElem?_map]
  split
  · next hi =>
      have hlt : i < items.size := by omega
      simp [hi, hlt]
  · next hi =>
      rw [List.getElem?_eq_none (by simpa using hi)]
      rfl

/-- The reads of an evaluation find the values and tangents of the trace. -/
theorem readOutputs_afterForward
    (hf : f.WellFormed) {m : Memory F} (hm : m.WellSized) {inputs : List (List F)}
    {fwdSeeds adjSeeds : List (List (List F))}
    (h : f.Accepts m.sizes inputs fwdSeeds adjSeeds) :
    f.readOutputs (f.layout adjSeeds.length)
        (f.afterForward (f.layout adjSeeds.length) inputs (fwdSeeds.map seedOf) m).values =
      .ok ((List.range f.nOut).map (f.outputOf (f.valueArray inputs))) ∧
    ((f.afterForward (f.layout adjSeeds.length) inputs
        (fwdSeeds.map seedOf) m).fwd.toList.take fwdSeeds.length).mapM
          (f.readOutputs (f.layout adjSeeds.length)) =
      .ok (fwdSeeds.map fun seed =>
        (List.range f.nOut).map (f.outputOf (f.tangentArray inputs (seedOf seed)))) := by
  have hsound := layout_sound hf adjSeeds.length
  have hnfwd := h.nfwd
  have hreached := reached_afterForward hf hsound hm h.work
    (show (fwdSeeds.map seedOf).length ≤ m.sizes.nfwd by simpa using hnfwd) h.fitInputs
  have hsized := hreached.wellSized
  rw [← hreached.sizes] at hnfwd
  have hwork := h.work
  rw [← hreached.sizes] at hwork
  refine ⟨readOutputs_eq hf hsound hreached.values (by rw [hsized.values]; exact hwork), ?_⟩
  rw [take_toList_eq_map _ #[] (by rw [hsized.fwd.1]; exact hnfwd), mapM_eq_ok_iff,
    List.forall₂_map_left_iff, List.forall₂_map_right_iff, List.forall₂_iff_get]
  refine ⟨by simp, fun d hd hd' => ?_⟩
  have hdlt : d < fwdSeeds.length := by simpa using hd'
  have hfwd := hreached.fwd d (by simpa using hdlt)
  have hread := readOutputs_eq hf hsound hfwd (by
    rw [hsized.fwd.size_getD (by omega)]
    exact hwork)
  simpa [hdlt] using hread

omit [Zero F] [Calculus F] [Add F] [Mul F] in
/-- An evaluation ends with the adjoint sensitivities, if any are asked for. -/
theorem gives_return_adjoints_iff
    {c : Prop} [Decidable c] {adjoints : Run F (List (List (List F)))} {m m' : Memory F}
    {outputs : List (List F)} {fwd : List (List (List F))} {e : Evaluation F} :
    Run.Gives
      (if c then (pure [] >>= fun adj => pure ⟨outputs, fwd, adj⟩) else
        (adjoints >>= fun adj => pure ⟨outputs, fwd, adj⟩)) m e m' ↔
      e.outputs = outputs ∧ e.fwd = fwd ∧
        Run.Gives (if c then pure [] else adjoints) m e.adj m' := by
  have hreturn : ∀ adjoints : Run F (List (List (List F))),
      Run.Gives (adjoints >>= fun adj => pure ⟨outputs, fwd, adj⟩) m e m' ↔
        e.outputs = outputs ∧ e.fwd = fwd ∧ Run.Gives adjoints m e.adj m' := by
    intro adjoints
    simp only [Run.gives_bind, Run.gives_pure]
    constructor
    · rintro ⟨adj, _, hadj, rfl, rfl⟩
      exact ⟨rfl, rfl, hadj⟩
    · rintro ⟨rfl, rfl, hadj⟩
      exact ⟨e.adj, m', hadj, rfl, rfl⟩
  split
  · exact hreturn _
  · exact hreturn _

/-- What an evaluation returns besides adjoint sensitivities, and what it leaves to them. -/
theorem gives_evaluate_iff
    (hf : f.WellFormed) {m m' : Memory F} (hm : m.WellSized) {inputs : List (List F)}
    {fwdSeeds adjSeeds : List (List (List F))} {e : Evaluation F} :
    Run.Gives (f.evaluate inputs fwdSeeds adjSeeds) m e m' ↔
      f.checkEvaluation "evaluate" m.sizes inputs fwdSeeds adjSeeds = .ok () ∧
      Run.Gives
        (forwardSweep f.config.checkFinite "evaluate" fwdSeeds.length
          (f.segmentsAt (f.layout adjSeeds.length)))
        (f.loadSeeds (f.layout adjSeeds.length) (fwdSeeds.map seedOf)
          { m with values := writeLists (f.layout adjSeeds.length) 0 inputs m.values }) ()
        (f.afterForward (f.layout adjSeeds.length) inputs (fwdSeeds.map seedOf) m) ∧
      e.outputs = (List.range f.nOut).map (f.outputOf (f.valueArray inputs)) ∧
      e.fwd = fwdSeeds.map (fun seed =>
        (List.range f.nOut).map (f.outputOf (f.tangentArray inputs (seedOf seed)))) ∧
      Run.Gives
        (if adjSeeds.length = 0 then pure [] else
          f.adjointSensitivities "evaluate" (f.segmentsAt (f.layout adjSeeds.length)) adjSeeds)
        (f.afterForward (f.layout adjSeeds.length) inputs (fwdSeeds.map seedOf) m) e.adj m' := by
  have hsound := layout_sound hf adjSeeds.length
  have hsegments := segments_of_sound hf hsound
  by_cases hcheck : f.checkEvaluation "evaluate" m.sizes inputs fwdSeeds adjSeeds = .ok ()
  · have haccepts := checkEvaluation_eq_ok_iff.1 hcheck
    have hloaded := gives_loadInputs hf hsound (m := m)
      (by rw [hm.values]; exact haccepts.work) haccepts.fitInputs
    have hseeded := gives_loadSeeds hf hsound seedOf fwdSeeds
      (m := { m with values := writeLists (f.layout adjSeeds.length) 0 inputs m.values })
      (by simpa [hm.values] using haccepts.work)
    obtain ⟨houtputs, hfwd⟩ := readOutputs_afterForward hf hm haccepts
    unfold evaluate
    simp only [Run.gives_bind, Run.gives_get, Run.gives_check, Run.gives_ofExcept,
      Run.gives_mapM_ofExcept, and_assoc, exists_and_left, exists_eq_left]
    constructor
    · rintro ⟨_, -, _, m₁, h₁, _, m₂, h₂, tape, htape, _, m₃, h₃, outputs, houtputs', fwd, hfwd',
        hadj⟩
      obtain ⟨-, rfl⟩ := h₁.unique hloaded
      obtain ⟨-, rfl⟩ := h₂.unique hseeded
      rw [hsegments] at htape
      cases htape
      have hafter : m₃ = f.afterForward (f.layout adjSeeds.length) inputs
          (fwdSeeds.map seedOf) m := by
        rw [eq_foldl_of_gives_forwardSweep h₃, afterForward, List.length_map]
      subst hafter
      rw [houtputs] at houtputs'
      rw [hfwd] at hfwd'
      cases houtputs'
      cases hfwd'
      exact ⟨hcheck, h₃, gives_return_adjoints_iff.1 hadj⟩
    · rintro ⟨-, hsweep, hreturn⟩
      exact ⟨_, hcheck, _, _, hloaded, _, _, hseeded, _, hsegments, _, _, hsweep, _, houtputs,
        _, hfwd, gives_return_adjoints_iff.2 hreturn⟩
  · refine iff_of_false (fun h => ?_) fun h => hcheck h.1
    unfold evaluate at h
    rw [Run.gives_get_bind] at h
    obtain ⟨_, _, h, -⟩ := Run.gives_bind.1 h
    exact hcheck (Run.gives_check.1 h).1

end Trace

end Tape

end SparseDiff
