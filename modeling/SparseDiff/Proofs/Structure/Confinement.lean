import SparseDiff.Proofs.Assembly.Hessian
import SparseDiff.Proofs.Structure.Chains

/-!
# Structural Hessians lie inside gradients

A live slot has a chain of dependencies to the output (`Tape.leads_of_live`), and a number in a
set has a chain to the slot of the set. So numbers that interact at a live cell have both a
chain to the output (`Tape.confined_interactions`): their row and their column are in the
structural gradient.
-/

namespace SparseDiff

variable {F : Type} {n : Nat}

/-- A cell that combines two numbers depends on a slot with the first. -/
theorem Cell.Interacts.exists_dependency
    {c : Cell F} {bits : Array (BitVec n)} {i j : Nat} (h : c.Interacts bits i j) :
    ∃ s ∈ c.dependencies, bitAt bits s i = true := by
  have hoperand : ∀ {a : Option Nat}, (operandBits bits a).getLsbD i = true →
      (∀ s ∈ a.toList, s ∈ c.dependencies) → ∃ s ∈ c.dependencies, bitAt bits s i = true := by
    intro a hbit hdep
    cases a with
    | none => simp [operandBits] at hbit
    | some s => exact ⟨s, hdep s (by simp), hbit⟩
  cases c with
  | unary op a =>
      obtain ⟨hop, hbit, -⟩ := h
      refine hoperand hbit fun s hs => ?_
      simp only [Bool.and_eq_true, Bool.not_eq_true'] at hop
      simpa [dependencies, hop.2] using hs
  | binary op a b =>
      have hleft := fun hbit => hoperand (a := a) hbit fun s => List.mem_append_left _
      have hright := fun hbit => hoperand (a := b) hbit fun s => List.mem_append_right _
      rcases h with ⟨-, hbit, -⟩ | ⟨-, hbit, -⟩ | ⟨-, ⟨hbit, -⟩ | ⟨hbit, -⟩⟩
      · exact hleft hbit
      · exact hright hbit
      · exact hleft hbit
      · exact hright hbit
  | _ => exact h.elim

/-- A number that a cell brings into a set is in the set of a dependency. -/
theorem Interactions.of_bitAt_bits_step
    {live : Array Bool} {state : Interactions n} {c : Cell F} {slot s j : Nat}
    (h : bitAt (state.step live c slot).bits s j = true) :
    bitAt state.bits s j = true ∨
      s = slot ∧ ∃ r ∈ c.dependencies, bitAt state.bits r j = true := by
  cases hinput : c.isInput with
  | true =>
      rw [step, if_pos hinput] at h
      exact .inl h
  | false =>
      rw [step, if_neg (by rw [hinput]; exact Bool.false_ne_true)] at h
      have hset := bitAt_of_bitAt_setIfInBounds h
      rwa [Cell.getLsbD_gatherBits_iff] at hset

/-- Sets hold what a chain brings from input `i`; what interacts has a chain to the output. -/
structure Interactions.Confined [Zero F] (f : Tape F) (i output : Nat) (state : Interactions n) :
    Prop where
  size : state.rows.size = n
  bits : ∀ s j, bitAt state.bits s j = true → Leads f.visits (f.full.slot i j) s
  rows : ∀ r c, bitAt state.rows r c = true → Leads f.visits (f.full.slot i r) output

namespace Tape

variable [Zero F] {f : Tape F} {i o : Nat}

/-- From a live slot a chain leads to the output. -/
theorem leads_of_live
    (hf : f.WellFormed) {output s : Nat}
    (h : (liveSlots f.full.size output (f.segmentsAt f.full)).getD s false = true) :
    Leads f.visits s output := by
  rw [liveSlots_eq_foldl] at h
  have hwalk := List.foldlRecOn
    (motive := fun live : Array Bool =>
      live.size = f.full.size ∧ ∀ s, live.getD s false = true → Leads f.visits s output)
    f.visits (fun live v => v.2.spreadLive v.1 live)
    (b := (Array.replicate f.full.size false).setIfInBounds output true) ⟨by simp, ?start⟩ ?step
  · exact hwalk.2 s h
  case start =>
    intro s hs
    have heq : output = s := by
      by_contra hne
      rw [Array.getD_eq_getD_getElem?, Array.getElem?_setIfInBounds_ne hne,
        Array.getElem?_replicate] at hs
      split at hs <;> cases hs
    rw [heq]
    exact .refl
  case step =>
    rintro live ⟨hsize, hlive⟩ v hv
    refine ⟨by rw [Cell.size_spreadLive, hsize], fun s hs => ?_⟩
    rw [Cell.getD_spreadLive_iff fun r hr => ?room] at hs
    case room =>
      rw [hsize]
      exact slots_lt_of_mem_visits hf hv r (Cell.mem_slots_of_mem_dependencies hr)
    rcases hs with hold | ⟨hslot, hdep⟩
    · exact hlive s hold
    · exact (hlive v.1 hslot).head ⟨v.2, hv, hdep⟩

/-- A visit keeps to the chains. -/
theorem confined_step
    {output : Nat} {live : Array Bool}
    (hlive : ∀ s, live.getD s false = true → Leads f.visits s output)
    {state : Interactions n} (h : state.Confined f i output) {v : Nat × Cell F}
    (hv : v ∈ f.visits) :
    (state.step live v.2 v.1).Confined f i output := by
  have hdepends : ∀ {s j}, s ∈ v.2.dependencies → bitAt state.bits s j = true →
      Leads f.visits (f.full.slot i j) v.1 := fun hdep hbit =>
    (h.bits _ _ hbit).tail ⟨v.2, hv, hdep⟩
  refine ⟨by rw [Interactions.size_rows_step, h.size], fun s j hbit => ?_, fun r c hbit => ?_⟩
  · rcases Interactions.of_bitAt_bits_step hbit with hold | ⟨rfl, r, hdep, hr⟩
    · exact h.bits s j hold
    · exact hdepends hdep hr
  · rw [Interactions.bitAt_rows_step_iff h.size] at hbit
    rcases hbit with hbit | ⟨-, hnow, hinteracts⟩
    · exact h.rows r c hbit
    · obtain ⟨s, hdep, hbit⟩ := hinteracts.exists_dependency
      exact (hdepends hdep hbit).trans (hlive v.1 hnow)

/-- Nonzeros that interact have chains to the output. -/
theorem confined_interactions
    (hf : f.WellFormed) (o : Nat) {i : Nat} (hi : i < f.nIn) :
    (f.interactions o i).Confined f i (f.outputSlot o 0) := by
  obtain ⟨hsymm, -, hstart⟩ := Interactions.start_spec (inputSlot_add_length_le hf hi)
  refine List.foldlRecOn (motive := Interactions.Confined f i (f.outputSlot o 0)) _ _ ?_
    fun state hstate v hv => confined_step (fun s => leads_of_live hf) hstate (mem_ascent_iff.1 hv)
  refine ⟨hsymm.size, fun s j hbit => ?_, fun r c hbit => ?_⟩
  · obtain ⟨-, rfl⟩ := (hstart s j).1 hbit
    rw [Layout.slot_zero_add]
    exact .refl
  · rw [Interactions.start, bitAt_replicate] at hbit
    cases hbit

/--
The structural Hessian of a scalar output is a well-formed symmetric pattern with a row for
every nonzero of the input, and a nonzero of it has its row and its column in the structural
gradient. Over exact arithmetic, the sweep with the unit tangent at `c` finds zero at every `r`
where `(r, c)` is not in the pattern, whatever the values of the inputs.
-/
theorem hessianPattern_confined :
    (∀ {F : Type} [Zero F] [Elementary F] [ElementText F] {g : Graph F}
      {inputs outputs : List NodeId} {config : Config} {f : Tape F}, g.BareLeaves →
      compile g inputs outputs config = .ok f →
      ∀ {o i : Nat} {out : Pattern}, f.outputPatterns[o]? = some out →
        out.isDenseScalar = true → i < f.nIn →
        ∃ h j, f.hessianPattern o i = .ok h ∧ f.jacobianPattern o i = .ok j ∧ h.WellFormed ∧
          h.nrow = f.inputLength i ∧ h.ncol = f.inputLength i ∧
          (∀ r c, c ∈ h.row r ↔ r ∈ h.row c) ∧
          ∀ r c, c ∈ h.row r → r ∈ j.row 0 ∧ c ∈ j.row 0) ∧
    ∀ {F : Type} [CommRing F] [Div F] [Elementary F] [Elementary.Exact F] [ElementText F]
      {g : Graph F} {inputs outputs : List NodeId} {config : Config} {f : Tape F}, g.BareLeaves →
      compile g inputs outputs config = .ok f →
      ∀ {o i : Nat} {out : Pattern}, f.outputPatterns[o]? = some out →
        out.isDenseScalar = true → i < f.nIn →
        ∃ h tape, f.hessianPattern o i = .ok h ∧ f.segments f.full = .ok tape ∧
          ∀ r < f.inputLength i, ∀ c < f.inputLength i, c ∉ h.row r →
            ∀ xs, FitLists f.inputPatterns xs → ∀ m : Memory F, m.WellSized →
              m.sizes.check hessianOp (f.requiredMemory 1 1) = .ok () →
              ∃ product,
                (f.hessianProducts tape xs o i [unitTangent i c]).alone m = .ok [product] ∧
                  product[r]? = some 0 := by
  constructor
  · intro F _ _ _ g inputs outputs config f hbare hcompile o i out ho hscalar hi
    obtain ⟨order, h⟩ := compiled_of_compile hbare hcompile
    have hf := h.wellFormed
    have hlt : o < f.nOut := (List.getElem?_eq_some_iff.1 ho).1
    have hone := outputLength_of_isDenseScalar ho hscalar
    obtain ⟨p, hp, hwell, hnrow, hncol, hsymm, hmarks⟩ := hessianPattern_marks hf ho hscalar hi
    have hgradient : ∀ r c, c ∈ p.row r →
        r ∈ (f.jacobianForward (f.segmentsAt f.full) (f.full.slot i 0, f.inputLength i)
          (f.outputSlot o 0, f.outputLength o)).row 0 := by
      intro r c hc
      have hr : r < f.inputLength i := hnrow ▸ Pattern.lt_nrow_of_mem_row hc
      rw [mem_row_jacobianForward_iff hf hi hlt (by omega), and_iff_right hr]
      exact (confined_interactions hf o hi).rows r c ((hmarks r c).1 hc)
    refine ⟨p, _, hp, jacobianPattern_eq hf hlt hi, hwell, hnrow, hncol, ?_, ?_⟩
    · intro r c
      exact ⟨hsymm r c, hsymm c r⟩
    · intro r c hc
      exact ⟨hgradient r c hc, hgradient c r (hsymm r c hc)⟩
  · intro F _ _ _ _ _ g inputs outputs config f hbare hcompile o i out ho hscalar hi
    obtain ⟨order, h⟩ := compiled_of_compile hbare hcompile
    have hf := h.wellFormed
    obtain ⟨p, hpattern, -, -, -, -, hzero⟩ := hessianPattern_spec hf ho hscalar hi
    refine ⟨p, _, hpattern, segments_full hf, ?_⟩
    intro r hr c hc hnot xs hfit m hm hcheck
    obtain ⟨product, hproduct, hentry⟩ := hessianProducts_unitTangent hf
      (List.getElem?_eq_some_iff.1 ho).1 hi hr c hfit hm hcheck
    rw [hzero r hr c hc hnot xs] at hentry
    exact ⟨product, hproduct, hentry⟩

theorem hessianPattern_confined_scaling :
    (∃ h j, scaling.hessianPattern 0 0 = .ok h ∧ scaling.jacobianPattern 0 0 = .ok j ∧
      1 ∈ h.row 0 ∧ 0 ∈ j.row 0 ∧ 1 ∈ j.row 0) ∧
    ∃ h tape product, scaling.hessianPattern 0 0 = .ok h ∧
      scaling.segments scaling.full = .ok tape ∧ 0 ∉ h.row 0 ∧
      (scaling.hessianProducts tape [[2, 3]] 0 0 [unitTangent 0 0]).alone (scaling.memory 1 1) =
        .ok [product] ∧
      product[0]? = some 0 := by
  have hout : scaling.outputPatterns[0]? = some ⟨1, #[[0]]⟩ := by
    cbv
  have hinput : 0 < scaling.nIn := by
    cbv
  have hpattern : scaling.hessianPattern 0 0 = .ok ⟨2, #[[1], [0]]⟩ := by
    cbv
  have haccepts : scaling.Accepts (scaling.memory 1 1).sizes [[2, 3]] [] [] :=
    checkEvaluation_eq_ok_iff.1 (show scaling.checkEvaluation "evaluate" _ _ _ _ = .ok () by cbv)
  constructor
  · obtain ⟨h, j, hh, hj, -, -, -, -, hconfined⟩ := hessianPattern_confined.1
      Graph.bareLeaves_scaling compile_scaling hout (by decide) hinput
    rw [hpattern] at hh
    cases hh
    exact ⟨_, j, hpattern, hj, by decide, hconfined 0 1 (by decide)⟩
  · obtain ⟨h, tape, hh, htape, hzero⟩ := hessianPattern_confined.2
      Graph.bareLeaves_scaling compile_scaling hout (by decide) hinput
    rw [hpattern] at hh
    cases hh
    obtain ⟨product, hproduct, hentry⟩ := hzero 0 (by cbv) 0 (by cbv) (by decide) [[2, 3]]
      haccepts.fitInputs (scaling.memory 1 1) (Memory.wellSized_new _) (by cbv)
    exact ⟨_, tape, product, hpattern, htape, by decide, hproduct, hentry⟩

end Tape

end SparseDiff
