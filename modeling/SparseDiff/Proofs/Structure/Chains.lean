import SparseDiff.Proofs.Pattern.Transpose
import SparseDiff.Proofs.Seeds
import SparseDiff.Proofs.Structure.Walk

/-!
# Sets and chains of dependencies

A chain of dependencies leads from slot to slot (`Leads`). Sets that are propagated forward
hold at a slot what a chain brings there (`Tape.bitAt_propagateForward_iff`), sets that are
propagated backward what a chain takes from there (`Tape.bitAt_propagateBackward_iff`). So the
patterns found in the two directions are one.
-/

namespace SparseDiff

variable {F : Type} {w : Nat}

/-- A visited cell with slot `s` depends on slot `r`. -/
def Feeds (visits : List (Nat × Cell F)) (r s : Nat) : Prop :=
  ∃ c, (s, c) ∈ visits ∧ r ∈ c.dependencies

/-- A chain of dependencies leads from one slot to another. -/
def Leads (visits : List (Nat × Cell F)) : Nat → Nat → Prop :=
  Relation.ReflTransGen (Feeds visits)

theorem Feeds.mono
    {visits visits' : List (Nat × Cell F)} (hsub : visits ⊆ visits') {r s : Nat}
    (h : Feeds visits r s) :
    Feeds visits' r s := by
  obtain ⟨c, hc, hr⟩ := h
  exact ⟨c, hsub hc, hr⟩

theorem Leads.mono
    {visits visits' : List (Nat × Cell F)} (hsub : visits ⊆ visits') {r s : Nat}
    (h : Leads visits r s) :
    Leads visits' r s :=
  Relation.ReflTransGen.mono (fun _ _ => Feeds.mono hsub) _ _ h

theorem Cell.dependencies_input
    {c : Cell F} (h : c.isInput = true) :
    c.dependencies = [] := by
  cases c with
  | input i k => rfl
  | _ => simp [isInput] at h

/-- Where readers come first, no chain leaves the first slot. -/
theorem eq_of_leads_head
    {v : Nat × Cell F} {visits : List (Nat × Cell F)} (hfirst : ReadersFirst (v :: visits))
    (hself : v.1 ∉ v.2.slots) {s : Nat} (h : Leads (v :: visits) v.1 s) :
    s = v.1 := by
  rcases Relation.ReflTransGen.cases_head h with heq | ⟨q, ⟨c, hc, hdep⟩, -⟩
  · exact heq.symm
  · have hread := Cell.mem_slots_of_mem_dependencies hdep
    rcases List.mem_cons.1 hc with rfl | hmem
    · exact absurd hread hself
    · exact absurd hread ((List.pairwise_cons.1 hfirst).1 (q, c) hmem).1

/-- Spreading sets from every cell to its dependencies, readers first. -/
theorem bitAt_foldl_spread_iff
    {visits : List (Nat × Cell F)} (hfirst : ReadersFirst visits)
    (hself : ∀ v ∈ visits, v.1 ∉ v.2.slots) :
    ∀ {bits : Array (BitVec w)}, (∀ v ∈ visits, ∀ r ∈ v.2.dependencies, r < bits.size) →
      ∀ p j : Nat,
        bitAt (visits.foldl (fun bits v => v.2.spreadBits (bits.getD v.1 0) bits) bits) p j =
          true ↔ ∃ s, bitAt bits s j = true ∧ Leads visits p s := by
  induction visits with
  | nil =>
      intro bits _ p j
      constructor
      · exact fun h => ⟨p, h, .refl⟩
      · rintro ⟨s, hs, hlead⟩
        rcases Relation.ReflTransGen.cases_head hlead with rfl | ⟨q, ⟨c, hc, -⟩, -⟩
        · exact hs
        · exact absurd hc List.not_mem_nil
  | cons v visits ih =>
      intro bits hroom p j
      have hspread : ∀ {p}, bitAt (v.2.spreadBits (bits.getD v.1 0) bits) p j = true ↔
          bitAt bits p j = true ∨ p ∈ v.2.dependencies ∧ bitAt bits v.1 j = true :=
        Cell.bitAt_spreadBits_iff (hroom v (List.mem_cons_self ..))
      rw [List.foldl_cons, ih (List.pairwise_cons.1 hfirst).2
        (fun v' hv' => hself v' (List.mem_cons_of_mem _ hv')) (fun v' hv' r hr => by
          rw [Cell.size_spreadBits]
          exact hroom v' (List.mem_cons_of_mem _ hv') r hr)]
      constructor
      · rintro ⟨s, hs, hlead⟩
        have hlead' := hlead.mono (List.subset_cons_self v visits)
        rcases hspread.1 hs with hold | ⟨hdep, hset⟩
        · exact ⟨s, hold, hlead'⟩
        · exact ⟨v.1, hset, hlead'.tail ⟨v.2, List.mem_cons_self .., hdep⟩⟩
      · rintro ⟨s, hs, hlead⟩
        induction hlead using Relation.ReflTransGen.head_induction_on with
        | refl => exact ⟨s, hspread.2 (.inl hs), .refl⟩
        | @head p q hstep hrest ih' =>
            obtain ⟨c, hc, hdep⟩ := hstep
            rcases List.mem_cons.1 hc with rfl | hmem
            · -- the first cell is the last on the chain
              have heq := eq_of_leads_head hfirst (hself _ (List.mem_cons_self ..)) hrest
              subst heq
              exact ⟨p, hspread.2 (.inr ⟨hdep, hs⟩), .refl⟩
            · obtain ⟨t, ht, hlead⟩ := ih'
              exact ⟨t, ht, hlead.head ⟨c, hmem, hdep⟩⟩

/-- One pass that gives every cell but the inputs the union of its dependencies. -/
def gatherAll (visits : List (Nat × Cell F)) (bits : Array (BitVec w)) : Array (BitVec w) :=
  visits.foldl
    (fun bits v => if v.2.isInput then bits else bits.setIfInBounds v.1 (v.2.gatherBits bits))
    bits

theorem gatherAll_cons
    (v : Nat × Cell F) (visits : List (Nat × Cell F)) (bits : Array (BitVec w)) :
    gatherAll (v :: visits) bits =
      gatherAll visits
        (if v.2.isInput then bits else bits.setIfInBounds v.1 (v.2.gatherBits bits)) :=
  rfl

/-- A slot that no cell but an input has keeps its set. -/
theorem bitAt_gatherAll_eq
    {visits : List (Nat × Cell F)} {s : Nat} (h : ∀ v ∈ visits, v.1 = s → v.2.isInput = true)
    (bits : Array (BitVec w)) (j : Nat) :
    bitAt (gatherAll visits bits) s j = bitAt bits s j := by
  induction visits generalizing bits with
  | nil => rfl
  | cons v visits ih =>
      rw [gatherAll_cons, ih fun v' hv' => h v' (List.mem_cons_of_mem _ hv')]
      split
      · rfl
      · next hinput =>
          refine bitAt_setIfInBounds_ne (fun heq => hinput ?_) ..
          exact h v (List.mem_cons_self ..) heq.symm

/-- In the order of the tape, every other cell ends with the union of its dependencies. -/
theorem bitAt_gatherAll_iff
    {visits : List (Nat × Cell F)} (hsorted : visits.Pairwise fun a b => a.1 < b.1)
    (hslots : ∀ v ∈ visits, ∀ r ∈ v.2.slots, r < v.1) {bits : Array (BitVec w)}
    (hroom : ∀ v ∈ visits, v.1 < bits.size) {v : Nat × Cell F} (hv : v ∈ visits)
    (hinput : v.2.isInput = false) (j : Nat) :
    bitAt (gatherAll visits bits) v.1 j = true ↔
      ∃ r ∈ v.2.dependencies, bitAt (gatherAll visits bits) r j = true := by
  induction visits generalizing bits with
  | nil => exact absurd hv List.not_mem_nil
  | cons v' visits ih =>
      obtain ⟨hhead, htail⟩ := List.pairwise_cons.1 hsorted
      rw [gatherAll_cons]
      rcases List.mem_cons.1 hv with rfl | hmem
      · -- later cells change neither this slot nor a slot that it reads
        have hkeep : ∀ s, s ≤ v.1 → ∀ bits : Array (BitVec w),
            bitAt (gatherAll visits bits) s j = bitAt bits s j := fun s hs bits =>
          bitAt_gatherAll_eq (fun v' hv' heq => absurd (hhead v' hv') (by omega)) bits j
        have hread : ∀ r ∈ v.2.dependencies, r < v.1 := fun r hr =>
          hslots v (List.mem_cons_self ..) r (Cell.mem_slots_of_mem_dependencies hr)
        rw [hinput, hkeep v.1 (Nat.le_refl _), if_neg Bool.false_ne_true,
          bitAt_setIfInBounds_self (hroom v (List.mem_cons_self ..)), Cell.getLsbD_gatherBits_iff]
        refine exists_congr fun r => and_congr_right fun hr => ?_
        have hlt := hread r hr
        rw [hkeep r (by omega), bitAt_setIfInBounds_ne (by omega)]
      · refine ih htail (fun v hv => hslots v (List.mem_cons_of_mem _ hv)) (fun v hv => ?_) hmem
        have hlt := hroom v (List.mem_cons_of_mem _ hv)
        split
        · exact hlt
        · rwa [Array.size_setIfInBounds]

/-- Only the seed of its block brings a nonzero into a set. -/
theorem exists_seed_iff
    {size start n k : Nat} (hroom : start + n ≤ size) {P : Nat → Prop} :
    (∃ s, bitAt (seedBlock size start n (k / wordSize * wordSize)) s (k % wordSize) =
        true ∧ P s) ↔
      k < n ∧ P (start + k) := by
  have hlt : k % wordSize < wordSize := Nat.mod_lt _ (Nat.succ_pos 63)
  have hsum := Nat.div_add_mod' k wordSize
  constructor
  · rintro ⟨s, hbit, hs⟩
    obtain ⟨-, hk, rfl⟩ := (bitAt_seedBlock_iff hroom).1 hbit
    rw [Nat.add_assoc, hsum] at hs
    exact ⟨by omega, hs⟩
  · rintro ⟨hk, hs⟩
    exact ⟨start + k, (bitAt_seedBlock_iff hroom).2 ⟨hlt, by omega, by omega⟩, hs⟩

namespace Tape

variable {f : Tape F} [Zero F]

/-- Slots have one cell each. -/
theorem cell_unique
    (hf : f.WellFormed) {s : Nat} {c c' : Cell F} (h : (s, c) ∈ f.visits)
    (h' : (s, c') ∈ f.visits) :
    c = c' := by
  have hget := getElem?_trace_of_mem_visits hf h
  rw [getElem?_trace_of_mem_visits hf h'] at hget
  exact (Option.some.inj hget).symm

/-- From seeds at inputs, a set holds what a chain leads to its slot. -/
theorem bitAt_propagateForward_iff
    (hf : f.WellFormed) {bits : Array (BitVec w)} (hsize : bits.size = f.full.size)
    (hseeds : ∀ s j, bitAt bits s j = true → ∃ c, (s, c) ∈ f.visits ∧ c.isInput = true)
    {s : Nat} (hs : s < f.full.size) (j : Nat) :
    bitAt (propagateForward (f.segmentsAt f.full) bits) s j = true ↔
      ∃ r, bitAt bits r j = true ∧ Leads f.visits r s := by
  have hwalk : propagateForward (f.segmentsAt f.full) bits = gatherAll f.ascent bits := by
    unfold propagateForward
    rw [walkForward_eq_foldl]
    rfl
  rw [hwalk]
  induction s using Nat.strong_induction_on with
  | _ s ih =>
      obtain ⟨c, hc⟩ := mem_visits_of_lt hf hs
      cases hinput : c.isInput with
      | true =>
          have hkeep : ∀ v ∈ f.ascent, v.1 = s → v.2.isInput = true := by
            rintro ⟨s', c'⟩ hv rfl
            rw [cell_unique hf (mem_ascent_iff.1 hv) hc]
            exact hinput
          rw [bitAt_gatherAll_eq hkeep]
          constructor
          · exact fun h => ⟨s, h, .refl⟩
          · rintro ⟨r, hr, hlead⟩
            rcases Relation.ReflTransGen.cases_tail hlead with rfl | ⟨q, -, c', hc', hdep⟩
            · exact hr
            · rw [cell_unique hf hc' hc, Cell.dependencies_input hinput] at hdep
              exact absurd hdep List.not_mem_nil
      | false =>
          have hbelow : ∀ r ∈ c.dependencies, r < s := fun r hr =>
            (lt_of_mem_visits hf hc).2 r (Cell.mem_slots_of_mem_dependencies hr)
          rw [bitAt_gatherAll_iff (pairwise_ascent hf)
            (fun v hv => (lt_of_mem_visits hf (mem_ascent_iff.1 hv)).2)
            (fun v hv => by rw [hsize]; exact (lt_of_mem_visits hf (mem_ascent_iff.1 hv)).1)
            (mem_ascent_iff.2 hc) hinput]
          constructor
          · rintro ⟨r, hr, hbit⟩
            have hlt := hbelow r hr
            obtain ⟨q, hq, hlead⟩ := (ih r hlt (by omega)).1 hbit
            exact ⟨q, hq, hlead.tail ⟨c, hc, hr⟩⟩
          · rintro ⟨q, hq, hlead⟩
            rcases Relation.ReflTransGen.cases_tail hlead with rfl | ⟨r, hlead', c', hc', hdep⟩
            · -- no seed stands at this slot
              obtain ⟨c', hc', hinput'⟩ := hseeds _ j hq
              rw [cell_unique hf hc' hc, hinput] at hinput'
              exact absurd hinput' Bool.false_ne_true
            · rw [cell_unique hf hc' hc] at hdep
              have hlt := hbelow r hdep
              exact ⟨r, hdep, (ih r hlt (by omega)).2 ⟨q, hq, hlead'⟩⟩

/-- A set holds what a chain from its slot leads to. -/
theorem bitAt_propagateBackward_iff
    (hf : f.WellFormed) {bits : Array (BitVec w)} (hsize : bits.size = f.full.size) (s j : Nat) :
    bitAt (propagateBackward (f.segmentsAt f.full) bits) s j = true ↔
      ∃ r, bitAt bits r j = true ∧ Leads f.visits s r := by
  unfold propagateBackward
  rw [walkBackward_eq_foldl]
  refine bitAt_foldl_spread_iff (readersFirst_visits hf)
    (fun v hv hread => Nat.lt_irrefl _ ((lt_of_mem_visits hf hv).2 v.1 hread))
    (fun v hv r hr => ?_) s j
  obtain ⟨hlt, hslots⟩ := lt_of_mem_visits hf hv
  have := hslots r (Cell.mem_slots_of_mem_dependencies hr)
  omega

variable {i o : Nat}

/-- Forward sets hold nonzeros of the input only. -/
theorem lt_of_bitAt_forward
    (hf : f.WellFormed) (hi : i < f.nIn) (first s j : Nat)
    (hbit : bitAt (propagateForward (f.segmentsAt f.full)
      (seedBlock f.full.size (f.full.slot i 0) (f.inputLength i) first)) s j = true) :
    first + j < f.inputLength i :=
  bitAt_propagateForward
    (fun _ _ h => ((bitAt_seedBlock_iff (inputSlot_add_length_le hf hi)).1 h).2.1) s j hbit

/-- Backward sets hold nonzeros of the output only. -/
theorem lt_of_bitAt_backward
    (hf : f.WellFormed) (ho : o < f.nOut) (first s j : Nat)
    (hbit : bitAt (propagateBackward (f.segmentsAt f.full)
      (seedBlock f.full.size (f.outputSlot o 0) (f.outputLength o) first)) s j = true) :
    first + j < f.outputLength o :=
  bitAt_propagateBackward hf (size_seedBlock ..)
    (fun _ _ h => ((bitAt_seedBlock_iff (outputSlot_add_length_le hf ho)).1 h).2.1) s j hbit

theorem wellFormed_jacobianForward
    (hf : f.WellFormed) (hi : i < f.nIn) (o : Nat) :
    (f.jacobianForward (f.segmentsAt f.full) (f.full.slot i 0, f.inputLength i)
      (f.outputSlot o 0, f.outputLength o)).WellFormed :=
  wellFormed_collected (lt_of_bitAt_forward hf hi) (f.outputLength o) (f.outputSlot o 0)

theorem wellFormed_jacobianBackward
    (hf : f.WellFormed) (i : Nat) (ho : o < f.nOut) :
    (f.jacobianBackward (f.segmentsAt f.full) (f.full.slot i 0, f.inputLength i)
      (f.outputSlot o 0, f.outputLength o)).WellFormed :=
  (wellFormed_collected (lt_of_bitAt_backward hf ho) (f.inputLength i)
    (f.full.slot i 0)).transpose

theorem nrow_jacobianForward
    (f : Tape F) (i o : Nat) :
    (f.jacobianForward (f.segmentsAt f.full) (f.full.slot i 0, f.inputLength i)
      (f.outputSlot o 0, f.outputLength o)).nrow = f.outputLength o :=
  nrow_collected

/-- Propagating the nonzeros of an input forward finds the chains from them. -/
theorem mem_row_jacobianForward_iff
    (hf : f.WellFormed) (hi : i < f.nIn) (ho : o < f.nOut) {r : Nat}
    (hr : r < f.outputLength o) (c : Nat) :
    c ∈ (f.jacobianForward (f.segmentsAt f.full) (f.full.slot i 0, f.inputLength i)
        (f.outputSlot o 0, f.outputLength o)).row r ↔
      c < f.inputLength i ∧ Leads f.visits (f.full.slot i c) (f.outputSlot o r) := by
  have hroom : f.full.slot i 0 + f.inputLength i ≤ f.full.size := inputSlot_add_length_le hf hi
  -- seeds stand at the input, which has input cells
  have hseeds : ∀ first s j,
      bitAt (seedBlock f.full.size (f.full.slot i 0) (f.inputLength i) first) s j = true →
        ∃ c, (s, c) ∈ f.visits ∧ c.isInput = true := by
    intro first s j hbit
    obtain ⟨-, hk, rfl⟩ := (bitAt_seedBlock_iff hroom).1 hbit
    obtain ⟨e, he, hnnz⟩ := hf.element_of_input hi
    refine ⟨.input i (first + j), mem_visits_iff.2 ⟨i, e, first + j, he, by omega, ?_⟩, rfl⟩
    rw [cellAt_input hf he hi, Nat.add_assoc, Layout.slot_zero_add]
  refine (mem_row_collected_iff (lt_of_bitAt_forward hf hi) hr).trans ?_
  rw [outputSlot_add, bitAt_propagateForward_iff hf (size_seedBlock ..) (hseeds _)
    (outputSlot_lt hf ho hr), exists_seed_iff hroom, Layout.slot_zero_add]

/-- Propagating the nonzeros of an output backward finds the chains to them. -/
theorem mem_row_jacobianBackward_iff
    (hf : f.WellFormed) (i : Nat) (ho : o < f.nOut) {r : Nat} (hr : r < f.outputLength o)
    (c : Nat) :
    c ∈ (f.jacobianBackward (f.segmentsAt f.full) (f.full.slot i 0, f.inputLength i)
        (f.outputSlot o 0, f.outputLength o)).row r ↔
      c < f.inputLength i ∧ Leads f.visits (f.full.slot i c) (f.outputSlot o r) := by
  have hroom := outputSlot_add_length_le hf ho
  have hcollected := wellFormed_collected (lt_of_bitAt_backward hf ho) (f.inputLength i)
    (f.full.slot i 0)
  refine (Pattern.mem_row_transpose_iff hcollected).trans ?_
  constructor
  · intro hmem
    have hc : c < f.inputLength i := by
      have hlt := Pattern.lt_nrow_of_mem_row hmem
      rwa [nrow_collected] at hlt
    refine ⟨hc, ?_⟩
    have hbit := (mem_row_collected_iff (lt_of_bitAt_backward hf ho) hc).1 hmem
    rw [Layout.slot_zero_add, bitAt_propagateBackward_iff hf (size_seedBlock ..),
      exists_seed_iff hroom, outputSlot_add] at hbit
    exact hbit.2
  · rintro ⟨hc, hlead⟩
    refine (mem_row_collected_iff (lt_of_bitAt_backward hf ho) hc).2 ?_
    rw [Layout.slot_zero_add, bitAt_propagateBackward_iff hf (size_seedBlock ..),
      exists_seed_iff hroom, outputSlot_add]
    exact ⟨hr, hlead⟩

/-- The two directions find one pattern. -/
theorem jacobianBackward_eq_jacobianForward
    (hf : f.WellFormed) (hi : i < f.nIn) (ho : o < f.nOut) :
    f.jacobianBackward (f.segmentsAt f.full) (f.full.slot i 0, f.inputLength i)
        (f.outputSlot o 0, f.outputLength o) =
      f.jacobianForward (f.segmentsAt f.full) (f.full.slot i 0, f.inputLength i)
        (f.outputSlot o 0, f.outputLength o) := by
  have hnrow : (f.jacobianBackward (f.segmentsAt f.full) (f.full.slot i 0, f.inputLength i)
      (f.outputSlot o 0, f.outputLength o)).nrow = f.outputLength o :=
    Pattern.nrow_transpose _
  refine (wellFormed_jacobianBackward hf i ho).eq_of_mem_iff (wellFormed_jacobianForward hf hi o)
    (hnrow.trans (nrow_jacobianForward f i o).symm) nrow_collected fun r hr c => ?_
  rw [hnrow] at hr
  rw [mem_row_jacobianBackward_iff hf i ho hr, mem_row_jacobianForward_iff hf hi ho hr]

/-- Whichever direction is taken, it is the pattern that is found forward. -/
theorem jacobianPattern_eq
    (hf : f.WellFormed) (ho : o < f.nOut) (hi : i < f.nIn) :
    f.jacobianPattern o i =
      .ok (f.jacobianForward (f.segmentsAt f.full) (f.full.slot i 0, f.inputLength i)
        (f.outputSlot o 0, f.outputLength o)) := by
  obtain ⟨out, inp, hblock, -⟩ := checkBlock_eq "jacobian_sparsity" ho hi
  have hinput : f.inputSlots i = .ok (f.full.slot i 0, f.inputLength i) := inputRange_eq hf hi
  unfold jacobianPattern
  simp only [hblock, orReject, Except.mapError, segments_full hf, hinput, outputRange_eq hf ho,
    bind, Except.bind]
  split
  · rfl
  · rw [jacobianBackward_eq_jacobianForward hf hi ho]
    rfl

end Tape

end SparseDiff
