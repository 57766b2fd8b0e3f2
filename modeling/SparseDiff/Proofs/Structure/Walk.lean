import SparseDiff.Proofs.Adjoint
import SparseDiff.Structure.Jacobian

/-!
# Walks over a tape and the sets they carry

A structural analysis walks over the cells of the full layout, forward or backward, and
keeps a set for every slot. Here are the order of the cells on a walk (`Tape.ascent`,
`Tape.visits`), the bits of a set after each operation on sets, and the rows that are
collected from the sets of all blocks (`mem_row_collectRows`).
-/

namespace SparseDiff

variable {F : Type}

theorem walkForward_eq_foldl
    {α : Type} (step : α → Cell F → Nat → α) (start : α) (tape : List (Segment F)) :
    walkForward step start tape =
      (tape.flatMap Segment.visits).foldl (fun a v => step a v.2 v.1) start := by
  unfold walkForward
  induction tape generalizing start with
  | nil => rfl
  | cons s tape ih =>
      rw [List.foldl_cons, ih, List.flatMap_cons, List.foldl_append, Segment.visits,
        List.foldl_map]

namespace Tape

variable {f : Tape F} [Zero F]

/-- All cells with their slots in the full layout, in tape order. -/
def ascent (f : Tape F) : List (Nat × Cell F) := (f.segmentsAt f.full).flatMap Segment.visits

theorem walkBackward_eq_foldl
    {α : Type} (step : α → Cell F → Nat → α) (start : α) :
    walkBackward step start (f.segmentsAt f.full) =
      f.visits.foldl (fun a v => step a v.2 v.1) start :=
  walkForward_eq_foldl step start _

theorem mem_ascent_iff
    {v : Nat × Cell F} :
    v ∈ f.ascent ↔ v ∈ f.visits := by
  simp [ascent, visits]

/-- Slots increase along the tape. -/
theorem pairwise_ascent
    (hf : f.WellFormed) :
    f.ascent.Pairwise fun a b => a.1 < b.1 := by
  unfold ascent
  rw [List.pairwise_flatMap]
  constructor
  · intro s hs
    obtain ⟨p, hp⟩ := List.mem_iff_getElem?.1 hs
    rw [getElem?_segmentsAt] at hp
    obtain ⟨e, he, rfl⟩ := Option.map_eq_some_iff.1 hp
    rw [visits_segmentAt, List.pairwise_map]
    refine List.pairwise_lt_range.imp fun {i j} hij => ?_
    simp only [Layout.slot]
    omega
  · rw [List.pairwise_iff_getElem]
    intro p q hp hq hpq a ha b hb
    rw [length_segmentsAt] at hp hq
    rw [getElem_segmentsAt f f.full hp, visits_segmentAt] at ha
    rw [getElem_segmentsAt f f.full hq, visits_segmentAt] at hb
    obtain ⟨i, hi, rfl⟩ := List.mem_map.1 ha
    obtain ⟨j, hj, rfl⟩ := List.mem_map.1 hb
    exact full_slot_lt_slot hf hpq (Array.getElem?_eq_getElem hp) (List.mem_range.1 hi) hq j

end Tape

section Sets

variable {w : Nat}

/-- Number `j` is in the set at slot `s`. -/
def bitAt (bits : Array (BitVec w)) (s j : Nat) : Bool := (bits.getD s 0).getLsbD j

theorem bitAt_setIfInBounds_self
    {bits : Array (BitVec w)} {s : Nat} (hs : s < bits.size) (set : BitVec w) (j : Nat) :
    bitAt (bits.setIfInBounds s set) s j = set.getLsbD j := by
  simp [bitAt, Array.getD_eq_getD_getElem?, hs]

theorem bitAt_setIfInBounds_ne
    {s p : Nat} (h : p ≠ s) (bits : Array (BitVec w)) (set : BitVec w) (j : Nat) :
    bitAt (bits.setIfInBounds s set) p j = bitAt bits p j := by
  simp [bitAt, Array.getD_eq_getD_getElem?, Array.getElem?_setIfInBounds_ne (Ne.symm h)]

/-- What is found after a write was there before or has been written. -/
theorem bitAt_of_bitAt_setIfInBounds
    {bits : Array (BitVec w)} {s p j : Nat} {set : BitVec w}
    (h : bitAt (bits.setIfInBounds s set) p j = true) :
    bitAt bits p j = true ∨ p = s ∧ set.getLsbD j = true := by
  by_cases hp : p = s
  · subst hp
    rcases Nat.lt_or_ge p bits.size with hlt | hge
    · rw [bitAt_setIfInBounds_self hlt] at h
      exact .inr ⟨rfl, h⟩
    · rw [Array.setIfInBounds_eq_of_size_le hge] at h
      exact .inl h
  · rw [bitAt_setIfInBounds_ne hp] at h
    exact .inl h

/-- Adding a set at a slot adds its members there. -/
theorem bitAt_modify_or
    {bits : Array (BitVec w)} {s : Nat} (hs : s < bits.size) (set : BitVec w) (p j : Nat) :
    bitAt (bits.modify s (· ||| set)) p j = (bitAt bits p j || (p == s && set.getLsbD j)) := by
  by_cases h : p = s
  · subst h
    simp [bitAt, Array.getD_eq_getD_getElem?, hs, Array.getElem_modify]
  · simp [bitAt, Array.getD_eq_getD_getElem?, Array.getElem?_modify, Ne.symm h, h]

theorem size_foldl_modify
    (slots : List Nat) (set : BitVec w) (bits : Array (BitVec w)) :
    (slots.foldl (fun bits s => bits.modify s (· ||| set)) bits).size = bits.size := by
  induction slots generalizing bits with
  | nil => rfl
  | cons s slots ih => rw [List.foldl_cons, ih, Array.size_modify]

/-- Adding a set at several slots. -/
theorem bitAt_foldl_modify_iff
    {slots : List Nat} {bits : Array (BitVec w)} (hslots : ∀ s ∈ slots, s < bits.size)
    {set : BitVec w} {p j : Nat} :
    bitAt (slots.foldl (fun bits s => bits.modify s (· ||| set)) bits) p j = true ↔
      bitAt bits p j = true ∨ p ∈ slots ∧ set.getLsbD j = true := by
  induction slots generalizing bits with
  | nil => simp
  | cons s slots ih =>
      have hs := hslots s (List.mem_cons_self ..)
      rw [List.foldl_cons, ih fun s' hs' => by
          rw [Array.size_modify]
          exact hslots s' (List.mem_cons_of_mem _ hs'),
        bitAt_modify_or hs, List.mem_cons]
      simp only [Bool.or_eq_true, Bool.and_eq_true, beq_iff_eq]
      tauto

theorem bitAt_replicate
    (n s j : Nat) :
    bitAt (Array.replicate n (0 : BitVec w)) s j = false := by
  rw [bitAt, Array.getD_eq_getD_getElem?, Array.getElem?_replicate]
  split <;> simp

theorem mem_members_iff
    {bits : BitVec w} {j : Nat} :
    j ∈ members bits ↔ bits.getLsbD j = true := by
  unfold members
  rw [List.mem_filter, List.mem_range]
  exact ⟨And.right, fun h => ⟨BitVec.lt_of_getLsbD h, h⟩⟩

theorem pairwise_members
    (bits : BitVec w) :
    (members bits).Pairwise (· < ·) :=
  List.pairwise_lt_range.filter _

namespace Cell

theorem getLsbD_gatherBits_iff
    {c : Cell F} {bits : Array (BitVec w)} {j : Nat} :
    (c.gatherBits bits).getLsbD j = true ↔ ∃ s ∈ c.dependencies, bitAt bits s j = true := by
  have hfold : ∀ (slots : List Nat) (acc : BitVec w),
      (slots.foldl (fun acc s => acc ||| bits.getD s 0) acc).getLsbD j = true ↔
        acc.getLsbD j = true ∨ ∃ s ∈ slots, bitAt bits s j = true := by
    intro slots
    induction slots with
    | nil => simp
    | cons s slots ih =>
        intro acc
        rw [List.foldl_cons, ih, BitVec.getLsbD_or, Bool.or_eq_true]
        simp [bitAt, or_assoc]
  unfold gatherBits
  rw [hfold]
  simp

@[simp] theorem size_spreadBits
    (c : Cell F) (set : BitVec w) (bits : Array (BitVec w)) :
    (c.spreadBits set bits).size = bits.size :=
  size_foldl_modify c.dependencies set bits

theorem bitAt_spreadBits_iff
    {c : Cell F} {bits : Array (BitVec w)} (hc : ∀ s ∈ c.dependencies, s < bits.size)
    {set : BitVec w} {p j : Nat} :
    bitAt (c.spreadBits set bits) p j = true ↔
      bitAt bits p j = true ∨ p ∈ c.dependencies ∧ set.getLsbD j = true :=
  bitAt_foldl_modify_iff hc

/-- A cell depends on slots that it reads. -/
theorem mem_slots_of_mem_dependencies
    {c : Cell F} {s : Nat} (h : s ∈ c.dependencies) :
    s ∈ c.slots := by
  cases c with
  | input i k => simp [dependencies] at h
  | constant v => simp [dependencies] at h
  | unary op a =>
      simp only [dependencies] at h
      split at h
      · simp at h
      · exact h
  | binary op a b => exact h
  | select tol cond source => exact List.mem_append_right _ h
  | copy source => exact h

end Cell

end Sets

@[simp] theorem size_seedBlock
    (size start n first : Nat) :
    (seedBlock size start n first).size = size := by
  unfold seedBlock
  generalize List.range (min wordSize (n - first)) = items
  have hfold : ∀ bits : Array Word,
      (items.foldl (fun bits i =>
        bits.modify (start + first + i) (· ||| BitVec.twoPow wordSize i)) bits).size =
        bits.size := by
    induction items with
    | nil => exact fun _ => rfl
    | cons i items ih =>
        intro bits
        rw [List.foldl_cons, ih, Array.size_modify]
  rw [hfold, Array.size_replicate]

/-- The seeds of a block: bit `j` stands at nonzero `first + j`. -/
theorem bitAt_seedBlock_iff
    {size start n first s j : Nat} (hroom : start + n ≤ size) :
    bitAt (seedBlock size start n first) s j = true ↔
      j < wordSize ∧ first + j < n ∧ s = start + first + j := by
  have hfold : ∀ m, m ≤ wordSize → m ≤ n - first →
      ((List.range m).foldl (fun bits i =>
          bits.modify (start + first + i) (· ||| BitVec.twoPow wordSize i))
        (Array.replicate size (0 : Word))).size = size ∧
      (bitAt ((List.range m).foldl (fun bits i =>
          bits.modify (start + first + i) (· ||| BitVec.twoPow wordSize i))
        (Array.replicate size (0 : Word))) s j = true ↔ j < m ∧ s = start + first + j) := by
    intro m
    induction m with
    | zero =>
        intro _ _
        rw [List.range_zero, List.foldl_nil, bitAt_replicate]
        simp
    | succ m ih =>
        intro hword hlen
        obtain ⟨hsize, hbits⟩ := ih (by omega) (by omega)
        rw [List.range_succ, List.foldl_append, List.foldl_cons, List.foldl_nil]
        refine ⟨by rw [Array.size_modify, hsize], ?_⟩
        rw [bitAt_modify_or (by omega), Bool.or_eq_true, hbits]
        simp only [Bool.and_eq_true, beq_iff_eq, BitVec.getLsbD_twoPow, decide_eq_true_eq]
        constructor
        · rintro (⟨hj, hs⟩ | ⟨hs, -, rfl⟩)
          · exact ⟨by omega, hs⟩
          · exact ⟨by omega, hs⟩
        · rintro ⟨hj, hs⟩
          rcases Nat.lt_succ_iff_lt_or_eq.1 hj with hj | rfl
          · exact .inl ⟨hj, hs⟩
          · exact .inr ⟨hs, by omega, rfl⟩
  unfold seedBlock
  rw [(hfold _ (Nat.min_le_left ..) (Nat.min_le_right ..)).2]
  omega

theorem mem_blockStarts_iff
    {n first : Nat} :
    first ∈ blockStarts n ↔ ∃ b, b * wordSize < n ∧ first = b * wordSize := by
  unfold blockStarts blocks wordSize
  rw [List.mem_map]
  constructor
  · rintro ⟨b, hb, rfl⟩
    have := List.mem_range.1 hb
    exact ⟨b, by omega, rfl⟩
  · rintro ⟨b, hb, rfl⟩
    exact ⟨b, List.mem_range.2 (by omega), rfl⟩

section Collect

variable {n m start : Nat} {sets : Nat → Array Word}

/-- The pattern that is collected from the sets of all blocks. -/
def collected (n m start : Nat) (sets : Nat → Array Word) : Pattern :=
  ⟨n, collectRows m start ((blockStarts n).map fun first => (first, sets first))⟩

@[simp] theorem nrow_collected :
    (collected n m start sets).nrow = m := by
  simp [collected, collectRows, Pattern.nrow]

theorem row_collected
    {r : Nat} (hr : r < m) :
    (collected n m start sets).row r =
      (blockStarts n).flatMap fun first =>
        (members ((sets first).getD (start + r) 0)).map (first + ·) := by
  simp [collected, collectRows, Pattern.row, Array.getD_eq_getD_getElem?, hr, List.flatMap_map]

variable (hsets : ∀ first s j, bitAt (sets first) s j = true → first + j < n)

include hsets

/-- Column `c` is in a row if its bit is in the set of its block. -/
theorem mem_row_collected_iff
    {r c : Nat} (hr : r < m) :
    c ∈ (collected n m start sets).row r ↔
      bitAt (sets (c / wordSize * wordSize)) (start + r) (c % wordSize) = true := by
  rw [row_collected hr, List.mem_flatMap]
  constructor
  · rintro ⟨first, hfirst, hc⟩
    obtain ⟨b, hb, rfl⟩ := mem_blockStarts_iff.1 hfirst
    obtain ⟨j, hj, rfl⟩ := List.mem_map.1 hc
    have hbit := mem_members_iff.1 hj
    have hlt := BitVec.lt_of_getLsbD hbit
    have hpos : 0 < wordSize := Nat.succ_pos 63
    rw [Nat.add_comm, Nat.add_mul_div_right _ _ hpos, Nat.div_eq_of_lt hlt, Nat.zero_add,
      Nat.add_mul_mod_self_right, Nat.mod_eq_of_lt hlt]
    exact hbit
  · intro h
    have hlt := hsets _ _ _ h
    have hsum := Nat.div_add_mod' c wordSize
    refine ⟨c / wordSize * wordSize, mem_blockStarts_iff.2 ⟨_, by omega, rfl⟩, ?_⟩
    exact List.mem_map.2 ⟨c % wordSize, mem_members_iff.2 h, hsum⟩

theorem wellFormed_collected
    (m start : Nat) :
    (collected n m start sets).WellFormed := by
  have hrow : ∀ cols ∈ (collected n m start sets).rows.toList,
      ∃ r, r < m ∧ (collected n m start sets).row r = cols := by
    intro cols hcols
    obtain ⟨r, hr⟩ := List.mem_iff_getElem?.1 hcols
    have hlt := (List.getElem?_eq_some_iff.1 hr).1
    have hsize : (collected n m start sets).rows.toList.length = m := nrow_collected
    exact ⟨r, by omega, Pattern.row_eq_of_getElem? hr⟩
  constructor
  · intro cols hcols
    obtain ⟨r, hr, rfl⟩ := hrow cols hcols
    rw [row_collected hr, List.pairwise_flatMap]
    constructor
    · intro first _
      rw [List.pairwise_map]
      exact (pairwise_members _).imp fun hlt => Nat.add_lt_add_left hlt first
    · -- a block ends before the next begins
      unfold blockStarts
      rw [List.pairwise_map]
      refine List.pairwise_lt_range.imp fun {a b} hab x hx y hy => ?_
      obtain ⟨i, hi, rfl⟩ := List.mem_map.1 hx
      obtain ⟨j, -, rfl⟩ := List.mem_map.1 hy
      have hlt := BitVec.lt_of_getLsbD (mem_members_iff.1 hi)
      have hmul := Nat.mul_le_mul_right wordSize (Nat.succ_le_of_lt hab)
      rw [Nat.succ_mul] at hmul
      omega
  · intro cols hcols c hc
    obtain ⟨r, hr, rfl⟩ := hrow cols hcols
    have hlt := hsets _ _ _ ((mem_row_collected_iff hsets hr).1 hc)
    have hsum := Nat.div_add_mod' c wordSize
    have hncol : (collected n m start sets).ncol = n := rfl
    omega

end Collect

namespace Tape

variable {f : Tape F} {w : Nat}

section Inside

variable [Zero F]

/-- Numbers that the seeds leave out stay out of all sets, on a walk in either direction. -/
theorem bitAt_propagateForward
    {P : Nat → Prop} {bits : Array (BitVec w)} (h : ∀ s j, bitAt bits s j = true → P j) :
    ∀ s j, bitAt (propagateForward (f.segmentsAt f.full) bits) s j = true → P j := by
  unfold propagateForward
  rw [walkForward_eq_foldl]
  refine List.foldlRecOn (motive := fun bits => ∀ s j, bitAt bits s j = true → P j) _ _ h ?_
  intro bits h v _ s j hbit
  split at hbit
  · exact h s j hbit
  · rcases bitAt_of_bitAt_setIfInBounds hbit with hbit | ⟨-, hbit⟩
    · exact h s j hbit
    · obtain ⟨r, -, hr⟩ := Cell.getLsbD_gatherBits_iff.1 hbit
      exact h r j hr

theorem bitAt_propagateBackward
    (hf : f.WellFormed) {P : Nat → Prop} {bits : Array (BitVec w)}
    (hsize : bits.size = f.full.size) (h : ∀ s j, bitAt bits s j = true → P j) :
    ∀ s j, bitAt (propagateBackward (f.segmentsAt f.full) bits) s j = true → P j := by
  unfold propagateBackward
  rw [walkBackward_eq_foldl]
  have hend := List.foldlRecOn
    (motive := fun bits : Array (BitVec w) =>
      bits.size = f.full.size ∧ ∀ s j, bitAt bits s j = true → P j)
    f.visits (fun bits v => v.2.spreadBits (bits.getD v.1 0) bits) ⟨hsize, h⟩ ?_
  · exact hend.2
  · rintro bits ⟨hsize, h⟩ v hv
    refine ⟨by rw [Cell.size_spreadBits, hsize], fun s j hbit => ?_⟩
    have hslots := (lt_of_mem_visits hf hv)
    rw [Cell.bitAt_spreadBits_iff fun r hr => by
      have := hslots.2 r (Cell.mem_slots_of_mem_dependencies hr)
      omega] at hbit
    rcases hbit with hbit | ⟨-, hbit⟩
    · exact h s j hbit
    · exact h v.1 j hbit

end Inside

theorem outputRange_eq
    (hf : f.WellFormed) {o : Nat} (ho : o < f.nOut) :
    f.outputRange o = .ok (f.outputSlot o 0, f.outputLength o) := by
  obtain ⟨q, p, e, hq, hp, he, hnnz⟩ := hf.exists_output ho
  have hsize : q < f.full.offsets.size := by
    rw [(hf.full_sound fun _ => True).size]
    exact (List.getElem?_eq_some_iff.1 (getElem?_spans he)).1
  simp only [outputRange, hq, hp, Layout.offset_eq hsize, bind, Except.bind, outputSlot,
    outputLength, List.getD_eq_getElem?_getD]
  rfl

/-- The number of nonzeros of a block, and its patterns. -/
theorem checkBlock_eq
    (op : String) {o i : Nat} (ho : o < f.nOut) (hi : i < f.nIn) :
    ∃ out inp, f.checkBlock op o i = .ok (out, inp) ∧ f.outputPatterns[o]? = some out ∧
      out.nnz = f.outputLength o ∧ inp.nnz = f.inputLength i := by
  have hout : f.outputPatterns[o]? = some f.outputPatterns[o] := List.getElem?_eq_getElem ho
  have hinp : f.inputPatterns[i]? = some f.inputPatterns[i] := List.getElem?_eq_getElem hi
  refine ⟨f.outputPatterns[o], f.inputPatterns[i], ?_, hout, ?_, ?_⟩
  · simp only [checkBlock, outputPattern, hout, inputPattern, hinp, bind, Except.bind]
    rfl
  · simp [outputLength, hout]
  · simp [inputLength, hinp]

end Tape

end SparseDiff
