import SparseDiff.Proofs.Adjoint
import Mathlib.Algebra.BigOperators.Group.Finset.Sigma

/-!
# Seeding outputs and reading inputs

Before an adjoint sweep the adjoints of some outputs are seeded, afterwards those of the
inputs are read and cleared. Outputs may share an element, so seeds are added
(`Tape.seedVector`); inputs have slots of their own, so clearing one leaves the others.
-/

namespace SparseDiff

variable {F : Type}

section Seeds

/-- Changing one adjoint array leaves the others. -/
theorem Memory.adjoint_modify_ne
    [Zero F] (m : Memory F) {d d' : Nat} (h : d' ≠ d) (g : Array F → Array F) :
    Memory.adjoint { m with adj := m.adj.modify d g } d' = m.adjoint d' := by
  funext p
  simp only [Memory.adjoint, getD_modify_array_ne m.adj h g]

/-- Add `g 0`, …, `g (n - 1)` to consecutive slots. -/
def addAt [Add F] (start n : Nat) (g : Nat → F) (w : Array F) : Array F :=
  (List.range n).foldl (fun w k => w.modify (start + k) (· + g k)) w

theorem addAt_succ
    [Add F] (start n : Nat) (g : Nat → F) (w : Array F) :
    addAt start (n + 1) g w = (addAt start n g w).modify (start + n) (· + g n) := by
  simp [addAt, List.range_succ]

@[simp] theorem size_addAt
    [Add F] (start n : Nat) (g : Nat → F) (w : Array F) :
    (addAt start n g w).size = w.size := by
  induction n with
  | zero => rfl
  | succ n ih => rw [addAt_succ, Array.size_modify, ih]

theorem getD_addAt
    [CommRing F] {start n : Nat} (g : Nat → F) {w : Array F} (hw : start + n ≤ w.size) (p : Nat) :
    (addAt start n g w).getD p 0 =
      w.getD p 0 + ∑ k ∈ Finset.range n, if start + k = p then g k else 0 := by
  induction n with
  | zero => simp [addAt]
  | succ n ih =>
      have hroom : start + n < (addAt start n g w).size := by
        rw [size_addAt]
        omega
      have hstep := getD_modifySlot_add (addAt start n g w) (a := some (start + n))
        (by simpa using hroom) (g n) p
      rw [addAt_succ, Finset.sum_range_succ, ← add_assoc, ← ih (by omega)]
      simpa [modifySlot] using hstep

end Seeds

namespace Tape

variable {f : Tape F}

theorem outputSlot_add
    (f : Tape F) (o k : Nat) :
    f.outputSlot o 0 + k = f.outputSlot o k :=
  Layout.slot_zero_add f.full _ k

theorem outputSlot_lt
    [Zero F] (hf : f.WellFormed) {o k : Nat} (ho : o < f.nOut) (hk : k < f.outputLength o) :
    f.outputSlot o k < f.full.size := by
  obtain ⟨e, he, hnnz⟩ := hf.element_of_output ho
  exact full_slot_lt hf he (by omega)

theorem outputSlot_add_length_le
    (hf : f.WellFormed) {o : Nat} (ho : o < f.nOut) :
    f.outputSlot o 0 + f.outputLength o ≤ f.full.size := by
  obtain ⟨e, he, hnnz⟩ := hf.element_of_output ho
  have hle := (hf.full_sound fun _ => True).inside _ (span e) (getElem?_spans he)
  have hlen : (span e).length = f.outputLength o := hnnz
  rw [hlen] at hle
  rw [outputSlot, Layout.slot_zero_add]
  omega

theorem inputSlot_lt
    [Zero F] (hf : f.WellFormed) {i k : Nat} (hi : i < f.nIn) (hk : k < f.inputLength i) :
    f.full.slot i k < f.full.size := by
  obtain ⟨e, he, hnnz⟩ := hf.element_of_input hi
  exact full_slot_lt hf he (by omega)

theorem inputSlot_add_length_le
    (hf : f.WellFormed) {i : Nat} (hi : i < f.nIn) :
    f.full.slot i 0 + f.inputLength i ≤ f.full.size := by
  obtain ⟨e, he, hnnz⟩ := hf.element_of_input hi
  have hinside := (hf.full_sound fun _ => True).inside i (span e) (getElem?_spans he)
  have hlen : (span e).length = f.inputLength i := hnnz
  rw [hlen] at hinside
  rw [Layout.slot_zero_add]
  omega

/-- Different inputs have different slots. -/
theorem inputSlot_ne
    (hf : f.WellFormed) {i j k l : Nat} (hij : i ≠ j) (hi : i < f.nIn) (hj : j < f.nIn)
    (hk : k < f.inputLength i) (hl : l < f.inputLength j) :
    f.full.slot i k ≠ f.full.slot j l := by
  obtain ⟨e, he, hnnz⟩ := hf.element_of_input hi
  obtain ⟨e', he', hnnz'⟩ := hf.element_of_input hj
  rcases Nat.lt_or_gt_of_ne hij with hlt | hgt
  · have := full_slot_lt_slot hf hlt he (j := k) (by omega) (Array.getElem?_eq_some_iff.1 he').1 l
    omega
  · have := full_slot_lt_slot hf hgt he' (j := l) (by omega) (Array.getElem?_eq_some_iff.1 he).1 k
    omega

section Seeding

variable [Add F]

theorem size_foldl_addAt
    (f : Tape F) (os : List Nat) (v : Nat → Nat → F) (w : Array F) :
    (os.foldl (fun w o => addAt (f.outputSlot o 0) (f.outputLength o) (v o) w) w).size =
      w.size := by
  induction os generalizing w with
  | nil => rfl
  | cons o os ih => rw [List.foldl_cons, ih, size_addAt]

/-- Seeding one output. -/
theorem gives_seedAdjoint
    (hf : f.WellFormed) {o : Nat} (ho : o < f.nOut) {m : Memory F}
    (hroom : f.full.size ≤ m.values.size) (d : Nat) (g : Nat → F) :
    Run.Gives (f.seedAdjoint d o g) m ()
      { m with adj := m.adj.modify d (addAt (f.outputSlot o 0) (f.outputLength o) g) } := by
  obtain ⟨q, p, e, hq, hp, he, hnnz⟩ := hf.exists_output ho
  have hstart : f.full.offset q = .ok (f.outputSlot o 0) := by
    have hsize : q < f.full.offsets.size := by
      rw [(hf.full_sound fun _ => True).size]
      exact (List.getElem?_eq_some_iff.1 (getElem?_spans he)).1
    rw [Layout.offset_eq hsize, outputSlot, List.getD_eq_getElem?_getD, hq]
    rfl
  have hlength : p.nnz = f.outputLength o := by
    rw [outputLength, hp]
    rfl
  have hle := outputSlot_add_length_le hf ho
  unfold seedAdjoint
  simp only [hq, hp, hstart, Run.gives_bind, Run.gives_ofExcept, Run.gives_requireSlots,
    Run.gives_modify]
  refine ⟨_, m, ⟨rfl, rfl⟩, (), m, ⟨fun r hr => ?_, rfl⟩, ?_⟩
  · obtain ⟨k, hk, rfl⟩ := List.mem_map.1 hr
    have := List.mem_range.1 hk
    omega
  · rw [hlength]
    rfl

variable [Zero F]

/-- A cleared array with the seeds of the listed outputs. -/
def seededArray (f : Tape F) (os : List Nat) (v : Nat → Nat → F) (w : Array F) : Array F :=
  os.foldl (fun w o => addAt (f.outputSlot o 0) (f.outputLength o) (v o) w) (w.map fun _ => 0)

@[simp] theorem size_seededArray
    (f : Tape F) (os : List Nat) (v : Nat → Nat → F) (w : Array F) :
    (f.seededArray os v w).size = w.size := by
  rw [seededArray, size_foldl_addAt, Array.size_map]

/-- Clearing an array and seeding one output in it. -/
theorem gives_seed
    (hf : f.WellFormed) {o : Nat} (ho : o < f.nOut) {m : Memory F}
    (hroom : f.full.size ≤ m.values.size) (d : Nat) (v : Nat → Nat → F) :
    Run.Gives (do clearAdjoint d; f.seedAdjoint d o (v o)) m ()
      { m with adj := m.adj.modify d (f.seededArray [o] v) } := by
  have hseed := gives_seedAdjoint hf ho
    (m := { m with adj := m.adj.modify d fun w => w.map fun _ => 0 }) hroom d (v o)
  simp only [modify_modify] at hseed
  exact Run.gives_bind.2 ⟨(), _, Run.gives_modify.2 rfl, hseed⟩

/-- Clearing an array and seeding some outputs in it. -/
theorem gives_seeds
    (hf : f.WellFormed) {os : List Nat} (hos : ∀ o ∈ os, o < f.nOut) {m : Memory F}
    (hroom : f.full.size ≤ m.values.size) (d : Nat) (v : Nat → Nat → F) :
    Run.Gives (do clearAdjoint d; os.forM fun o => f.seedAdjoint d o (v o)) m ()
      { m with adj := m.adj.modify d (f.seededArray os v) } := by
  have hfold : ∀ (os : List Nat) (m : Memory F),
      os.foldl (fun m o => { m with
        adj := m.adj.modify d (addAt (f.outputSlot o 0) (f.outputLength o) (v o)) }) m =
      { m with adj := m.adj.modify d fun w => os.foldl (fun w o =>
        addAt (f.outputSlot o 0) (f.outputLength o) (v o) w) w } := by
    intro os
    induction os with
    | nil => intro m; simp only [List.foldl_nil, modify_id]
    | cons o os ih => intro m; rw [List.foldl_cons, ih]; simp only [modify_modify, List.foldl_cons]
  have hloop := (Run.gives_forM (f := fun o => f.seedAdjoint d o (v o))
    (g := fun m o => { m with
      adj := m.adj.modify d (addAt (f.outputSlot o 0) (f.outputLength o) (v o)) })
    (I := fun rest m' => f.full.size ≤ m'.values.size ∧ ∀ o ∈ rest, o < f.nOut)
    (fun o rest m' hI => ⟨gives_seedAdjoint hf (hI.2 o (List.mem_cons_self ..)) hI.1 d (v o),
      hI.1, fun o' ho' => hI.2 o' (List.mem_cons_of_mem _ ho')⟩)
    os { m with adj := m.adj.modify d fun w => w.map fun _ => 0 } ⟨hroom, hos⟩).1
  rw [hfold] at hloop
  simp only [modify_modify] at hloop
  exact Run.gives_bind.2 ⟨(), _, Run.gives_modify.2 rfl, hloop⟩

end Seeding

section Vectors

variable [CommRing F]

/-- The sum of the seeds `v o` of the listed outputs `o` at every slot. -/
def seedVector (f : Tape F) (os : List Nat) (v : Nat → Nat → F) (p : Nat) : F :=
  (os.map fun o => ∑ k ∈ Finset.range (f.outputLength o),
    if f.outputSlot o k = p then v o k else 0).sum

theorem getD_seededArray
    (hf : f.WellFormed) {os : List Nat} (hos : ∀ o ∈ os, o < f.nOut) (v : Nat → Nat → F)
    {w : Array F} (hw : f.full.size ≤ w.size) (p : Nat) :
    (f.seededArray os v w).getD p 0 = f.seedVector os v p := by
  have hadd : ∀ (os : List Nat) (w : Array F), (∀ o ∈ os, o < f.nOut) → f.full.size ≤ w.size →
      (os.foldl (fun w o => addAt (f.outputSlot o 0) (f.outputLength o) (v o) w) w).getD p 0 =
        w.getD p 0 + f.seedVector os v p := by
    intro os
    induction os with
    | nil => simp [seedVector]
    | cons o os ih =>
        intro w hos hw
        have hroom := outputSlot_add_length_le hf (hos o (List.mem_cons_self ..))
        rw [List.foldl_cons, ih _ (fun o' ho' => hos o' (List.mem_cons_of_mem _ ho'))
          (by rw [size_addAt]; exact hw), getD_addAt _ (by omega)]
        simp only [seedVector, List.map_cons, List.sum_cons, outputSlot_add, add_assoc]
  rw [seededArray, hadd os _ hos (by simpa using hw)]
  have hzero : (w.map fun _ => (0 : F)).getD p 0 = 0 := by
    rw [Array.getD_eq_getD_getElem?, Array.getElem?_map]
    cases w[p]? <;> rfl
  rw [hzero, zero_add]

/-- Seeds against numbers at the slots: every seed meets the number at its own slot. -/
theorem sum_seedVector_mul
    (hf : f.WellFormed) {os : List Nat} (hos : ∀ o ∈ os, o < f.nOut) (v : Nat → Nat → F)
    (t : Nat → F) :
    ∑ p ∈ Finset.range f.full.size, f.seedVector os v p * t p =
      (os.map fun o =>
        ∑ k ∈ Finset.range (f.outputLength o), v o k * t (f.outputSlot o k)).sum := by
  induction os with
  | nil => simp [seedVector]
  | cons o os ih =>
      have hrest := ih fun o' ho' => hos o' (List.mem_cons_of_mem _ ho')
      have ho := hos o (List.mem_cons_self ..)
      rw [List.map_cons, List.sum_cons, ← hrest]
      simp only [seedVector, List.map_cons, List.sum_cons, add_mul, Finset.sum_add_distrib]
      congr 1
      simp only [Finset.sum_mul]
      rw [Finset.sum_comm]
      refine Finset.sum_congr rfl fun k hk => ?_
      have hlt := outputSlot_lt hf ho (Finset.mem_range.1 hk)
      simp [hlt]

end Vectors

theorem inputRange_eq
    (hf : f.WellFormed) {i : Nat} (hi : i < f.nIn) :
    f.inputRange i = .ok (f.full.slot i 0, f.inputLength i) := by
  have hp : f.inputPatterns[i]? = some f.inputPatterns[i] := List.getElem?_eq_getElem hi
  obtain ⟨e, he, -⟩ := hf.element_of_input hi
  have hsize : i < f.full.offsets.size := by
    rw [(hf.full_sound fun _ => True).size]
    exact (List.getElem?_eq_some_iff.1 (getElem?_spans he)).1
  simp only [inputRange, hp, Layout.offset_eq hsize, bind, Except.bind, inputLength]
  rfl

section Reading

variable [Zero F]

/-- The nonzeros of input `i` in a vector over the full layout. -/
def inputOf (f : Tape F) (lam : Nat → F) (i : Nat) : List F :=
  (List.range (f.inputLength i)).map fun k => lam (f.full.slot i k)

/-- Inputs lie in the full layout. -/
theorem inputOf_congr
    (hf : f.WellFormed) {lam lam' : Nat → F} (h : ∀ p < f.full.size, lam p = lam' p) {i : Nat}
    (hi : i < f.nIn) :
    f.inputOf lam i = f.inputOf lam' i :=
  List.map_congr_left fun _ hk => h _ (inputSlot_lt hf hi (List.mem_range.1 hk))

theorem lt_of_mem_inputSlots
    (hf : f.WellFormed) {i : Nat} (hi : i < f.nIn) {r : Nat}
    (hr : r ∈ slotsFrom (f.full.slot i 0) (f.inputLength i)) :
    r < f.full.size := by
  obtain ⟨k, hk, rfl⟩ := List.mem_map.1 hr
  rw [Layout.slot_zero_add]
  exact inputSlot_lt hf hi (List.mem_range.1 hk)

theorem map_getD_inputSlots
    (f : Tape F) (i : Nat) (w : Array F) :
    (slotsFrom (f.full.slot i 0) (f.inputLength i)).map (w.getD · 0) =
      f.inputOf (w.getD · 0) i := by
  rw [slotsFrom, List.map_map]
  refine List.map_congr_left fun k _ => ?_
  rw [Function.comp_apply, Layout.slot_zero_add]

/-- Clearing the slots of an input leaves the other inputs. -/
theorem inputOf_writeAt
    (hf : f.WellFormed) {i j : Nat} (hij : i ≠ j) (hi : i < f.nIn) (hj : j < f.nIn)
    {w : Array F} (hw : f.full.size ≤ w.size) :
    f.inputOf ((writeAt (f.full.slot i 0) (List.replicate (f.inputLength i) 0) w).getD · 0) j =
      f.inputOf (w.getD · 0) j := by
  have hle := inputSlot_add_length_le hf hi
  have hwritten := written_writeAt (List.replicate (f.inputLength i) (0 : F))
    (show f.full.slot i 0 + _ ≤ w.size by rw [List.length_replicate]; omega)
  refine List.map_congr_left fun k hk => hwritten.outside _ fun l hl => ?_
  rw [List.length_replicate] at hl
  rw [Layout.slot_zero_add]
  exact inputSlot_ne hf (Ne.symm hij) hj hi (List.mem_range.1 hk) hl

/-- Reading an input and clearing it. -/
theorem gives_takeInputAdjoint
    (hf : f.WellFormed) {i : Nat} (hi : i < f.nIn) {m : Memory F}
    (hroom : f.full.size ≤ m.values.size) (d : Nat) :
    Run.Gives (f.takeInputAdjoint d i) m (f.inputOf (m.adjoint d) i)
      { m with
        adj := m.adj.modify d
          (writeAt (f.full.slot i 0) (List.replicate (f.inputLength i) 0)) } := by
  unfold takeInputAdjoint
  simp only [inputRange_eq hf hi, Run.gives_bind, Run.gives_ofExcept, Run.gives_requireSlots,
    Run.gives_get, Run.gives_modify, Run.gives_pure]
  exact ⟨_, m, ⟨rfl, rfl⟩, (), m,
    ⟨fun _ hr => Nat.lt_of_lt_of_le (lt_of_mem_inputSlots hf hi hr) hroom, rfl⟩, m, m,
    ⟨rfl, rfl⟩, (), _, rfl, map_getD_inputSlots .., rfl⟩

/-- Only the adjoints of one direction may differ. -/
structure SameBut (d : Nat) (before m : Memory F) : Prop where
  wellSized : m.WellSized
  sizes : m.sizes = before.sizes
  values : m.values = before.values
  adjoint : ∀ d' ≠ d, m.adjoint d' = before.adjoint d'

/-- A change of the adjoint array of the direction. -/
theorem SameBut.modify
    {d : Nat} {before m : Memory F} (h : SameBut d before m) {g : Array F → Array F}
    (hg : ∀ w, (g w).size = w.size) :
    SameBut d before { m with adj := m.adj.modify d g } :=
  ⟨⟨h.wellSized.values, h.wellSized.fwd, h.wellSized.adj.modify d hg, h.wellSized.adjFwd⟩,
    h.sizes, h.values, fun d' hd' => by
      rw [Memory.adjoint_modify_ne m hd']
      exact h.adjoint d' hd'⟩

/-- Reading all inputs of a direction. -/
theorem gives_takeInputs
    (hf : f.WellFormed) {m : Memory F} (hm : m.WellSized) (hwork : f.full.size ≤ m.sizes.work)
    {d : Nat} (hd : d < m.sizes.nadj) :
    ∃ m', Run.Gives ((List.range f.nIn).mapM fun i => f.takeInputAdjoint d i) m
        ((List.range f.nIn).map (f.inputOf (m.adjoint d))) m' ∧ SameBut d m m' := by
  refine (Run.gives_mapM
    (I := fun rest m' => rest.Nodup ∧ (∀ i ∈ rest, i < f.nIn) ∧ SameBut d m m' ∧
      ∀ i ∈ rest, f.inputOf (m'.adjoint d) i = f.inputOf (m.adjoint d) i)
    (f := fun i => f.takeInputAdjoint d i) (g := f.inputOf (m.adjoint d))
    (fun i rest m' hI => ?_) (List.range f.nIn) m
    ⟨List.nodup_range, fun i hi => List.mem_range.1 hi, ⟨hm, rfl, rfl, fun _ _ => rfl⟩,
      fun _ _ => rfl⟩).imp fun m' h => ⟨h.1, h.2.2.2.1⟩
  obtain ⟨hnodup, hrest, hsame, hread⟩ := hI
  obtain ⟨hnew, hnodup⟩ := List.nodup_cons.1 hnodup
  have hi := hrest i (List.mem_cons_self ..)
  have hsize : (m'.adj.getD d #[]).size = m.sizes.work := by
    rw [hsame.wellSized.adj.size_getD (by rw [hsame.sizes]; exact hd), hsame.sizes]
  have hgives := gives_takeInputAdjoint hf hi (m := m')
    (by rw [hsame.wellSized.values, hsame.sizes]; exact hwork) d
  rw [hread i (List.mem_cons_self ..)] at hgives
  refine ⟨_, hgives, hnodup, fun j hj => hrest j (List.mem_cons_of_mem _ hj),
    hsame.modify fun w => size_writeAt .., fun j hj => ?_⟩
  have hij : i ≠ j := by
    rintro rfl
    exact hnew hj
  rw [← hread j (List.mem_cons_of_mem _ hj)]
  have hget : Memory.adjoint { m' with
      adj := m'.adj.modify d
        (writeAt (f.full.slot i 0) (List.replicate (f.inputLength i) 0)) } d =
      ((writeAt (f.full.slot i 0) (List.replicate (f.inputLength i) 0)
        (m'.adj.getD d #[])).getD · 0) := by
    funext p
    rw [Memory.adjoint, getD_modify_array _
      (by rw [hsame.wellSized.adj.1, hsame.sizes]; exact hd)]
  rw [hget]
  exact inputOf_writeAt hf hij hi (hrest j (List.mem_cons_of_mem _ hj))
    (by rw [hsize]; exact hwork)

end Reading

end Tape

end SparseDiff
