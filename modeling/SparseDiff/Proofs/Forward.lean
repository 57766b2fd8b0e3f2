import SparseDiff.Proofs.Memory
import SparseDiff.Proofs.Trace

/-!
# Forward sweeps

A forward sweep over any sound layout computes the values and the tangents of the trace.
The invariant `Tape.Holds` speaks of the elements written so far whose values are still
needed: under the layout their slots hold what the trace has for them. Writing the next
element keeps it, because a sound layout gives that element no slot of a needed one
(`Tape.Holds.step`); this serves the loading of inputs and the sweep alike.
-/

namespace SparseDiff

variable {F : Type}

section Cells

variable [Zero F] [Calculus F]

namespace Cell

@[simp] theorem isInput_settle
    (w : Array F) (c : Cell F) :
    (c.settle w).isInput = c.isInput := by
  cases c with
  | select tol cond source =>
      simp only [settle]
      split <;> rfl
  | _ => rfl

theorem mem_slots_of_settle
    {w : Array F} {c : Cell F} {s : Nat} (h : s ∈ (c.settle w).slots) :
    s ∈ c.slots := by
  cases c with
  | select tol cond source =>
      simp only [settle] at h
      split at h
      · exact List.mem_append_right _ h
      · simp [slots] at h
  | _ => exact h

/-- A cell decided by `w` has its value in all arrays that agree with `w` where it reads. -/
theorem value_settle
    {c : Cell F} {w w' : Array F} (h : ∀ s ∈ c.slots, w'.getD s 0 = w.getD s 0) :
    (c.settle w).value w' = c.value w := by
  cases c with
  | select tol cond source =>
      have hs := h source (by simp [slots])
      by_cases hsel : Calculus.selects (readSlot w cond) tol = true
      · simp only [settle, value, hsel, if_true, hs]
      · simp only [settle, value, hsel, Bool.false_eq_true, if_false]
  | input i k => rfl
  | constant v => rfl
  | unary op a => exact value_congr h
  | binary op a b => exact value_congr h
  | copy source => exact value_congr h

theorem tangent_settle
    [Add F] [Mul F] {c : Cell F} {w w' t t' : Array F}
    (hw : ∀ s ∈ c.slots, w'.getD s 0 = w.getD s 0)
    (ht : ∀ s ∈ c.slots, t'.getD s 0 = t.getD s 0) (r : F) :
    (c.settle w).tangent w' r t' = c.tangent w r t := by
  cases c with
  | select tol cond source =>
      have hs := ht source (by simp [slots])
      by_cases hsel : Calculus.selects (readSlot w cond) tol = true
      · simp only [settle, tangent, hsel, if_true, hs]
      · simp only [settle, tangent, hsel, Bool.false_eq_true, if_false]
  | input i k => rfl
  | constant v => rfl
  | unary op a => exact tangent_congr hw ht r
  | binary op a b => exact tangent_congr hw ht r
  | copy source => exact tangent_congr hw ht r

variable [Add F] [Mul F]

theorem wellSized_advance
    {m : Memory F} (hm : m.WellSized) (nfwd dest : Nat) (c : Cell F) :
    (c.advance nfwd dest m).WellSized :=
  ⟨by simpa [advance] using hm.values, hm.fwd.updateFirst nfwd fun d w => by simp, hm.adj,
    hm.adjFwd⟩

/-- A cell either is loaded already or finds its slots and advances the memory. -/
theorem gives_forward_iff
    {nfwd dest : Nat} {c : Cell F} {m m' : Memory F} :
    Run.Gives (c.forward nfwd dest) m () m' ↔
      (c.isInput = false → ∀ s ∈ dest :: c.slots, s < m.values.size) ∧
        m' = if c.isInput then m else c.advance nfwd dest m := by
  unfold forward
  cases hinput : c.isInput with
  | true => simp
  | false =>
      rw [if_neg Bool.false_ne_true, if_neg Bool.false_ne_true]
      simp only [Run.gives_bind, Run.gives_requireSlots, Run.gives_modify]
      constructor
      · rintro ⟨_, _, ⟨hslots, rfl⟩, rfl⟩
        exact ⟨fun _ => hslots, rfl⟩
      · rintro ⟨hslots, rfl⟩
        exact ⟨(), m, ⟨hslots trivial, rfl⟩, rfl⟩

end Cell

end Cells

section Segments

variable [Zero F] [Calculus F]

theorem zipIdx_map_settle
    (w : Array F) (cells : List (Cell F)) :
    (cells.map (Cell.settle w)).zipIdx = cells.zipIdx.map fun (c, k) => (c.settle w, k) := by
  rw [List.zipIdx_map]
  rfl

theorem gives_checkFinite
    {op : String} {nfwd : Nat} {s : Segment F} {m m' : Memory F}
    (h : Run.Gives (s.checkFinite op nfwd) m () m') :
    m' = m := by
  unfold Segment.checkFinite at h
  rw [Run.gives_get_bind] at h
  split at h
  · exact absurd h Run.gives_reject
  · exact (Run.gives_pure.1 h).2

variable [Add F] [Mul F]

/-- What a forward sweep makes of a memory at one segment. -/
def Segment.sweep (nfwd : Nat) (s : Segment F) (m : Memory F) : Memory F :=
  s.numbered.foldl
    (fun m' (c, k) =>
      if c.isInput then m' else (c.settle m.values).advance nfwd (s.start + k) m') m

/-- A segment that is swept without complaint has done its cells one after the other. -/
theorem eq_sweep_of_gives
    {check : Bool} {op : String} {nfwd : Nat} {s : Segment F} {m m' : Memory F}
    (h : Run.Gives (s.forward check op nfwd) m () m') :
    m' = s.sweep nfwd m := by
  unfold Segment.forward at h
  rw [Run.gives_get_bind] at h
  obtain ⟨_, m₁, hcells, hcheck⟩ := Run.gives_bind.1 h
  have hm₁ : m₁ = s.sweep nfwd m := by
    rw [zipIdx_map_settle] at hcells
    have hfold := Run.eq_foldl_of_gives_forM
      (g := fun m' (item : Cell F × Nat) =>
        if item.1.isInput then m' else item.1.advance nfwd (s.start + item.2) m')
      (fun item m m' hitem => (Cell.gives_forward_iff.1 hitem).2) hcells
    rw [hfold, List.foldl_map]
    simp only [Cell.isInput_settle]
    rfl
  rw [← hm₁]
  split at hcheck
  · exact gives_checkFinite hcheck
  · exact (Run.gives_pure.1 hcheck).2

/-- The cells of a segment whose slots are there run one after the other. -/
theorem gives_cells
    {nfwd : Nat} {s : Segment F} {m : Memory F}
    (hslots : ∀ c k, (c, k) ∈ s.numbered → c.isInput = false →
      ∀ r ∈ (s.start + k) :: c.slots, r < m.values.size) :
    Run.Gives
      (((s.cells.map (Cell.settle m.values)).zipIdx).forM fun (c, k) =>
        c.forward nfwd (s.start + k)) m () (s.sweep nfwd m) := by
  have hloop := Run.gives_forM
    (f := fun (item : Cell F × Nat) => item.1.forward nfwd (s.start + item.2))
    (g := fun m' (item : Cell F × Nat) =>
      if item.1.isInput then m' else item.1.advance nfwd (s.start + item.2) m')
    (I := fun rest m' => m'.values.size = m.values.size ∧
      ∀ item ∈ rest, item.1.isInput = false →
        ∀ r ∈ (s.start + item.2) :: item.1.slots, r < m.values.size)
    (fun item rest m' hI => by
      obtain ⟨hsize, hrest⟩ := hI
      refine ⟨Cell.gives_forward_iff.2 ⟨fun hin r hr => ?_, rfl⟩, ?_,
        fun item' hitem' => hrest item' (List.mem_cons_of_mem _ hitem')⟩
      · rw [hsize]
        exact hrest item (List.mem_cons_self ..) hin r hr
      · split
        · exact hsize
        · simpa [Cell.advance] using hsize)
    ((s.cells.map (Cell.settle m.values)).zipIdx) m
    ⟨rfl, fun item hitem hin r hr => by
      rw [zipIdx_map_settle] at hitem
      obtain ⟨⟨c, k⟩, hmem, rfl⟩ := List.mem_map.1 hitem
      refine hslots c k hmem (by simpa using hin) r ?_
      rcases List.mem_cons.1 hr with rfl | hr
      · exact List.mem_cons_self ..
      · exact List.mem_cons_of_mem _ (Cell.mem_slots_of_settle hr)⟩
  have hfold : ((s.cells.map (Cell.settle m.values)).zipIdx).foldl
      (fun m' (item : Cell F × Nat) =>
        if item.1.isInput then m' else item.1.advance nfwd (s.start + item.2) m') m =
      s.sweep nfwd m := by
    rw [zipIdx_map_settle, List.foldl_map]
    simp only [Cell.isInput_settle]
    rfl
  rw [← hfold]
  exact hloop.1

/-- With numbers that are all finite, a segment whose slots are there is swept. -/
theorem gives_sweep
    {check : Bool} {op : String} {nfwd : Nat} {s : Segment F} {m : Memory F}
    (hfinite : ∀ x : F, Calculus.isFinite x = true)
    (hslots : ∀ c k, (c, k) ∈ s.numbered → c.isInput = false →
      ∀ r ∈ (s.start + k) :: c.slots, r < m.values.size) :
    Run.Gives (s.forward check op nfwd) m () (s.sweep nfwd m) := by
  have hcheck : Run.Gives (s.checkFinite op nfwd) (s.sweep nfwd m) () (s.sweep nfwd m) := by
    unfold Segment.checkFinite
    rw [Run.gives_get_bind]
    have hnone : (List.range s.cells.length).find?
        (fun k => !(s.sweep nfwd m).isFiniteAt nfwd (s.start + k)) = none := by
      simp [List.find?_eq_none, Memory.isFiniteAt, hfinite]
    rw [hnone]
    simp
  unfold Segment.forward
  rw [Run.gives_get_bind]
  refine Run.gives_bind.2 ⟨(), _, gives_cells hslots, ?_⟩
  split
  · exact hcheck
  · simp

/-- The memory after `n` cells, `c 0` to `c (n - 1)`, have been swept from slot `start` on. -/
structure Advanced (nfwd start n : Nat) (c : Nat → Cell F) (m m' : Memory F) : Prop where
  wellSized : m'.WellSized
  sizes : m'.sizes = m.sizes
  adj : m'.adj = m.adj
  adjFwd : m'.adjFwd = m.adjFwd
  values : Written start n (fun k => (c k).value m.values) m.values m'.values
  fwd : ∀ d < nfwd, Written start n
    (fun k => (c k).tangent m.values ((c k).value m.values) (m.fwd.getD d #[]))
    (m.fwd.getD d #[]) (m'.fwd.getD d #[])

/-- Cells that read no slot of their segment are swept as if all at once. -/
theorem advanced_foldl
    {m : Memory F} (hm : m.WellSized) {nfwd start n : Nat} {c : Nat → Cell F}
    (hroom : start + n ≤ m.sizes.work) (hnfwd : nfwd ≤ m.sizes.nfwd)
    (hfree : ∀ k < n, ∀ r ∈ (c k).slots, ∀ i < n, r ≠ start + i) :
    Advanced nfwd start n c m
      ((List.range n).foldl
        (fun m' k => ((c k).settle m.values).advance nfwd (start + k) m') m) := by
  induction n with
  | zero =>
      exact ⟨hm, rfl, rfl, rfl, written_zero _ _ _, fun d _ => written_zero _ _ _⟩
  | succ n ih =>
      have h := ih (by omega) fun k hk r hr i hi => hfree k (by omega) r hr i (by omega)
      rw [List.range_succ, List.foldl_concat]
      generalize (List.range n).foldl
        (fun m' k => ((c k).settle m.values).advance nfwd (start + k) m') m = m' at h
      -- the new cell finds what the memory held before the segment
      have hvalues : ∀ r ∈ (c n).slots, m'.values.getD r 0 = m.values.getD r 0 :=
        fun r hr => h.values.outside r fun i hi =>
          hfree n (Nat.lt_succ_self n) r hr i (by omega)
      have hvalue : ((c n).settle m.values).value m'.values = (c n).value m.values :=
        Cell.value_settle hvalues
      have hsize : start + n < m'.values.size := by
        rw [h.wellSized.values, h.sizes]
        omega
      refine ⟨Cell.wellSized_advance h.wellSized _ _ _, h.sizes, h.adj, h.adjFwd, ?_,
        fun d hd => ?_⟩
      · have hstep := h.values.step hsize
        rw [← hvalue] at hstep
        exact hstep
      · have htangents : ∀ r ∈ (c n).slots,
            (m'.fwd.getD d #[]).getD r 0 = (m.fwd.getD d #[]).getD r 0 :=
          fun r hr => (h.fwd d hd).outside r fun i hi =>
            hfree n (Nat.lt_succ_self n) r hr i (by omega)
        have htangent := Cell.tangent_settle (w := m.values) hvalues htangents
          ((c n).value m.values)
        have hfwd : d < m'.fwd.size := by
          rw [h.wellSized.fwd.1, h.sizes]
          omega
        have hroom' : start + n < (m'.fwd.getD d #[]).size := by
          rw [h.wellSized.fwd.size_getD (by rw [h.sizes]; omega), h.sizes]
          omega
        have hstep := (h.fwd d hd).step hroom'
        rw [← htangent, ← hvalue] at hstep
        simp only [Cell.advance]
        rw [getD_updateFirst hd hfwd]
        exact hstep

end Segments

namespace Tape

variable {f : Tape F} {l : Layout} {keep : Nat → Prop}

/-- Slots of an element lie inside the layout. -/
theorem slot_lt_size
    (hsound : l.Sound f.spans keep) {p : Nat} {e : Element F} (he : f.elements[p]? = some e)
    {k : Nat} (hk : k < e.nnz) :
    l.slot p k < l.size := by
  have hle := hsound.inside p (span e) (getElem?_spans he)
  have hlen : (span e).length = e.nnz := rfl
  unfold Layout.slot at hle ⊢
  omega

/-- Write a list of nonzeros for every element from position `first` on. -/
def writeLists (l : Layout) (first : Nat) (lists : List (List F)) (w : Array F) : Array F :=
  (lists.zipIdx first).foldl (fun w (xs, i) => writeAt (l.slot i 0) xs w) w

@[simp] theorem size_writeLists
    (l : Layout) (first : Nat) (lists : List (List F)) (w : Array F) :
    (writeLists l first lists w).size = w.size := by
  unfold writeLists
  induction lists generalizing first w with
  | nil => rfl
  | cons xs lists ih => rw [List.zipIdx_cons, List.foldl_cons, ih, size_writeAt]

/-- The lists of all inputs start at position `0` and fit their elements. -/
theorem element_of_fitLists
    (hf : f.WellFormed) {lists : List (List F)} (hfit : FitLists f.inputPatterns lists)
    {i : Nat} {xs : List F} (hi : lists[i]? = some xs) :
    ∃ e, f.elements[i]? = some e ∧ e.nnz = xs.length := by
  obtain ⟨p, hp, hlength⟩ := getElem?_of_forall₂ hfit hi
  obtain ⟨e, he, hnnz⟩ := hf.input i p hp
  exact ⟨e, he, hnnz.trans hlength.symm⟩

/-- Every input gets a list, of as many numbers as its element has nonzeros. -/
theorem list_of_fitLists
    (hf : f.WellFormed) {lists : List (List F)} (hfit : FitLists f.inputPatterns lists) {i : Nat}
    (hi : i < f.nIn) {e : Element F} (he : f.elements[i]? = some e) :
    ∃ xs, lists[i]? = some xs ∧ xs.length = e.nnz := by
  have hlt : i < lists.length := by
    rw [← hfit.length_eq]
    exact hi
  have hget : lists[i]? = some lists[i] := List.getElem?_eq_getElem hlt
  obtain ⟨e', he', hnnz⟩ := element_of_fitLists hf hfit hget
  rw [he] at he'
  cases he'
  exact ⟨_, hget, hnnz.symm⟩

/-- Where a list of an input is written, there is room for it. -/
theorem slot_length_le
    (hf : f.WellFormed) (hsound : l.Sound f.spans keep) {lists : List (List F)}
    (hfit : FitLists f.inputPatterns lists) {i : Nat} {xs : List F} (hi : lists[i]? = some xs) :
    l.slot i xs.length ≤ l.size := by
  obtain ⟨e, he, hnnz⟩ := element_of_fitLists hf hfit hi
  have hinside := hsound.inside i (span e) (getElem?_spans he)
  rwa [show (span e).length = xs.length from hnnz] at hinside

theorem WellFormed.nIn_le
    (hf : f.WellFormed) :
    f.nIn ≤ f.elements.size := by
  rcases Nat.eq_zero_or_pos f.nIn with hzero | hpos
  · omega
  · have hlt : f.nIn - 1 < f.inputPatterns.length := by
      have : f.nIn = f.inputPatterns.length := rfl
      omega
    obtain ⟨e, he, -⟩ := hf.input (f.nIn - 1) _ (List.getElem?_eq_getElem hlt)
    have := (Array.getElem?_eq_some_iff.1 he).1
    omega

/-- Behind the inputs an element is no input. -/
theorem WellFormed.isInput_eq_false
    (hf : f.WellFormed) {j : Nat} {e : Element F} (he : f.elements[j]? = some e)
    (hlate : f.nIn ≤ j) :
    e.instr.isInput = false := by
  have hiff := hf.isInput_iff j e he
  cases hval : e.instr.isInput with
  | false => rfl
  | true =>
      have := hiff.1 hval
      omega

/-- Each item of a loop writes a list to the slots of its element. -/
theorem gives_writes
    {α : Type} (hsound : l.Sound f.spans keep)
    (put : (Array F → Array F) → Memory F → Memory F)
    (hput : ∀ start xs m, (put (writeAt start xs) m).values.size = m.values.size)
    (xs : α → List F) (pos count : α → Nat) {items : List α} {m : Memory F}
    (hroom : l.size ≤ m.values.size)
    (hitems : ∀ a ∈ items, ∃ e, f.elements[pos a]? = some e ∧ e.nnz = count a) :
    Run.Gives
      (items.forM fun a => do
        let start ← Run.ofExcept (l.offset (pos a))
        Run.requireSlots (slotsFrom start (count a))
        modify (put (writeAt start (xs a)))) m ()
      (items.foldl (fun m a => put (writeAt (l.slot (pos a) 0) (xs a)) m) m) := by
  refine (Run.gives_forM
    (g := fun m a => put (writeAt (l.slot (pos a) 0) (xs a)) m)
    (I := fun rest m' => l.size ≤ m'.values.size ∧
      ∀ a ∈ rest, ∃ e, f.elements[pos a]? = some e ∧ e.nnz = count a)
    (fun a rest m' hI => ?_) items m ⟨hroom, hitems⟩).1
  obtain ⟨hsize, hrest⟩ := hI
  obtain ⟨e, he, hnnz⟩ := hrest a (List.mem_cons_self ..)
  have hlt : pos a < l.offsets.size := by
    rw [hsound.size]
    exact (List.getElem?_eq_some_iff.1 (getElem?_spans he)).1
  refine ⟨?_, by rw [hput]; exact hsize, fun b hb => hrest b (List.mem_cons_of_mem _ hb)⟩
  simp only [Run.gives_bind, Run.gives_ofExcept, Run.gives_requireSlots, Run.gives_modify]
  refine ⟨_, _, ⟨Layout.offset_eq hlt, rfl⟩, (), _, ⟨fun r hr => ?_, rfl⟩, rfl⟩
  obtain ⟨k, hk, rfl⟩ := List.mem_map.1 hr
  have hk' : k < e.nnz := by
    rw [hnnz]
    exact List.mem_range.1 hk
  have hslot := slot_lt_size hsound he hk'
  rw [Layout.slot_zero_add]
  omega

theorem gives_loadInputs
    (hf : f.WellFormed) (hsound : l.Sound f.spans keep) {m : Memory F}
    (hroom : l.size ≤ m.values.size) {inputs : List (List F)}
    (hfit : FitLists f.inputPatterns inputs) :
    Run.Gives (f.loadInputs l inputs) m ()
      { m with values := writeLists l 0 inputs m.values } := by
  have htake : inputs.take f.nIn = inputs :=
    List.take_of_length_le (Nat.le_of_eq hfit.length_eq.symm)
  have hfold : ∀ (items : List (List F × Nat)) (m' : Memory F),
      items.foldl (fun m' item =>
        { m' with values := writeAt (l.slot item.2 0) item.1 m'.values }) m' =
      { m' with values := items.foldl (fun w (xs, i) => writeAt (l.slot i 0) xs w) m'.values } := by
    intro items
    induction items with
    | nil => exact fun _ => rfl
    | cons item items ih => exact fun m' => ih _
  unfold loadInputs
  rw [htake, writeLists, ← hfold]
  exact gives_writes hsound (fun g m => { m with values := g m.values })
    (fun _ _ _ => size_writeAt _ _ _) Prod.fst Prod.snd (fun item => item.1.length) hroom
    fun item hitem => element_of_fitLists hf hfit (List.mem_zipIdx_iff_getElem?.1 hitem)

/-- The tangent of every input, from a seed. -/
def seedLists (f : Tape F) (seed : Nat → Nat → F) : List (List F) :=
  f.inputPatterns.zipIdx.map fun (p, i) => (List.range p.nnz).map (seed i)

/-- Lists of tangents fit the inputs. -/
theorem fitLists_seedLists
    (f : Tape F) (u : Nat → Nat → F) :
    FitLists f.inputPatterns (f.seedLists u) := by
  refine List.forall₂_iff_get.2 ⟨by simp [seedLists], fun i h h' => ?_⟩
  simp [seedLists]

theorem gives_loadTangent
    (hf : f.WellFormed) (hsound : l.Sound f.spans keep) {m : Memory F}
    (hroom : l.size ≤ m.values.size) (d : Nat) (seed : Nat → Nat → F) :
    Run.Gives (f.loadTangent l d seed) m ()
      { m with fwd := m.fwd.modify d (writeLists l 0 (f.seedLists seed)) } := by
  have hfold : ∀ (items : List (Pattern × Nat)) (m' : Memory F),
      items.foldl (fun m' item =>
        { m' with
          fwd := m'.fwd.modify d
            (writeAt (l.slot item.2 0) ((List.range item.1.nnz).map (seed item.2))) }) m' =
      { m' with
        fwd := m'.fwd.modify d fun w => items.foldl
          (fun w item => writeAt (l.slot item.2 0) ((List.range item.1.nnz).map (seed item.2)) w)
          w } := by
    intro items
    induction items with
    | nil =>
        intro m'
        simp only [List.foldl_nil, modify_id]
    | cons item items ih =>
        intro m'
        rw [List.foldl_cons, ih]
        simp only [modify_modify, List.foldl_cons]
  have hlists : (f.seedLists seed).zipIdx =
      f.inputPatterns.zipIdx.map fun (p, i) => ((List.range p.nnz).map (seed i), i) := by
    refine List.ext_getElem? fun i => ?_
    simp [seedLists, Function.comp_def]
  have hwrite : writeLists l 0 (f.seedLists seed) = fun w => f.inputPatterns.zipIdx.foldl
      (fun w item => writeAt (l.slot item.2 0) ((List.range item.1.nnz).map (seed item.2)) w)
      w := by
    funext w
    rw [writeLists, hlists, List.foldl_map]
  have hload := gives_writes hsound (fun g m => { m with fwd := m.fwd.modify d g })
    (fun _ _ _ => rfl) (fun item => (List.range item.1.nnz).map (seed item.2)) Prod.snd
    (fun item => item.1.nnz) hroom
    (fun item hitem => hf.input item.2 item.1 (List.mem_zipIdx_iff_getElem?.1 hitem))
  rw [hfold, ← hwrite] at hload
  exact hload

variable [Zero F]

/--
Under layout `l` the array `w` holds what `v` holds under the full layout, for every element
before `j` that is kept or read at `j` or later.
-/
def Holds (f : Tape F) (l : Layout) (keep : Nat → Prop) (j : Nat) (v w : Array F) : Prop :=
  ∀ p < j, Layout.Live f.spans keep j p → ∀ e, f.elements[p]? = some e → ∀ k < e.nnz,
    w.getD (l.slot p k) 0 = v.getD (f.full.slot p k) 0

theorem holds_zero
    (f : Tape F) (l : Layout) (keep : Nat → Prop) (v w : Array F) :
    f.Holds l keep 0 v w :=
  fun p hp => absurd hp (Nat.not_lt_zero p)

/-- Writing the next element leaves the needed ones alone. -/
theorem Holds.step
    (hsound : l.Sound f.spans keep) {j : Nat} {v w w' : Array F} (h : f.Holds l keep j v w)
    {e : Element F} (he : f.elements[j]? = some e)
    (hw : Written (l.slot j 0) e.nnz (fun k => v.getD (f.full.slot j k) 0) w w') :
    f.Holds l keep (j + 1) v w' := by
  intro p hp hlive e' he' k hk
  rcases Nat.lt_succ_iff_lt_or_eq.1 hp with hp | rfl
  · have hlive' := hlive.mono (Nat.le_succ j)
    rw [hw.outside _ fun y hy => ?_]
    · exact h p hp hlive' e' he' k hk
    · rw [Layout.slot_zero_add]
      exact hsound.apart p j (span e') (span e) hp (getElem?_spans he') (getElem?_spans he)
        hlive' k hk y hy
  · rw [he] at he'
    cases he'
    rw [← Layout.slot_zero_add]
    exact hw.inside k hk

/-- The next element finds what its operands hold. -/
theorem Holds.agree
    (hf : f.WellFormed) {j : Nat} {v w : Array F} (h : f.Holds l keep j v w)
    {e : Element F} (he : f.elements[j]? = some e) :
    Agree f.elements e.instr.reads l.slot f.full.slot w v := by
  intro q hq e' he' i hi
  exact h q ((hf.fits j e he).lt_of_mem_reads hq)
    (.inr ⟨j, span e, Nat.le_refl j, getElem?_spans he, hq⟩) e' he' i hi

/-- A segment reads slots inside the layout, and none of its own. -/
theorem slots_segmentAt
    (hf : f.WellFormed) (hsound : l.Sound f.spans keep) {j : Nat} {e : Element F}
    (he : f.elements[j]? = some e) {k : Nat} (hk : k < e.nnz) {r : Nat}
    (hr : r ∈ (e.instr.cellAt l.slot k).slots) :
    r < l.size ∧ ∀ i < e.nnz, r ≠ l.slot j 0 + i := by
  obtain ⟨q, i, e', hq, he', hi, rfl⟩ := mem_slots_cellAt (hf.fits j e he) hk hr
  refine ⟨slot_lt_size hsound he' hi, fun y hy => ?_⟩
  rw [Layout.slot_zero_add]
  exact hsound.apart q j (span e') (span e) ((hf.fits j e he).lt_of_mem_reads hq)
    (getElem?_spans he') (getElem?_spans he)
    (.inr ⟨j, span e, Nat.le_refl j, getElem?_spans he, hq⟩) i hi y hy

/-- Loaded elements hold what the lists give, even where unread ones share slots. -/
theorem holds_writeLists
    (hsound : l.Sound f.spans keep) {v : Array F} {w : Array F} (hw : l.size ≤ w.size)
    {first : Nat} (lists : List (List F)) (h : f.Holds l keep first v w)
    (hlists : ∀ i xs, (xs, i) ∈ lists.zipIdx first → ∃ e, f.elements[i]? = some e ∧
      e.nnz = xs.length ∧ ∀ k < e.nnz, v.getD (f.full.slot i k) 0 = xs.getD k 0) :
    f.Holds l keep (first + lists.length) v (writeLists l first lists w) := by
  induction lists generalizing first w with
  | nil => exact h
  | cons xs lists ih =>
      rw [List.zipIdx_cons] at hlists
      obtain ⟨e, he, hnnz, hv⟩ := hlists first xs (List.mem_cons_self ..)
      have hroom : l.slot first 0 + xs.length ≤ w.size := by
        have hle := hsound.inside first (span e) (getElem?_spans he)
        have hlen : (span e).length = xs.length := hnnz
        rw [hlen] at hle
        rw [Layout.slot_zero_add]
        omega
      have hwritten := written_writeAt xs hroom
      have hstep : f.Holds l keep (first + 1) v (writeAt (l.slot first 0) xs w) :=
        h.step hsound he ⟨fun k hk => by rw [hwritten.inside k (by omega), hv k hk],
          fun t ht => hwritten.outside t fun k hk => ht k (by omega)⟩
      have hrest := ih (by simpa using hw) hstep
        fun i ys hmem => hlists i ys (List.mem_cons_of_mem _ hmem)
      have hlen : first + (xs :: lists).length = first + 1 + lists.length := by
        rw [List.length_cons]
        omega
      rw [hlen]
      exact hrest

theorem numbered_segmentAt
    (l : Layout) (e : Element F) (p : Nat) :
    (segmentAt l e p).numbered =
      (List.range e.nnz).map fun k => (e.instr.cellAt l.slot k, k) := by
  refine List.ext_getElem? fun k => ?_
  rcases Nat.lt_or_ge k e.nnz with hk | hk
  · simp [Segment.numbered, segmentAt, hk]
  · simp [Segment.numbered, segmentAt, hk]

/-- A segment writes and reads inside the layout. -/
theorem slots_numbered_segmentAt
    (hf : f.WellFormed) (hsound : l.Sound f.spans keep) {p : Nat} {e : Element F}
    (he : f.elements[p]? = some e) {c : Cell F} {k : Nat}
    (hmem : (c, k) ∈ (segmentAt l e p).numbered) {r : Nat}
    (hr : r ∈ ((segmentAt l e p).start + k) :: c.slots) :
    r < l.size := by
  rw [numbered_segmentAt] at hmem
  obtain ⟨k', hk', heq⟩ := List.mem_map.1 hmem
  cases heq
  have hk := List.mem_range.1 hk'
  rcases List.mem_cons.1 hr with rfl | hr
  · have hslot := slot_lt_size hsound he hk
    have hstart : (segmentAt l e p).start + k = l.slot p k := Layout.slot_zero_add l p k
    omega
  · exact (slots_segmentAt hf hsound he hk hr).1

variable [Add F] [Mul F] [Calculus F]

/--
The state of a forward sweep before the element at `j`: the values and the first `nfwd`
tangents that are still needed are there, and nothing else has changed since `before`.
-/
structure Reached (f : Tape F) (l : Layout) (keep : Nat → Prop) (v : Array F)
    (ts : Nat → Array F) (nfwd : Nat) (before : Memory F) (j : Nat) (m : Memory F) : Prop where
  wellSized : m.WellSized
  sizes : m.sizes = before.sizes
  adj : m.adj = before.adj
  adjFwd : m.adjFwd = before.adjFwd
  values : f.Holds l keep j v m.values
  fwd : ∀ d < nfwd, f.Holds l keep j (ts d) (m.fwd.getD d #[])

/-- The sweep of an element that is not an input, as a loop over nonzeros. -/
theorem sweep_segmentAt
    {e : Element F} (hinput : e.instr.isInput = false) (nfwd p : Nat) (m : Memory F) :
    (segmentAt l e p).sweep nfwd m =
      (List.range e.nnz).foldl
        (fun m' k => ((e.instr.cellAt l.slot k).settle m.values).advance nfwd
          (l.slot p 0 + k) m') m := by
  simp only [Segment.sweep, numbered_segmentAt, List.foldl_map, isInput_cellAt, hinput,
    Bool.false_eq_true, if_false]
  rfl

/-- The sweep of an input changes nothing: its nonzeros are loaded before. -/
theorem sweep_segmentAt_input
    {e : Element F} (hinput : e.instr.isInput = true) (nfwd p : Nat) (m : Memory F) :
    (segmentAt l e p).sweep nfwd m = m := by
  have hall : ∀ (items : List (Cell F × Nat)) (m' : Memory F),
      (∀ item ∈ items, item.1.isInput = true) →
      items.foldl (fun m' (c, k) => if c.isInput then m' else
        (c.settle m.values).advance nfwd ((segmentAt l e p).start + k) m') m' = m' := by
    intro items
    induction items with
    | nil => exact fun _ _ => rfl
    | cons item items ih =>
        intro m' h
        obtain ⟨c, k⟩ := item
        have hc : c.isInput = true := h (c, k) (List.mem_cons_self ..)
        rw [List.foldl_cons]
        simp only [hc, if_true]
        exact ih m' fun i hi => h i (List.mem_cons_of_mem _ hi)
  refine hall _ m fun item hitem => ?_
  obtain ⟨k, -, hk⟩ := List.mem_map.1 (List.fst_mem_of_mem_zipIdx hitem)
  rw [← hk, isInput_cellAt, hinput]

variable {x : Nat → Nat → F} {us : Nat → Nat → Nat → F} {nfwd : Nat} {before : Memory F}

section Step

variable {j : Nat} {m : Memory F} {e : Element F}

/-- The cells of the next element are swept as if all at once. -/
theorem Reached.advanced
    {v : Array F} {ts : Nat → Array F} (hf : f.WellFormed) (hsound : l.Sound f.spans keep)
    (h : f.Reached l keep v ts nfwd before j m) (hwork : l.size ≤ before.sizes.work)
    (hnfwd : nfwd ≤ before.sizes.nfwd) (he : f.elements[j]? = some e) (hlate : f.nIn ≤ j) :
    Advanced nfwd (l.slot j 0) e.nnz (fun k => e.instr.cellAt l.slot k) m
      ((segmentAt l e j).sweep nfwd m) := by
  have hroom : l.slot j 0 + e.nnz ≤ m.sizes.work := by
    have hle := hsound.inside j (span e) (getElem?_spans he)
    have hlen : (span e).length = e.nnz := rfl
    rw [hlen] at hle
    rw [Layout.slot_zero_add, h.sizes]
    omega
  rw [sweep_segmentAt (hf.isInput_eq_false he hlate)]
  exact advanced_foldl h.wellSized hroom (h.sizes ▸ hnfwd)
    fun k hk r hr => (slots_segmentAt hf hsound he hk hr).2

/-- The next element gets the value and the tangents of the trace, needed later or not. -/
theorem Reached.written
    (hf : f.WellFormed) (hsound : l.Sound f.spans keep)
    (h : f.Reached l keep (Trace.values x f.trace)
      (fun d => Trace.tangents (us d) (Trace.values x f.trace) f.trace) nfwd before j m)
    (hwork : l.size ≤ before.sizes.work) (hnfwd : nfwd ≤ before.sizes.nfwd)
    (he : f.elements[j]? = some e) (hlate : f.nIn ≤ j) :
    Written (l.slot j 0) e.nnz
        (fun k => (Trace.values x f.trace).getD (f.full.slot j k) 0) m.values
        ((segmentAt l e j).sweep nfwd m).values ∧
      ∀ d < nfwd, Written (l.slot j 0) e.nnz
        (fun k => (Trace.tangents (us d) (Trace.values x f.trace) f.trace).getD
          (f.full.slot j k) 0) (m.fwd.getD d #[])
        (((segmentAt l e j).sweep nfwd m).fwd.getD d #[]) := by
  have hinput := hf.isInput_eq_false he hlate
  have hfits := hf.fits j e he
  have hadv := h.advanced hf hsound hwork hnfwd he hlate
  generalize hv : Trace.values x f.trace = v at h
  have hcell : ∀ k < e.nnz, (e.instr.cellAt l.slot k).value m.values =
      v.getD (f.full.slot j k) 0 := by
    intro k hk
    rw [value_cellAt_congr hfits hk (h.values.agree hf he), ← hv,
      Trace.getD_values x (causal_trace hf) (getElem?_trace hf he hk),
      Cell.eval_of_not_input (by simpa using hinput)]
  refine ⟨⟨fun k hk => ?_, hadv.values.outside⟩,
    fun d hd => ⟨fun k hk => ?_, (hadv.fwd d hd).outside⟩⟩
  · rw [hadv.values.inside k hk, hcell k hk]
  · rw [(hadv.fwd d hd).inside k hk, hcell k hk,
      tangent_cellAt_congr hfits hk (h.values.agree hf he) ((h.fwd d hd).agree hf he),
      Trace.getD_tangents (us d) v (causal_trace hf) (getElem?_trace hf he hk),
      Cell.evalTangent_of_not_input (by simpa using hinput)]

/-- One step of the sweep. -/
theorem Reached.step
    (hf : f.WellFormed) (hsound : l.Sound f.spans keep)
    (h : f.Reached l keep (Trace.values x f.trace)
      (fun d => Trace.tangents (us d) (Trace.values x f.trace) f.trace) nfwd before j m)
    (hwork : l.size ≤ before.sizes.work) (hnfwd : nfwd ≤ before.sizes.nfwd)
    (he : f.elements[j]? = some e) (hlate : f.nIn ≤ j) :
    f.Reached l keep (Trace.values x f.trace)
      (fun d => Trace.tangents (us d) (Trace.values x f.trace) f.trace) nfwd before (j + 1)
      ((segmentAt l e j).sweep nfwd m) := by
  have hadv := h.advanced hf hsound hwork hnfwd he hlate
  obtain ⟨hvalues, hfwd⟩ := h.written hf hsound hwork hnfwd he hlate
  exact ⟨hadv.wellSized, hadv.sizes.trans h.sizes, hadv.adj.trans h.adj,
    hadv.adjFwd.trans h.adjFwd, h.values.step hsound he hvalues,
    fun d hd => (h.fwd d hd).step hsound he (hfwd d hd)⟩

end Step

/-- The sweep of the first elements, and of one more. -/
theorem foldl_sweep_take_succ
    {j : Nat} {e : Element F} (he : f.elements[j]? = some e) (m : Memory F) :
    ((f.segmentsAt l).take (j + 1)).foldl (fun m s => s.sweep nfwd m) m =
      (segmentAt l e j).sweep nfwd
        (((f.segmentsAt l).take j).foldl (fun m s => s.sweep nfwd m) m) := by
  have hseg : (f.segmentsAt l)[j]? = some (segmentAt l e j) := by
    rw [getElem?_segmentsAt, he]
    rfl
  rw [List.take_add_one, hseg, Option.toList_some, List.foldl_concat]

/-- The inputs are loaded, so their segments change nothing. -/
theorem foldl_sweep_take_inputs
    (hf : f.WellFormed) {j : Nat} (hj : j ≤ f.nIn) (m : Memory F) :
    ((f.segmentsAt l).take j).foldl (fun m s => s.sweep nfwd m) m = m := by
  induction j with
  | zero => rfl
  | succ j ih =>
      have hlt : j < f.elements.size := by
        have := hf.nIn_le
        omega
      have he : f.elements[j]? = some f.elements[j] := Array.getElem?_eq_getElem hlt
      rw [foldl_sweep_take_succ he, ih (by omega),
        sweep_segmentAt_input ((hf.isInput_iff j _ he).2 (by omega))]

/-- From loaded inputs, the sweep reaches every element behind them. -/
theorem reached_take
    (hf : f.WellFormed) (hsound : l.Sound f.spans keep) {m : Memory F}
    (h : f.Reached l keep (Trace.values x f.trace)
      (fun d => Trace.tangents (us d) (Trace.values x f.trace) f.trace) nfwd before f.nIn m)
    (hwork : l.size ≤ before.sizes.work) (hnfwd : nfwd ≤ before.sizes.nfwd) {j : Nat}
    (hlate : f.nIn ≤ j) (hj : j ≤ f.elements.size) :
    f.Reached l keep (Trace.values x f.trace)
      (fun d => Trace.tangents (us d) (Trace.values x f.trace) f.trace) nfwd before j
      (((f.segmentsAt l).take j).foldl (fun m s => s.sweep nfwd m) m) := by
  induction j, hlate using Nat.le_induction with
  | base =>
      rw [foldl_sweep_take_inputs hf (Nat.le_refl _)]
      exact h
  | succ j hlate ih =>
      have he : f.elements[j]? = some f.elements[j] := Array.getElem?_eq_getElem (by omega)
      rw [foldl_sweep_take_succ he]
      exact (ih (by omega)).step hf hsound hwork hnfwd he hlate

/-- From loaded inputs, the sweep reaches the end. -/
theorem reached_foldl
    (hf : f.WellFormed) (hsound : l.Sound f.spans keep) {m : Memory F}
    (h : f.Reached l keep (Trace.values x f.trace)
      (fun d => Trace.tangents (us d) (Trace.values x f.trace) f.trace) nfwd before f.nIn m)
    (hwork : l.size ≤ before.sizes.work) (hnfwd : nfwd ≤ before.sizes.nfwd) :
    f.Reached l keep (Trace.values x f.trace)
      (fun d => Trace.tangents (us d) (Trace.values x f.trace) f.trace) nfwd before
      f.elements.size ((f.segmentsAt l).foldl (fun m s => s.sweep nfwd m) m) := by
  have htake : (f.segmentsAt l).take f.elements.size = f.segmentsAt l :=
    List.take_of_length_le (by simp)
  have hend := reached_take hf hsound h hwork hnfwd hf.nIn_le (Nat.le_refl _)
  rwa [htake] at hend

/-- A sweep that ends without complaint has done its segments one after the other. -/
theorem eq_foldl_of_gives_forwardSweep
    {check : Bool} {op : String} {tape : List (Segment F)} {m m' : Memory F}
    (h : Run.Gives (forwardSweep check op nfwd tape) m () m') :
    m' = tape.foldl (fun m s => s.sweep nfwd m) m := by
  unfold forwardSweep at h
  exact Run.eq_foldl_of_gives_forM (g := fun m s => s.sweep nfwd m)
    (fun _ _ _ hs => eq_sweep_of_gives hs) h

theorem size_values_sweep
    (s : Segment F) (m : Memory F) :
    (s.sweep nfwd m).values.size = m.values.size := by
  have hall : ∀ (items : List (Cell F × Nat)) (m' : Memory F),
      (items.foldl (fun m' (c, k) => if c.isInput then m' else
        (c.settle m.values).advance nfwd (s.start + k) m') m').values.size = m'.values.size := by
    intro items
    induction items with
    | nil => exact fun _ => rfl
    | cons item items ih =>
        intro m'
        obtain ⟨c, k⟩ := item
        rw [List.foldl_cons, ih]
        cases hc : c.isInput with
        | true => simp [hc]
        | false => simp [hc, Cell.advance]
  exact hall _ m

theorem size_values_foldl_sweep
    (segments : List (Segment F)) (m : Memory F) :
    (segments.foldl (fun m s => s.sweep nfwd m) m).values.size = m.values.size := by
  induction segments generalizing m with
  | nil => rfl
  | cons s segments ih => exact (ih _).trans (size_values_sweep s m)

/-- With numbers that are all finite, the sweep of a large enough memory succeeds. -/
theorem gives_forwardSweep
    (nfwd : Nat) (hf : f.WellFormed) (hsound : l.Sound f.spans keep) (check : Bool) (op : String)
    (hfinite : ∀ x : F, Calculus.isFinite x = true) {m : Memory F}
    (hroom : l.size ≤ m.values.size) :
    Run.Gives (forwardSweep check op nfwd (f.segmentsAt l)) m ()
      ((f.segmentsAt l).foldl (fun m s => s.sweep nfwd m) m) := by
  refine (Run.gives_forM
    (I := fun rest m' => l.size ≤ m'.values.size ∧ ∀ s ∈ rest, s ∈ f.segmentsAt l)
    (fun s rest m' hI => ?_) (f.segmentsAt l) m ⟨hroom, fun _ hs => hs⟩).1
  obtain ⟨hsize, hrest⟩ := hI
  obtain ⟨p, hp⟩ := List.mem_iff_getElem?.1 (hrest s (List.mem_cons_self ..))
  rw [getElem?_segmentsAt] at hp
  obtain ⟨e, he, rfl⟩ := Option.map_eq_some_iff.1 hp
  exact ⟨gives_sweep hfinite fun c k hmem _ r hr =>
      Nat.lt_of_lt_of_le (slots_numbered_segmentAt hf hsound he hmem hr) hsize,
    by rw [size_values_sweep]; exact hsize, fun s' hs' => hrest s' (List.mem_cons_of_mem _ hs')⟩

end Tape

end SparseDiff
