import SparseDiff.Proofs.Kinks.Sites
import SparseDiff.Proofs.Rational

/-!
# Branches

A side that a recording has found tells which smooth formula a cell follows. `Cell.take` puts the
formula in place of the cell: an operand for a minimum, a maximum or an absolute value, where the
lower side of the latter negates it; the source or zero for a select. Steps, that is signs and
roundings, are constants that no side tells, and stay. A tape rewritten by the sides of a
recording (`Tape.smoothTape`) has no branches but steps, and its value sweep on the same inputs
returns what a call returns (`Tape.branches_meaning`).

Every cell is replaced by one that has its value where the sweep arrives at it, so both sweeps
pass through the same memories, and the checks of both see the same numbers
(`Segment.sweep_replace`, `Tape.gives_loadValues_replace`).
-/

namespace SparseDiff

variable {F : Type}

/-- An absolute value is its operand or the negative, as the comparison with zero says. -/
class Elementary.Signed (F : Type) [Zero F] [Neg F] [Elementary F] : Prop where
  abs_of_le : ∀ x : F, Elementary.le 0 x = true → Elementary.abs x = x
  abs_of_not_le : ∀ x : F, Elementary.le 0 x = false → Elementary.abs x = -x

/-- Exact numbers with an order are such. -/
theorem Elementary.signed_of_order
    {F : Type} [CommRing F] [LinearOrder F] [IsStrictOrderedRing F] [Elementary F]
    (habs : ∀ x : F, Elementary.abs x = |x|)
    (hle : ∀ x y : F, Elementary.le x y = true ↔ x ≤ y) :
    Elementary.Signed F where
  abs_of_le x h := by rw [habs, abs_of_nonneg ((hle 0 x).1 h)]
  abs_of_not_le x h := by
    have hneg : x < 0 := by simpa [h] using hle 0 x
    rw [habs, abs_of_neg hneg]

/-- One of two, for the upper and for the lower side. -/
def Side.pick {α : Type} (onUpper onLower : α) : Side → α
  | upper => onUpper
  | lower => onLower

/-- The operation is constant between its jumps. -/
def KinkOp.isStep : KinkOp → Bool
  | unary .sign | unary .floor | unary .ceil => true
  | _ => false

namespace Cell

/-- The cell that has the value of an operand. -/
def ofOperand [Zero F] : Option Nat → Cell F
  | some s => copy s
  | none => constant 0

/-- The formula that a cell follows on one side; steps and smooth cells stay. -/
def take [Zero F] (side : Side) : Cell F → Cell F
  | unary .abs a => side.pick (ofOperand a) (unary .neg a)
  | binary .min a b | binary .max a b => side.pick (ofOperand a) (ofOperand b)
  | select _ _ source => side.pick (copy source) (constant 0)
  | c => c

/-- No branch but steps. -/
def IsBranchFree (c : Cell F) : Prop := ∀ op, c.kinkOp? = some op → op.isStep = true

section Take

variable [Zero F]

@[simp] theorem slots_ofOperand
    (a : Option Nat) :
    (ofOperand a : Cell F).slots = a.toList := by
  cases a <;> rfl

@[simp] theorem isInput_ofOperand
    (a : Option Nat) :
    (ofOperand a : Cell F).isInput = false := by
  cases a <;> rfl

theorem isBranchFree_ofOperand
    (a : Option Nat) :
    (ofOperand a : Cell F).IsBranchFree := by
  cases a <;> simp [ofOperand, IsBranchFree, kinkOp?]

@[simp] theorem value_ofOperand
    [Calculus F] (w : Array F) (a : Option Nat) :
    (ofOperand a).value w = readSlot w a := by
  cases a <;> rfl

theorem take_of_smooth
    {c : Cell F} (h : c.kinkOp? = none) (side : Side) :
    c.take side = c := by
  cases c with
  | unary op a => cases op <;> first | rfl | simp [kinkOp?, UnaryOp.isNonsmooth] at h
  | binary op a b => cases op <;> first | rfl | simp [kinkOp?, BinaryOp.isNonsmooth] at h
  | select tol cond source => simp [kinkOp?] at h
  | _ => rfl

theorem isBranchFree_take
    (side : Side) (c : Cell F) :
    (c.take side).IsBranchFree := by
  cases c with
  | unary op a =>
      cases op with
      | abs =>
          cases side with
          | upper => exact isBranchFree_ofOperand a
          | lower => simp [take, Side.pick, IsBranchFree, kinkOp?, UnaryOp.isNonsmooth]
      | _ => simp [take, IsBranchFree, kinkOp?, UnaryOp.isNonsmooth, KinkOp.isStep]
  | binary op a b =>
      cases op with
      | min | max => cases side <;> exact isBranchFree_ofOperand _
      | _ => simp [take, IsBranchFree, kinkOp?, BinaryOp.isNonsmooth]
  | select tol cond source => cases side <;> simp [take, Side.pick, IsBranchFree, kinkOp?]
  | _ => simp [take, IsBranchFree, kinkOp?]

end Take

/-- In a memory with values `w`, a cell may stand for another. -/
structure Replaces [Zero F] [Calculus F] (w : Array F) (c c' : Cell F) : Prop where
  isInput : c'.isInput = c.isInput
  slots : c'.slots ⊆ c.slots
  value : c'.value w = c.value w

theorem Replaces.refl
    [Zero F] [Calculus F] (w : Array F) (c : Cell F) :
    Replaces w c c :=
  ⟨rfl, List.Subset.refl _, rfl⟩

theorem Replaces.congr
    [Zero F] [Calculus F] {w w' : Array F} {c c' : Cell F} (h : Replaces w c c')
    (hagree : ∀ r ∈ c.slots, w.getD r 0 = w'.getD r 0) :
    Replaces w' c c' := by
  refine ⟨h.isInput, h.slots, ?_⟩
  rw [← value_congr hagree, ← value_congr fun r hr => hagree r (h.slots hr), h.value]

/-- A cell that reads an operand and has its value may be replaced by it. -/
theorem replaces_ofOperand
    [Zero F] [Calculus F] {w : Array F} {c : Cell F} {a : Option Nat} (hinput : c.isInput = false)
    (hslots : a.toList ⊆ c.slots) (hvalue : c.value w = readSlot w a) :
    Replaces w c (ofOperand a) :=
  ⟨by rw [isInput_ofOperand, hinput], by rwa [slots_ofOperand], by rw [value_ofOperand, hvalue]⟩

/-- What each outcome of a test allows to put in place of a cell. -/
theorem replaces_pick
    [Zero F] [Calculus F] {w : Array F} {c x y : Cell F} {test : Bool}
    (hupper : test = true → Replaces w c x) (hlower : test = false → Replaces w c y) :
    Replaces w c ((Side.ofTest test).pick x y) := by
  cases test with
  | true => exact hupper rfl
  | false => exact hlower rfl

variable [Zero F] [One F] [Add F] [Sub F] [Neg F] [Mul F] [Div F] [Elementary F]
  [Elementary.Signed F]

/-- On the side that it takes, a cell follows its formula. -/
theorem replaces_take
    (w : Array F) (c : Cell F) :
    Replaces w c (c.take (c.taken w).2) := by
  cases c with
  | unary op a =>
      cases op with
      | abs =>
          refine replaces_pick (fun h => ?_) fun h => ?_
          · exact replaces_ofOperand rfl (List.Subset.refl _) (Elementary.Signed.abs_of_le _ h)
          · exact ⟨rfl, List.Subset.refl _, (Elementary.Signed.abs_of_not_le _ h).symm⟩
      | _ => exact Replaces.refl w _
  | binary op a b =>
      have hleft : a.toList ⊆ (binary op a b : Cell F).slots := List.subset_append_left ..
      have hright : b.toList ⊆ (binary op a b : Cell F).slots := List.subset_append_right ..
      cases op with
      | min | max =>
          refine replaces_pick (fun h => ?_) fun h => ?_
          · exact replaces_ofOperand rfl hleft (if_pos h)
          · exact replaces_ofOperand rfl hright (if_neg (by simp [h]))
      | _ => exact Replaces.refl w _
  | select tol cond source =>
      refine replaces_pick (fun h => ?_) fun h => ?_
      · exact ⟨rfl, List.subset_append_right .., (if_pos h).symm⟩
      · exact ⟨rfl, List.nil_subset _, (if_neg (by simp [Calculus.selects, h])).symm⟩
  | _ => exact Replaces.refl w _

end Cell

section Taking

variable [Zero F]

/-- Take the next side at every cell with a kink. -/
def takeCells : List (Cell F) → List Side → List (Cell F)
  | [], _ => []
  | c :: cells, sides =>
      match c.kinkOp?, sides with
      | some _, side :: sides => c.take side :: takeCells cells sides
      | _, _ => c :: takeCells cells sides

/-- Take sides in tape order: a segment uses one for every cell with a kink. -/
def takeSegments : List (Segment F) → List Side → List (Segment F)
  | [], _ => []
  | s :: segments, sides =>
      { s with cells := takeCells s.cells sides } ::
        takeSegments segments (sides.drop (s.cells.countP (·.kinkOp?.isSome)))

/-- Put a cell in place of every cell. -/
def Segment.replace (g : Cell F → Cell F) (s : Segment F) : Segment F :=
  { s with cells := s.cells.map g }

variable (side : Cell F → Side)

/-- Sides that stand in order reach their cells. -/
theorem takeCells_append
    (cells : List (Cell F)) (rest : List Side) :
    takeCells cells ((cells.filter (·.kinkOp?.isSome)).map side ++ rest) =
      cells.map fun c => c.take (side c) := by
  induction cells with
  | nil => rfl
  | cons c cells ih =>
      rw [List.filter_cons, List.map_cons]
      cases hop : c.kinkOp? with
      | none =>
          rw [Cell.take_of_smooth hop, ← ih]
          simp [takeCells, hop]
      | some op =>
          rw [← ih]
          simp [takeCells, hop]

theorem takeSegments_eq
    (segments : List (Segment F)) :
    takeSegments segments
        (((segments.flatMap Segment.cells).filter (·.kinkOp?.isSome)).map side) =
      segments.map (Segment.replace fun c => c.take (side c)) := by
  induction segments with
  | nil => rfl
  | cons s segments ih =>
      have hused : s.cells.countP (·.kinkOp?.isSome) =
          ((s.cells.filter (·.kinkOp?.isSome)).map side).length := by
        rw [List.length_map, List.countP_eq_length_filter]
      rw [List.flatMap_cons, List.filter_append, List.map_append, takeSegments, takeCells_append,
        hused, List.drop_left, ih]
      rfl

end Taking

section Sweep

variable [Zero F] [Add F] [Mul F] [Calculus F]

theorem Cell.Replaces.advance_eq
    {c c' : Cell F} {m m' : Memory F} (h : Replaces m.values c c')
    (hagree : ∀ r ∈ c.slots, m'.values.getD r 0 = m.values.getD r 0) (dest : Nat) :
    (c'.settle m.values).advance 0 dest m' = (c.settle m.values).advance 0 dest m' := by
  have hvalue : (c'.settle m.values).value m'.values = (c.settle m.values).value m'.values := by
    rw [value_settle fun r hr => hagree r (h.slots hr), value_settle hagree, h.value]
  simp only [advance, hvalue]
  rfl

/-- Cells that read before their segment may be replaced in its sweep. -/
theorem Segment.sweep_replace
    {s : Segment F} {g : Cell F → Cell F} {m : Memory F}
    (hbefore : ∀ c ∈ s.cells, ∀ r ∈ c.slots, r < s.start)
    (hg : ∀ c ∈ s.cells, c.Replaces m.values (g c)) :
    (s.replace g).sweep 0 m = s.sweep 0 m := by
  have hnumbered : (s.replace g).numbered = s.numbered.map (Prod.map g id) := List.zipIdx_map ..
  -- the cells so far have written at the start of the segment or behind it
  have hfold : ∀ (items : List (Cell F × Nat)) (m' : Memory F),
      (∀ item ∈ items, item.1 ∈ s.cells) →
      (∀ r < s.start, m'.values.getD r 0 = m.values.getD r 0) →
      items.foldl (fun m' (item : Cell F × Nat) => if (g item.1).isInput then m' else
          ((g item.1).settle m.values).advance 0 (s.start + item.2) m') m' =
        items.foldl (fun m' (item : Cell F × Nat) => if item.1.isInput then m' else
          (item.1.settle m.values).advance 0 (s.start + item.2) m') m' := by
    intro items
    induction items with
    | nil => exact fun _ _ _ => rfl
    | cons item items ih =>
        intro m' hmem hkept
        have hc := hmem item (List.mem_cons_self ..)
        have hrest : ∀ item' ∈ items, item'.1 ∈ s.cells :=
          fun item' h => hmem item' (List.mem_cons_of_mem _ h)
        rw [List.foldl_cons, List.foldl_cons, (hg _ hc).isInput,
          (hg _ hc).advance_eq fun r hr => hkept r (hbefore _ hc r hr)]
        refine ih _ hrest fun r hr => ?_
        split
        · exact hkept r hr
        · rw [Cell.advance, getD_setIfInBounds_ne (by omega), hkept r hr]
  rw [sweep, hnumbered, List.foldl_map]
  exact hfold s.numbered m (fun item hitem => List.fst_mem_of_mem_zipIdx hitem) fun _ _ => rfl

/-- A segment whose cells are replaced is swept as before, its check included. -/
theorem Segment.gives_forward_replace
    {check : Bool} {op : String} {s : Segment F} {g : Cell F → Cell F} {m m' : Memory F}
    (hbefore : ∀ c ∈ s.cells, ∀ r ∈ c.slots, r < s.start)
    (hg : ∀ c ∈ s.cells, c.Replaces m.values (g c))
    (hroom : ∀ c k, (c, k) ∈ s.numbered → ∀ r ∈ (s.start + k) :: c.slots, r < m.values.size)
    (h : Run.Gives (s.forward check op 0) m () m') :
    Run.Gives ((s.replace g).forward check op 0) m () m' := by
  unfold forward at h ⊢
  rw [Run.gives_get_bind, Run.gives_bind] at h ⊢
  obtain ⟨_, m₁, hcells, hcheck⟩ := h
  obtain ⟨-, rfl⟩ := hcells.unique (gives_cells fun c k hmem _ => hroom c k hmem)
  refine ⟨(), s.sweep 0 m, ?_, ?_⟩
  · rw [← sweep_replace hbefore hg]
    refine gives_cells fun c k hmem _ r hr => ?_
    rw [numbered, replace, List.zipIdx_map] at hmem
    obtain ⟨⟨c₀, k₀⟩, hmem₀, heq⟩ := List.mem_map.1 hmem
    obtain ⟨rfl, rfl⟩ := Prod.mk.inj heq
    have hreplaces := hg c₀ (List.fst_mem_of_mem_zipIdx hmem₀)
    rcases List.mem_cons.1 hr with rfl | hr
    · exact hroom c₀ k₀ hmem₀ _ (List.mem_cons_self ..)
    · exact hroom c₀ k₀ hmem₀ r (List.mem_cons_of_mem _ (hreplaces.slots hr))
  · simpa [checkFinite, replace] using hcheck

end Sweep

namespace Tape

section Sweep

variable [Zero F] [Add F] [Mul F] [Calculus F] {f : Tape F} {xs : List (List F)} {m : Memory F}

/-- Where the sweep arrives, a cell finds the values of the trace. -/
theorem getD_sweep_take
    (hf : f.WellFormed) (hm : m.WellSized) (hwork : f.full.size ≤ m.sizes.work)
    (hfit : FitLists f.inputPatterns xs) {j k r : Nat} {e : Element F}
    (he : f.elements[j]? = some e) (hk : k < e.nnz)
    (hr : r ∈ (e.instr.cellAt f.full.slot k).slots) :
    (((f.segmentsAt f.full).take j).foldl (fun m s => s.sweep 0 m)
      (f.loaded f.full xs [] m)).values.getD r 0 = (f.valueArray xs).getD r 0 := by
  rcases Nat.lt_or_ge j f.nIn with hin | hlate
  · rw [cellAt_input hf he hin] at hr
    cases hr
  · have hsound := hf.full_sound fun _ => True
    have hnone : ([] : List (Nat → Nat → F)).length ≤ m.sizes.nfwd := Nat.zero_le _
    have hreached := reached_take hf hsound (reached_loadSeeds hf hsound hm hwork hnone hfit)
      hwork hnone hlate (Nat.le_of_lt (Array.getElem?_eq_some_iff.1 he).1)
    obtain ⟨q, i, e', hq, he', hi, rfl⟩ := mem_slots_cellAt (hf.fits j e he) hk hr
    exact hreached.values.agree hf he q hq e' he' i hi

/-- Cells that have the values of the trace may be put in the place of its cells. -/
theorem gives_loadValues_replace
    (hf : f.WellFormed) (hm : m.WellSized) (hwork : f.full.size ≤ m.sizes.work)
    (hfit : FitLists f.inputPatterns xs) {op : String} {m' : Memory F} {g : Cell F → Cell F}
    (hg : ∀ c ∈ f.trace, c.Replaces (f.valueArray xs) (g c))
    (h : Run.Gives (f.loadValues op (f.segmentsAt f.full) xs) m () m') :
    Run.Gives (f.loadValues op ((f.segmentsAt f.full).map (Segment.replace g)) xs) m () m' := by
  have hsound := hf.full_sound fun _ => True
  obtain ⟨_, m₁, hload, hsweep⟩ := Run.gives_bind.1 h
  have hroom : f.full.size ≤ m.values.size := by
    rw [hm.values]
    exact hwork
  obtain ⟨-, rfl⟩ := hload.unique (gives_loadInputs hf hsound hroom hfit)
  refine Run.gives_bind.2 ⟨(), _, hload, ?_⟩
  refine Run.gives_forM_map (I := fun rest m' => ∃ j, rest = (f.segmentsAt f.full).drop j ∧
    m' = ((f.segmentsAt f.full).take j).foldl (fun m s => s.sweep 0 m) (f.loaded f.full xs [] m))
    (fun s rest m₁ m₂ hI hs => ?_) ⟨0, rfl, rfl⟩ hsweep
  obtain ⟨j, hdrop, rfl⟩ := hI
  obtain ⟨hj, hrest⟩ := getElem?_of_drop_eq_cons hdrop.symm
  rw [getElem?_segmentsAt] at hj
  obtain ⟨e, he, rfl⟩ := Option.map_eq_some_iff.1 hj
  refine ⟨Segment.gives_forward_replace (fun c hc r hr => ?_) (fun c hc => ?_)
    (fun c k hmem r hr => ?_) hs,
    j + 1, hrest.symm, (eq_sweep_of_gives hs).trans (foldl_sweep_take_succ he _).symm⟩
  · obtain ⟨k, hk, rfl⟩ := List.mem_map.1 hc
    exact lt_of_mem_slots hf he (List.mem_range.1 hk) hr
  · obtain ⟨k, hk, rfl⟩ := List.mem_map.1 hc
    exact (hg _ (List.mem_of_getElem? (getElem?_trace hf he (List.mem_range.1 hk)))).congr
      fun r hr => (getD_sweep_take hf hm hwork hfit he (List.mem_range.1 hk) hr).symm
  · rw [size_values_foldl_sweep]
    have hlt := slots_numbered_segmentAt hf hsound he hmem hr
    simp only [loaded, loadSeeds, size_writeLists]
    omega

end Sweep

/-- Segments without branches but steps. -/
def BranchFree (tape : List (Segment F)) : Prop := ∀ s ∈ tape, ∀ c ∈ s.cells, c.IsBranchFree

/-- The tape under the full layout, with the formulas of the sides in place of kinks. -/
def smoothTape [Zero F] (f : Tape F) (sides : List Side) : Except Failure (List (Segment F)) := do
  return takeSegments (← f.segments f.full) sides

theorem branchFree_replace_take
    [Zero F] (segments : List (Segment F)) (side : Cell F → Side) :
    BranchFree (segments.map (Segment.replace fun c => c.take (side c))) := by
  intro s hs c hc
  obtain ⟨s₀, -, rfl⟩ := List.mem_map.1 hs
  obtain ⟨c₀, -, rfl⟩ := List.mem_map.1 hc
  exact c₀.isBranchFree_take _

section Smooth

variable [Zero F] [One F] [Add F] [Sub F] [Neg F] [Mul F] [Div F] [Elementary F]
variable {f : Tape F} {xs : List (List F)} {ks : Kinks F} {m : Memory F}

/-- Outputs that a value sweep over other segments leaves in the full layout. -/
def callOn (f : Tape F) (tape : List (Segment F)) (inputs : List (List F)) :
    Except Failure (List (List F)) := do
  let op := "nonsmooth"
  orReject (f.checkInputValues op inputs)
  let sweep : Run F (Memory F) := do
    f.loadValues op tape inputs
    get
  let m ← sweep.alone f.valueMemory
  f.readOutputs f.full m.values

theorem Recorded.smoothTape_eq
    (hf : f.WellFormed) (h : f.Recorded xs ks m) :
    f.smoothTape ks.signature = .ok ((f.segmentsAt f.full).map
      (Segment.replace fun c => c.take (c.taken (f.valueArray xs)).2)) := by
  rw [smoothTape, segments_full hf, ok_bind, h.signature_eq, trace,
    takeSegments_eq fun c => (c.taken (f.valueArray xs)).2]
  rfl

/-- A sweep that leaves the memory of a recording leaves the outputs of a call. -/
theorem Recorded.callOn_eq
    (hf : f.WellFormed) (h : f.Recorded xs ks m) {tape : List (Segment F)}
    (hsweep : Run.Gives (f.loadValues "nonsmooth" tape xs) f.valueMemory () m) :
    f.callOn tape xs = f.call xs := by
  have hcheck : f.checkInputValues "nonsmooth" xs = .ok () := checkLists_eq_ok_iff.2 h.fit
  have halone : (do
      f.loadValues "nonsmooth" tape xs
      get : Run F (Memory F)).alone f.valueMemory = .ok m :=
    Run.alone_eq_ok_iff.2 ⟨m, Run.gives_bind.2 ⟨(), m, hsweep, Run.gives_get.2 ⟨rfl, rfl⟩⟩⟩
  have hread := readOutputs_eq hf (hf.full_sound (· ∈ f.outputs))
    (fun p _ _ e he k hk => h.values _ (full_slot_lt hf he hk)) (Nat.le_of_eq h.size)
  unfold callOn
  simp only [hcheck, orReject, Except.mapError, ok_bind, halone, hread, h.call_eq hf]

variable [Elementary.Signed F]

/-- Without its branches, a tape computes the outputs of a call. -/
theorem Recorded.callOn_smooth
    (hf : f.WellFormed) (h : f.Recorded xs ks m) :
    f.callOn ((f.segmentsAt f.full).map
      (Segment.replace fun c => c.take (c.taken (f.valueArray xs)).2)) xs = f.call xs :=
  h.callOn_eq hf (gives_loadValues_replace hf (Memory.wellSized_new _) (Nat.le_refl _) h.fit
    (fun c _ => c.replaces_take _) h.swept)

/--
Where a recording is accepted, it has an entry for every nonzero of every operation with a kink,
in tape order and whatever the inputs are; and the tape that follows its sides has no branches
but steps and computes the outputs of a call.
-/
theorem branches_meaning
    [ElementText F] {g : Graph F} {inputs outputs : List NodeId} {config : Config}
    (hbare : g.BareLeaves) (hcompile : compile g inputs outputs config = .ok f)
    (hks : f.kinks xs = .ok ks) :
    ks.list.map (fun kink => (kink.node, kink.nonzero, kink.op)) = f.kinkSites ∧
      ∃ tape ys, f.smoothTape ks.signature = .ok tape ∧ BranchFree tape ∧
        f.callOn tape xs = .ok ys ∧ f.call xs = .ok ys := by
  obtain ⟨_, h⟩ := compiled_of_compile hbare hcompile
  have hf := h.wellFormed
  obtain ⟨_, hrec⟩ := exists_recorded hf hks
  have htape := hrec.smoothTape_eq hf
  have hfree := branchFree_replace_take (f.segmentsAt f.full) fun c => (c.taken (f.valueArray xs)).2
  have hcall := hrec.call_eq hf
  have hsmooth := (hrec.callOn_smooth hf).trans hcall
  exact ⟨hrec.sites_eq, _, _, htape, hfree, hsmooth, hcall⟩

end Smooth

end Tape

/-- Fractions with their absolute values and roundings. -/
def Fraction : Type := ℚ
  deriving Field, LinearOrder, DecidableEq

instance : IsStrictOrderedRing Fraction := inferInstanceAs (IsStrictOrderedRing ℚ)

instance : FloorRing Fraction := inferInstanceAs (FloorRing ℚ)

instance : ElementText Fraction := inferInstanceAs (ElementText ℚ)

instance : Elementary Fraction where
  __ := Elementary.ofComparisons (fun x y => decide (x < y)) fun x y => decide (x ≤ y)
  abs x := |x|
  floor x := ⌊x⌋
  ceil x := ⌈x⌉
  round x := if 0 ≤ x then ⌊x + 1 / (1 + 1)⌋ else ⌈x - 1 / (1 + 1)⌉

instance : Elementary.Signed Fraction :=
  Elementary.signed_of_order (fun _ => rfl) fun x y => by simp [Elementary.le]

namespace Tape

/-- The graph of `min(|x|, c)` where `|c| < 3`, and of the signs of `x`. -/
def clippingGraph : Graph Fraction :=
  ⟨#[⟨.symbolic "x", [], ⟨1, #[[0], [0]]⟩⟩,
    ⟨.symbolic "c", [], ⟨1, #[[0]]⟩⟩,
    ⟨.unary .abs, [0], ⟨1, #[[0], [0]]⟩⟩,
    ⟨.matrixScalar .min, [2, 1], ⟨1, #[[0], [0]]⟩⟩,
    ⟨.ifElse 3, [1, 3], ⟨1, #[[0], [0]]⟩⟩,
    ⟨.unary .sign, [0], ⟨1, #[[0], [0]]⟩⟩]⟩

theorem bareLeaves_clippingGraph :
    clippingGraph.BareLeaves := by
  simp [Graph.BareLeaves, clippingGraph, NodeKind.isSymbolic]

/-- Its tape. -/
def clipping : Tape Fraction :=
  ⟨clippingGraph,
    #[⟨0, .input 0 [], 2⟩, ⟨1, .input 1 [], 1⟩, ⟨2, .unary .abs ⟨0, .same⟩, 2⟩,
      ⟨3, .binary .min ⟨2, .same⟩ ⟨1, .scalar⟩, 2⟩, ⟨4, .ifElse 3 ⟨1, .scalar⟩ 3, 2⟩,
      ⟨5, .unary .sign ⟨0, .same⟩, 2⟩],
    [4, 5], [⟨1, #[[0], [0]]⟩, ⟨1, #[[0]]⟩], [⟨1, #[[0], [0]]⟩, ⟨1, #[[0], [0]]⟩],
    ⟨#[0, 2, 3, 5, 7, 9], 11⟩, ⟨#[0, 2, 3, 5, 3, 5], 7⟩, {}⟩

theorem compile_clipping :
    compile clippingGraph [0, 1] [4, 5] {} = .ok clipping := by
  cbv

theorem branches_meaning_clipping :
    ∃ ks tape, clipping.kinks [[-1 / 2, 3], [2]] = .ok ks ∧
      ks.signature = [.lower, .upper, .upper, .lower, .upper, .upper, .lower, .upper] ∧
      ks.list.map (fun kink => (kink.node, kink.nonzero, kink.op)) =
        [(2, 0, .unary .abs), (2, 1, .unary .abs), (3, 0, .binary .min), (3, 1, .binary .min),
          (4, 0, .ifElse), (4, 1, .ifElse), (5, 0, .unary .sign), (5, 1, .unary .sign)] ∧
      clipping.smoothTape ks.signature = .ok tape ∧ BranchFree tape ∧
      clipping.callOn tape [[-1 / 2, 3], [2]] = .ok [[1 / 2, 2], [-1, 1]] := by
  obtain ⟨ks, hks⟩ := exists_eq_ok_of_isOk (x := clipping.kinks [[-1 / 2, 3], [2]])
    (by decide +kernel)
  have hsignature : (clipping.kinks [[-1 / 2, 3], [2]]).map Kinks.signature =
      .ok [.lower, .upper, .upper, .lower, .upper, .upper, .lower, .upper] := by decide +kernel
  rw [hks] at hsignature
  obtain ⟨hsites, tape, ys, htape, hfree, hon, hcall⟩ :=
    branches_meaning bareLeaves_clippingGraph compile_clipping hks
  have houtputs : clipping.call [[-1 / 2, 3], [2]] = .ok [[1 / 2, 2], [-1, 1]] := by
    decide +kernel
  exact ⟨ks, tape, hks, Except.ok.inj hsignature, hsites.trans (by decide +kernel), htape, hfree,
    hon.trans (hcall.symm.trans houtputs)⟩

end Tape

end SparseDiff
