import SparseDiff.Proofs.Layout
import SparseDiff.Proofs.WellFormed
import SparseDiff.Sweep.Forward

/-!
# Cells of a well-formed tape

Under a layout that knows every element a well-formed tape has segments, and they can be
written down: `Instr.cellAt` gives the cell of a nonzero from the slots of its operands,
and `Tape.segments_eq` says that this is what the tape is read as. Two layouts therefore
differ in the slots of the cells only, and cells that find the same values compute the same
(`value_cellAt_congr`, `tangent_cellAt_congr`).
-/

namespace SparseDiff

variable {F : Type}

/-- Slot of the operand nonzero for result nonzero `k`, where `slot` places nonzeros. -/
def Operand.slotAt (slot : Nat → Nat → Nat) (k : Nat) (a : Operand) : Option Nat :=
  (a.access.index? k).map (slot a.position)

/-- Cell for result nonzero `k`, where `slot` places nonzeros. -/
def Instr.cellAt [Zero F] (slot : Nat → Nat → Nat) (k : Nat) : Instr F → Cell F
  | input number _ => .input number k
  | constant values => .constant (values.getD k 0)
  | unary op a => .unary op (a.slotAt slot k)
  | binary op a b => .binary op (a.slotAt slot k) (b.slotAt slot k)
  | ifElse tol cond branch => .select tol (cond.slotAt slot 0) (slot branch k)
  | gather _ _ moves => .copy (slot (moves.getD k (0, 0)).1 (moves.getD k (0, 0)).2)

@[simp] theorem isInput_cellAt
    [Zero F] (slot : Nat → Nat → Nat) (k : Nat) (instr : Instr F) :
    (instr.cellAt slot k).isInput = instr.isInput := by
  cases instr <;> rfl

/-- A move of a fitting gather names a nonzero of an element that the gather reads. -/
theorem mem_parts_of_moves
    {elements : Array (Element F)} {parts : List Nat} {moves : Array (Nat × Nat)}
    (hget : ∀ k q j : Nat, moves[k]? = some (q, j) →
      q ∈ parts ∧ ∃ e, elements[q]? = some e ∧ j < e.nnz)
    {k : Nat} (hk : k < moves.size) :
    (moves.getD k (0, 0)).1 ∈ parts ∧ ∃ e, elements[(moves.getD k (0, 0)).1]? = some e ∧
      (moves.getD k (0, 0)).2 < e.nnz := by
  refine hget k _ _ ?_
  simp [hk]

namespace Layout

@[simp] theorem slot_zero_add
    (l : Layout) (p k : Nat) :
    l.slot p 0 + k = l.slot p k := by
  simp [slot]

/-- A layout knows where an element starts. -/
theorem offset_eq
    {l : Layout} {p : Nat} (h : p < l.offsets.size) :
    l.offset p = .ok (l.slot p 0) := by
  simp [offset, slot, h]

end Layout

namespace Tape

/-- A fitting operand has its slot under any layout of the tape. -/
theorem operandSlot_eq
    {elements : Array (Element F)} {l : Layout} (hsize : l.offsets.size = elements.size)
    {p n : Nat} {a : Operand} (ha : a.Fits elements p n) {k : Nat} (hk : k < n) :
    operandSlot l k a = .ok (a.slotAt l.slot k) := by
  obtain ⟨-, e, he, hfits⟩ := ha
  have hlt := (Array.getElem?_eq_some_iff.1 he).1
  have hmap : (fun j => l.slot a.position 0 + j) = l.slot a.position := by
    funext j
    simp
  rw [operandSlot, Layout.offset_eq (by omega)]
  simp only [bind, Except.bind, hfits.slot k hk, Operand.slotAt, hmap]

variable [Zero F]

/-- A fitting instruction has its cells under any layout of the tape. -/
theorem cell_eq
    {elements : Array (Element F)} {l : Layout} (hsize : l.offsets.size = elements.size)
    {p n : Nat} {instr : Instr F} (h : instr.Fits elements p n) {k : Nat} (hk : k < n) :
    cell l k instr = .ok (instr.cellAt l.slot k) := by
  cases h with
  | input => rfl
  | constant hvalues => simp [cell, Instr.cellAt, hvalues, hk]
  | unary ha =>
      rw [cell, operandSlot_eq hsize ha hk]
      rfl
  | binary ha hb =>
      rw [cell, operandSlot_eq hsize ha hk, operandSlot_eq hsize hb hk]
      rfl
  | ifElse hcond hbefore hbranch =>
      obtain ⟨e, he, -⟩ := hbranch
      have hlt := (Array.getElem?_eq_some_iff.1 he).1
      rw [cell, operandSlot_eq hsize hcond (Nat.zero_lt_one), Layout.offset_eq (by omega)]
      simp [bind, Except.bind, pure, Except.pure, Instr.cellAt]
  | @gather kind parts moves hparts hmoves hget =>
      have hk' : k < moves.size := by omega
      obtain ⟨-, e, he, -⟩ := mem_parts_of_moves hget hk'
      have hlt := (Array.getElem?_eq_some_iff.1 he).1
      have hmove : moves[k]? = some (moves.getD k (0, 0)) := by simp [hk']
      rw [cell, hmove, Instr.cellAt]
      generalize moves.getD k (0, 0) = move at hlt
      simp [Layout.offset_eq (l := l) (p := move.1) (by omega), bind, Except.bind, pure,
        Except.pure]

/-- Segment of the element at `p`. -/
def segmentAt (l : Layout) (e : Element F) (p : Nat) : Segment F :=
  ⟨e.node, l.slot p 0, (List.range e.nnz).map fun k => e.instr.cellAt l.slot k⟩

/-- The segments of a tape under a layout. -/
def segmentsAt (f : Tape F) (l : Layout) : List (Segment F) :=
  f.elements.toList.zipIdx.map fun (e, p) => segmentAt l e p

@[simp] theorem length_segmentsAt
    (f : Tape F) (l : Layout) :
    (f.segmentsAt l).length = f.elements.size := by
  simp [segmentsAt]

theorem getElem?_segmentsAt
    (f : Tape F) (l : Layout) (p : Nat) :
    (f.segmentsAt l)[p]? = f.elements[p]?.map fun e => segmentAt l e p := by
  simp [segmentsAt, List.getElem?_map, Function.comp_def]

theorem getElem_segmentsAt
    (f : Tape F) (l : Layout) {p : Nat} (hp : p < f.elements.size)
    (hp' : p < (f.segmentsAt l).length) :
    (f.segmentsAt l)[p] = segmentAt l f.elements[p] p := by
  simp [segmentsAt]

/-- What a well-formed tape is read as, under a layout that knows every element. -/
theorem segments_eq
    {f : Tape F} (hf : f.WellFormed) {l : Layout} (hsize : l.offsets.size = f.elements.size) :
    f.segments l = .ok (f.segmentsAt l) := by
  refine mapM_eq_ok_map fun (e, p) hmem => ?_
  have he : f.elements[p]? = some e := by
    simpa using List.mem_zipIdx_iff_getElem?.1 hmem
  have hlt := (Array.getElem?_eq_some_iff.1 he).1
  have hcells : (List.range e.nnz).mapM (fun k => cell l k e.instr) =
      .ok ((List.range e.nnz).map fun k => e.instr.cellAt l.slot k) :=
    mapM_eq_ok_map fun k hk => cell_eq hsize (hf.fits p e he) (List.mem_range.1 hk)
  simp only [segment, Layout.offset_eq (l := l) (p := p) (by omega), bind, Except.bind, hcells]
  rfl

end Tape

section Reads

variable [Zero F] {elements : Array (Element F)} {p n : Nat}

/-- A fitting instruction reads nonzeros of the elements that it names. -/
theorem mem_slots_cellAt
    {instr : Instr F} (h : instr.Fits elements p n) {k : Nat} (hk : k < n)
    {slot : Nat → Nat → Nat} {r : Nat} (hr : r ∈ (instr.cellAt slot k).slots) :
    ∃ q j e, q ∈ instr.reads ∧ elements[q]? = some e ∧ j < e.nnz ∧ r = slot q j := by
  have hoperand : ∀ {a : Operand} {m i : Nat}, a.Fits elements p m → i < m →
      r ∈ (a.slotAt slot i).toList →
      ∃ j e, elements[a.position]? = some e ∧ j < e.nnz ∧ r = slot a.position j := by
    intro a m i ha hi hr
    obtain ⟨-, e, he, hfits⟩ := ha
    have hr' : a.slotAt slot i = some r := by simpa using hr
    obtain ⟨j, hj, rfl⟩ := Option.map_eq_some_iff.1 hr'
    exact ⟨j, e, he, hfits.index i hi j hj, rfl⟩
  cases h with
  | input => simp [Instr.cellAt, Cell.slots] at hr
  | constant hvalues => simp [Instr.cellAt, Cell.slots] at hr
  | unary ha =>
      obtain ⟨j, e, he, hj, hrj⟩ := hoperand ha hk hr
      exact ⟨_, j, e, by simp [Instr.reads], he, hj, hrj⟩
  | binary ha hb =>
      rcases List.mem_append.1 hr with hr | hr
      · obtain ⟨j, e, he, hj, hrj⟩ := hoperand ha hk hr
        exact ⟨_, j, e, by simp [Instr.reads], he, hj, hrj⟩
      · obtain ⟨j, e, he, hj, hrj⟩ := hoperand hb hk hr
        exact ⟨_, j, e, by simp [Instr.reads], he, hj, hrj⟩
  | @ifElse tol cond branch hcond hbefore hbranch =>
      rcases List.mem_append.1 hr with hr | hr
      · obtain ⟨j, e, he, hj, hrj⟩ := hoperand hcond Nat.zero_lt_one hr
        exact ⟨_, j, e, by simp [Instr.reads], he, hj, hrj⟩
      · obtain ⟨e, he, hle⟩ := hbranch
        exact ⟨branch, k, e, by simp [Instr.reads], he, by omega, List.mem_singleton.1 hr⟩
  | @gather kind parts moves hparts hmoves hget =>
      obtain ⟨hmem, e, he, hj⟩ := mem_parts_of_moves hget (k := k) (by omega)
      exact ⟨_, _, e, hmem, he, hj, List.mem_singleton.1 hr⟩

end Reads

section Congruence

variable [Zero F]

/-- Two arrays under two placements hold the same at every nonzero that `reads` names. -/
def Agree (elements : Array (Element F)) (reads : List Nat) (slot slot' : Nat → Nat → Nat)
    (w w' : Array F) : Prop :=
  ∀ q ∈ reads, ∀ e, elements[q]? = some e → ∀ j < e.nnz,
    w.getD (slot q j) 0 = w'.getD (slot' q j) 0

variable {elements : Array (Element F)} {p n : Nat} {slot slot' : Nat → Nat → Nat}

theorem readSlot_slotAt_congr
    {reads : List Nat} {w w' : Array F} (hw : Agree elements reads slot slot' w w')
    {a : Operand} (ha : a.Fits elements p n) (hmem : a.position ∈ reads)
    {k : Nat} (hk : k < n) :
    readSlot w (a.slotAt slot k) = readSlot w' (a.slotAt slot' k) := by
  obtain ⟨-, e, he, hfits⟩ := ha
  unfold Operand.slotAt
  cases hj : a.access.index? k with
  | none => rfl
  | some j => exact hw _ hmem e he j (hfits.index k hk j hj)

variable [Calculus F]

/-- Cells that find the same values have the same value. -/
theorem value_cellAt_congr
    {instr : Instr F} (h : instr.Fits elements p n) {k : Nat} (hk : k < n) {w w' : Array F}
    (hw : Agree elements instr.reads slot slot' w w') :
    (instr.cellAt slot k).value w = (instr.cellAt slot' k).value w' := by
  cases h with
  | input => rfl
  | constant hvalues => rfl
  | unary ha =>
      have hx := readSlot_slotAt_congr hw ha (by simp [Instr.reads]) hk
      simp only [Instr.cellAt, Cell.value, hx]
  | binary ha hb =>
      have hx := readSlot_slotAt_congr hw ha (by simp [Instr.reads]) hk
      have hy := readSlot_slotAt_congr hw hb (by simp [Instr.reads]) hk
      simp only [Instr.cellAt, Cell.value, hx, hy]
  | ifElse hcond hbefore hbranch =>
      have hc := readSlot_slotAt_congr hw hcond (by simp [Instr.reads]) Nat.zero_lt_one
      obtain ⟨e, he, hle⟩ := hbranch
      have hs := hw _ (by simp [Instr.reads]) e he k (by omega)
      simp only [Instr.cellAt, Cell.value, hc, hs]
  | @gather kind parts moves hparts hmoves hget =>
      obtain ⟨hmem, e, he, hj⟩ := mem_parts_of_moves hget (k := k) (by omega)
      exact hw _ hmem e he _ hj

variable [Mul F]

theorem along_slotAt_congr
    {reads : List Nat} {t t' : Array F} (ht : Agree elements reads slot slot' t t')
    {a : Operand} (ha : a.Fits elements p n) (hmem : a.position ∈ reads)
    {k : Nat} (hk : k < n) (d : F) :
    Cell.along d t (a.slotAt slot k) = Cell.along d t' (a.slotAt slot' k) := by
  obtain ⟨-, e, he, hfits⟩ := ha
  unfold Operand.slotAt
  cases hj : a.access.index? k with
  | none => rfl
  | some j =>
      have heq := ht _ hmem e he j (hfits.index k hk j hj)
      simp only [Option.map_some, Cell.along, heq]

variable [Add F]

/-- Cells that find the same values and tangents have the same tangent. -/
theorem tangent_cellAt_congr
    {instr : Instr F} (h : instr.Fits elements p n) {k : Nat} (hk : k < n) {w w' t t' : Array F}
    (hw : Agree elements instr.reads slot slot' w w')
    (ht : Agree elements instr.reads slot slot' t t') (r : F) :
    (instr.cellAt slot k).tangent w r t = (instr.cellAt slot' k).tangent w' r t' := by
  cases h with
  | input => rfl
  | constant hvalues => rfl
  | unary ha =>
      have hx := readSlot_slotAt_congr hw ha (by simp [Instr.reads]) hk
      have hdx := along_slotAt_congr ht ha (by simp [Instr.reads]) hk
      simp only [Instr.cellAt, Cell.tangent, hx, hdx]
  | binary ha hb =>
      have hx := readSlot_slotAt_congr hw ha (by simp [Instr.reads]) hk
      have hy := readSlot_slotAt_congr hw hb (by simp [Instr.reads]) hk
      have hdx := along_slotAt_congr ht ha (by simp [Instr.reads]) hk
      have hdy := along_slotAt_congr ht hb (by simp [Instr.reads]) hk
      simp only [Instr.cellAt, Cell.tangent, hx, hy, hdx, hdy]
  | ifElse hcond hbefore hbranch =>
      have hc := readSlot_slotAt_congr hw hcond (by simp [Instr.reads]) Nat.zero_lt_one
      obtain ⟨e, he, hle⟩ := hbranch
      have hs := ht _ (by simp [Instr.reads]) e he k (by omega)
      simp only [Instr.cellAt, Cell.tangent, hc, hs]
  | @gather kind parts moves hparts hmoves hget =>
      obtain ⟨hmem, e, he, hj⟩ := mem_parts_of_moves hget (k := k) (by omega)
      exact ht _ hmem e he _ hj

end Congruence

end SparseDiff
