import SparseDiff.Proofs.Products
import SparseDiff.Proofs.Structure.Jacobian
import SparseDiff.Structure.Hessian

/-!
# Structural Hessians are sound

A slot that is not live has no adjoint (`Tape.curvature_eq_zero`), and a cell that marks no
interaction of two numbers has no second derivative along their tangents
(`Cell.quad_eq_zero`). So two nonzeros of an input that do not interact at any live cell have
second derivative zero; interactions are symmetric, as the coloring asks for
(`Tape.hessianPattern_spec`).
-/

namespace SparseDiff

section Live

variable {F : Type}

namespace Cell

/-- The dependencies of a live cell are live. -/
def spreadLive (c : Cell F) (slot : Nat) (live : Array Bool) : Array Bool :=
  if live.getD slot false then
    c.dependencies.foldl (fun live s => live.setIfInBounds s true) live
  else
    live

theorem size_foldl_set_true
    (slots : List Nat) (live : Array Bool) :
    (slots.foldl (fun live s => live.setIfInBounds s true) live).size = live.size := by
  induction slots generalizing live with
  | nil => rfl
  | cons s slots ih => rw [List.foldl_cons, ih, Array.size_setIfInBounds]

@[simp] theorem size_spreadLive
    (c : Cell F) (slot : Nat) (live : Array Bool) :
    (c.spreadLive slot live).size = live.size := by
  unfold spreadLive
  split
  · exact size_foldl_set_true c.dependencies live
  · rfl

theorem getD_spreadLive_iff
    {c : Cell F} {slot : Nat} {live : Array Bool} (hc : ∀ s ∈ c.dependencies, s < live.size)
    {p : Nat} :
    (c.spreadLive slot live).getD p false = true ↔
      live.getD p false = true ∨ live.getD slot false = true ∧ p ∈ c.dependencies := by
  have hfold : ∀ (slots : List Nat) (live : Array Bool), (∀ s ∈ slots, s < live.size) →
      ((slots.foldl (fun live s => live.setIfInBounds s true) live).getD p false = true ↔
        live.getD p false = true ∨ p ∈ slots) := by
    intro slots
    induction slots with
    | nil => simp
    | cons s slots ih =>
        intro live hslots
        have hs := hslots s (List.mem_cons_self ..)
        rw [List.foldl_cons, ih _ fun s' hs' => by
          rw [Array.size_setIfInBounds]
          exact hslots s' (List.mem_cons_of_mem _ hs')]
        by_cases hp : p = s
        · subst hp
          simp [Array.getD_eq_getD_getElem?, hs]
        · simp [Array.getD_eq_getD_getElem?, Array.getElem?_setIfInBounds_ne (Ne.symm hp), hp]
  unfold spreadLive
  split
  · next hlive => rw [hfold _ _ hc, and_iff_right hlive]
  · next hdead => simp [hdead]

end Cell

/-- Slots stay live. -/
theorem getD_foldl_spreadLive
    {visits : List (Nat × Cell F)} {live : Array Bool}
    (hvisits : ∀ v ∈ visits, ∀ r ∈ v.2.slots, r < live.size) {p : Nat}
    (hp : live.getD p false = true) :
    (visits.foldl (fun live v => v.2.spreadLive v.1 live) live).getD p false = true := by
  induction visits generalizing live with
  | nil => exact hp
  | cons v visits ih =>
      rw [List.foldl_cons]
      refine ih (fun v' hv' => ?_) ?_
      · rw [Cell.size_spreadLive]
        exact hvisits v' (List.mem_cons_of_mem _ hv')
      · refine (Cell.getD_spreadLive_iff fun s hs => ?_).2 (.inl hp)
        exact hvisits v (List.mem_cons_self ..) s (Cell.mem_slots_of_mem_dependencies hs)

end Live

variable {F : Type} [CommRing F] [Calculus F] [Calculus.Structural F]

/-- Only live cells contribute to the curvature. -/
theorem curvature_eq_zero
    {n : Nat} {w t t' : Array F} {visits : List (Nat × Cell F)}
    (hvisits : ∀ v ∈ visits, v.1 < n ∧ ∀ r ∈ v.2.slots, r < n) :
    ∀ {live : Array Bool} {lam : Nat → F}, live.size = n →
      (∀ s < n, live.getD s false = false → lam s = 0) →
      (∀ v ∈ visits,
        (visits.foldl (fun live v => v.2.spreadLive v.1 live) live).getD v.1 false = true →
        v.2.quad w (w.getD v.1 0) t t' = 0) →
      curvature w t t' visits lam = 0 := by
  induction visits with
  | nil => exact fun _ _ _ => rfl
  | cons v visits ih =>
      intro live lam hsize hlive hquad
      obtain ⟨hs, hslots⟩ := hvisits v (List.mem_cons_self ..)
      have hclosed : ∀ r ∈ v.2.dependencies, r < live.size := fun r hr => by
        rw [hsize]
        exact hslots r (Cell.mem_slots_of_mem_dependencies hr)
      have hhead : lam v.1 * v.2.quad w (w.getD v.1 0) t t' = 0 := by
        cases hnow : live.getD v.1 false with
        | false => rw [hlive v.1 hs hnow, zero_mul]
        | true =>
            rw [hquad v (List.mem_cons_self ..), mul_zero]
            exact getD_foldl_spreadLive (fun v' hv' r hr => by
              rw [hsize]
              exact (hvisits v' hv').2 r hr) hnow
      -- a slot that is still not live gets no adjoint from a live cell
      have hpull : ∀ p < n, (v.2.spreadLive v.1 live).getD p false = false →
          v.2.pull w lam v.1 p = 0 := by
        intro p hp hdead
        have hnot := Bool.eq_false_iff.1 hdead
        rw [ne_eq, Cell.getD_spreadLive_iff hclosed, not_or, not_and, Bool.not_eq_true] at hnot
        have hzero := hlive p hp hnot.1
        cases hinput : v.2.isInput with
        | true => rw [Cell.pull_input hinput, hzero]
        | false =>
            rw [Cell.pull_of_not_input hinput, hzero, ite_self, zero_add]
            cases hnow : live.getD v.1 false with
            | false => rw [hlive v.1 hs hnow, zero_mul]
            | true =>
                rw [Cell.partialAt_eq_zero_of_not_mem_dependencies (hnot.2 hnow), mul_zero]
      rw [curvature, hhead, zero_add]
      exact ih (fun v' hv' => hvisits v' (List.mem_cons_of_mem _ hv'))
        (by rw [Cell.size_spreadLive, hsize]) hpull
        fun v' hv' => hquad v' (List.mem_cons_of_mem _ hv')

section Marks

variable {F : Type} {n : Nat}

@[simp] theorem size_markPairs
    (a b : BitVec n) (rows : Array (BitVec n)) :
    (markPairs a b rows).size = rows.size :=
  size_foldl_modify (members a) b rows

theorem bitAt_markPairs_iff
    {a b : BitVec n} {rows : Array (BitVec n)} (hsize : rows.size = n) {i j : Nat} :
    bitAt (markPairs a b rows) i j = true ↔
      bitAt rows i j = true ∨ a.getLsbD i = true ∧ b.getLsbD j = true := by
  have hinside : ∀ s ∈ members a, s < rows.size := fun s hs => by
    rw [hsize]
    exact BitVec.lt_of_getLsbD (mem_members_iff.1 hs)
  rw [markPairs, bitAt_foldl_modify_iff hinside, mem_members_iff]

namespace Cell

/-- The cell combines an operand that depends on `i` with one that depends on `j`. -/
def Interacts (bits : Array (BitVec n)) (i j : Nat) : Cell F → Prop
  | unary op a =>
      (op.isNonlinear && !op.hasZeroDerivative) = true ∧
        (operandBits bits a).getLsbD i = true ∧ (operandBits bits a).getLsbD j = true
  | binary op a b =>
      (op.secondOrder.aa = true ∧
        (operandBits bits a).getLsbD i = true ∧ (operandBits bits a).getLsbD j = true) ∨
      (op.secondOrder.bb = true ∧
        (operandBits bits b).getLsbD i = true ∧ (operandBits bits b).getLsbD j = true) ∨
      (op.secondOrder.ab = true ∧
        ((operandBits bits a).getLsbD i = true ∧ (operandBits bits b).getLsbD j = true ∨
          (operandBits bits b).getLsbD i = true ∧ (operandBits bits a).getLsbD j = true))
  | _ => False

theorem interacts_comm
    {c : Cell F} {bits : Array (BitVec n)} {i j : Nat} :
    c.Interacts bits i j ↔ c.Interacts bits j i := by
  cases c with
  | unary op a =>
      simp only [Interacts]
      tauto
  | binary op a b =>
      simp only [Interacts]
      tauto
  | _ => exact Iff.rfl

@[simp] theorem size_markInteractions
    (c : Cell F) (bits rows : Array (BitVec n)) :
    (c.markInteractions bits rows).size = rows.size := by
  cases c with
  | unary op a =>
      simp only [markInteractions]
      split <;> simp
  | binary op a b =>
      simp only [markInteractions]
      split <;> split <;> split <;> simp
  | _ => rfl

/-- A cell marks its interactions and keeps the marks that are there. -/
theorem bitAt_markInteractions_iff
    {c : Cell F} {bits rows : Array (BitVec n)} (hsize : rows.size = n) {i j : Nat} :
    bitAt (c.markInteractions bits rows) i j = true ↔
      bitAt rows i j = true ∨ c.Interacts bits i j := by
  have hpairs : ∀ (flag : Bool) (a b : BitVec n) {rows : Array (BitVec n)}, rows.size = n →
      (bitAt (if flag then markPairs a b rows else rows) i j = true ↔
        bitAt rows i j = true ∨ flag = true ∧ a.getLsbD i = true ∧ b.getLsbD j = true) := by
    intro flag a b rows hsize
    cases flag with
    | false => simp
    | true => simp [bitAt_markPairs_iff hsize]
  have hkept : ∀ (flag : Bool) (a b : BitVec n) {rows : Array (BitVec n)}, rows.size = n →
      (if flag then markPairs a b rows else rows).size = n := by
    intro flag a b rows hsize
    split <;> simp [hsize]
  cases c with
  | unary op a => exact hpairs _ _ _ hsize
  | binary op a b =>
      have haa := hkept op.secondOrder.aa (operandBits bits a) (operandBits bits a) hsize
      have hbb := hkept op.secondOrder.bb (operandBits bits b) (operandBits bits b) haa
      simp only [markInteractions, Interacts]
      cases hab : op.secondOrder.ab with
      | false =>
          rw [if_neg Bool.false_ne_true, hpairs _ _ _ haa, hpairs _ _ _ hsize]
          simp [or_assoc]
      | true =>
          rw [if_pos rfl, bitAt_markPairs_iff (by rw [size_markPairs, hbb]),
            bitAt_markPairs_iff hbb, hpairs _ _ _ haa, hpairs _ _ _ hsize]
          simp [or_assoc]
  | _ => simp [markInteractions, Interacts]

/-- An operand whose set leaves a number out has no tangent for it. -/
theorem readSlot_eq_zero
    [Zero F] {bits : Array (BitVec n)} {T : Nat → Array F} {a : Option Nat}
    (hcovers : ∀ s ∈ a.toList, CoversAt bits (fun j s => (T j).getD s 0) s) {j : Nat} (hj : j < n)
    (hbit : ¬ (operandBits bits a).getLsbD j = true) :
    readSlot (T j) a = 0 := by
  cases a with
  | none => rfl
  | some s => exact hcovers s (by simp) j hj (Bool.not_eq_true _ ▸ hbit)

/-- A term of a second derivative vanishes where its flag or one of its tangents does. -/
theorem term_eq_zero
    [CommRing F] {bits : Array (BitVec n)} {T : Nat → Array F} {a b : Option Nat}
    (ha : ∀ s ∈ a.toList, CoversAt bits (fun j s => (T j).getD s 0) s)
    (hb : ∀ s ∈ b.toList, CoversAt bits (fun j s => (T j).getD s 0) s) {i j : Nat} (hi : i < n)
    (hj : j < n) {flag : Bool} {x : F} (hflag : flag = false → x = 0)
    (hnot : ¬ (flag = true ∧ (operandBits bits a).getLsbD i = true ∧
      (operandBits bits b).getLsbD j = true)) :
    x * readSlot (T i) a * readSlot (T j) b = 0 := by
  rw [not_and_or, not_and_or] at hnot
  rcases hnot with hoff | hbit | hbit
  · rw [hflag (Bool.eq_false_iff.2 hoff), zero_mul, zero_mul]
  · rw [readSlot_eq_zero ha hi hbit, mul_zero, zero_mul]
  · rw [readSlot_eq_zero hb hj hbit, mul_zero]

end Cell

end Marks

namespace Cell

variable {n : Nat}

/-- Numbers that do not interact at a cell have no second derivative there. -/
theorem quad_eq_zero
    {c : Cell F} {bits : Array (BitVec n)} {T : Nat → Array F}
    (hcovers : ∀ s ∈ c.slots, CoversAt bits (fun j s => (T j).getD s 0) s) {i j : Nat}
    (hi : i < n) (hj : j < n) (hnot : ¬ c.Interacts bits i j) (w : Array F) (r : F) :
    c.quad w r (T i) (T j) = 0 := by
  cases c with
  | unary op a =>
      exact term_eq_zero hcovers hcovers hi hj (Calculus.Structural.unarySecond op _ r) hnot
  | binary op a b =>
      have ha := fun s hs => hcovers s (List.mem_append_left _ hs)
      have hb := fun s hs => hcovers s (List.mem_append_right _ hs)
      simp only [Interacts, not_or] at hnot
      obtain ⟨haa, hbb, hab⟩ := hnot
      have hmixed := Calculus.Structural.second_ab op (readSlot w a) (readSlot w b) r
      have hba := term_eq_zero hb ha hi hj hmixed fun h => hab ⟨h.1, .inr h.2⟩
      have hab := term_eq_zero ha hb hi hj hmixed fun h => hab ⟨h.1, .inl h.2⟩
      have haa := term_eq_zero ha ha hi hj
        (Calculus.Structural.second_aa op (readSlot w a) (readSlot w b) r) haa
      have hbb := term_eq_zero hb hb hi hj
        (Calculus.Structural.second_bb op (readSlot w a) (readSlot w b) r) hbb
      simp only [quad, add_mul, haa, hba, hab, hbb, add_zero]
  | _ => rfl

end Cell

section Patterns

variable {n : Nat} {rows : Array (BitVec n)}

theorem mem_row_map_members_iff
    {r c : Nat} :
    c ∈ (⟨n, rows.map members⟩ : Pattern).row r ↔ bitAt rows r c = true := by
  rw [bitAt, ← mem_members_iff]
  rcases Nat.lt_or_ge r rows.size with hr | hr
  · simp [Pattern.row, Array.getD_eq_getD_getElem?, hr]
  · simp [Pattern.row, Array.getD_eq_getD_getElem?, hr, members]

theorem wellFormed_map_members
    (rows : Array (BitVec n)) :
    (⟨n, rows.map members⟩ : Pattern).WellFormed := by
  have hrow : ∀ cols ∈ (rows.map members).toList, ∃ set ∈ rows.toList, members set = cols := by
    intro cols hcols
    rw [Array.toList_map] at hcols
    exact List.mem_map.1 hcols
  constructor
  · intro cols hcols
    obtain ⟨set, -, rfl⟩ := hrow cols hcols
    exact pairwise_members set
  · intro cols hcols c hc
    obtain ⟨set, -, rfl⟩ := hrow cols hcols
    exact BitVec.lt_of_getLsbD (mem_members_iff.1 hc)

end Patterns

namespace Interactions

variable {F : Type} {n : Nat} {live : Array Bool} {state : Interactions n}

theorem size_rows_step
    (live : Array Bool) (state : Interactions n) (c : Cell F) (slot : Nat) :
    (state.step live c slot).rows.size = state.rows.size := by
  unfold step
  split
  · rfl
  · simp only
    split <;> simp

/-- A live cell marks its interactions. -/
theorem bitAt_rows_step_iff
    {c : Cell F} {slot : Nat} (hsize : state.rows.size = n) {i j : Nat} :
    bitAt (state.step live c slot).rows i j = true ↔
      bitAt state.rows i j = true ∨
        c.isInput = false ∧ live.getD slot false = true ∧ c.Interacts state.bits i j := by
  unfold step
  split
  · next hinput => simp [hinput]
  · next hinput =>
      simp only
      split
      · next hlive =>
          rw [Cell.bitAt_markInteractions_iff hsize]
          simp [hinput, hlive]
      · next hdead => simp [hdead]

/-- The rows have their number and are symmetric. -/
structure Symmetric (state : Interactions n) : Prop where
  size : state.rows.size = n
  symm : ∀ i j, bitAt state.rows i j = true → bitAt state.rows j i = true

theorem Symmetric.foldl
    (h : state.Symmetric) (live : Array Bool) (visits : List (Nat × Cell F)) :
    (visits.foldl (fun state v => state.step live v.2 v.1) state).Symmetric := by
  refine List.foldlRecOn (motive := Symmetric) _ _ h fun state h v _ => ?_
  refine ⟨by rw [size_rows_step, h.size], fun i j hbit => ?_⟩
  rw [bitAt_rows_step_iff h.size] at hbit ⊢
  rcases hbit with hbit | ⟨hinput, hlive, hbit⟩
  · exact .inl (h.symm i j hbit)
  · exact .inr ⟨hinput, hlive, Cell.interacts_comm.1 hbit⟩

/-- A walk keeps the marks. -/
theorem bitAt_rows_foldl
    {visits : List (Nat × Cell F)} (hsize : state.rows.size = n) {i j : Nat}
    (h : bitAt state.rows i j = true) :
    bitAt (visits.foldl (fun state v => state.step live v.2 v.1) state).rows i j = true := by
  induction visits generalizing state with
  | nil => exact h
  | cons v visits ih =>
      rw [List.foldl_cons]
      exact ih (by rw [size_rows_step, hsize]) ((bitAt_rows_step_iff hsize).2 (.inl h))

/-- Before the walk nothing is marked, and only the nonzeros of the input are in sets, their own. -/
theorem start_spec
    {size first : Nat} (hroom : first + n ≤ size) :
    (start size first n).Symmetric ∧ (start size first n).bits.size = size ∧
      ∀ s c, bitAt (start size first n).bits s c = true ↔ c < n ∧ s = first + c := by
  have hnone : ∀ i j, bitAt (start size first n).rows i j = false := bitAt_replicate n
  have hfold : ∀ m ≤ n,
      ((List.range m).foldl
        (fun bits c => bits.setIfInBounds (first + c) (BitVec.twoPow n c))
        (Array.replicate size 0)).size = size ∧
      ∀ s c, bitAt ((List.range m).foldl
        (fun bits c => bits.setIfInBounds (first + c) (BitVec.twoPow n c))
        (Array.replicate size 0)) s c = true ↔ c < m ∧ s = first + c := by
    intro m
    induction m with
    | zero =>
        refine fun _ => ⟨by simp, fun s c => ?_⟩
        rw [List.range_zero, List.foldl_nil, bitAt_replicate]
        simp
    | succ m ih =>
        intro hm
        obtain ⟨hsize, hbits⟩ := ih (by omega)
        rw [List.range_succ, List.foldl_append, List.foldl_cons, List.foldl_nil]
        refine ⟨by rw [Array.size_setIfInBounds, hsize], fun s c => ?_⟩
        by_cases hs : s = first + m
        · subst hs
          rw [bitAt_setIfInBounds_self (by omega), BitVec.getLsbD_twoPow]
          simp only [Bool.and_eq_true, decide_eq_true_eq]
          omega
        · rw [bitAt_setIfInBounds_ne hs, hbits]
          omega
  obtain ⟨hsize, hbits⟩ := hfold n (Nat.le_refl n)
  refine ⟨⟨by simp [start], fun i j h => ?_⟩, hsize, hbits⟩
  rw [hnone] at h
  cases h

end Interactions

namespace Tape

section Walk

variable {F : Type} [Zero F] {f : Tape F}

/-- The interactions that the walks of a structural Hessian find. -/
def interactions (f : Tape F) (o i : Nat) : Interactions (f.inputLength i) :=
  f.ascent.foldl
    (fun state v =>
      state.step (liveSlots f.full.size (f.outputSlot o 0) (f.segmentsAt f.full)) v.2 v.1)
    (Interactions.start f.full.size (f.full.slot i 0) (f.inputLength i))

theorem symmetric_interactions
    (hf : f.WellFormed) (o : Nat) {i : Nat} (hi : i < f.nIn) :
    (f.interactions o i).Symmetric :=
  (Interactions.start_spec (inputSlot_add_length_le hf hi)).1.foldl _ _

theorem liveSlots_eq_foldl
    (f : Tape F) (size output : Nat) :
    liveSlots size output (f.segmentsAt f.full) =
      f.visits.foldl (fun live v => v.2.spreadLive v.1 live)
        ((Array.replicate size false).setIfInBounds output true) :=
  walkBackward_eq_foldl _ _

/-- The structural Hessian of a scalar output has the rows that the walks have marked. -/
theorem hessianPattern_eq
    (hf : f.WellFormed) {o i : Nat} {out : Pattern} (ho : f.outputPatterns[o]? = some out)
    (hscalar : out.isDenseScalar = true) (hi : i < f.nIn) :
    f.hessianPattern o i = .ok ⟨f.inputLength i, (f.interactions o i).rows.map members⟩ := by
  have hlt : o < f.nOut := (List.getElem?_eq_some_iff.1 ho).1
  obtain ⟨_, inp, hblock, hout, hlength, hinp⟩ := checkBlock_eq "hessian_sparsity" hlt hi
  rw [ho] at hout
  cases hout
  have hsegments := segments_full hf
  have hinput : f.inputSlots i = .ok (f.full.slot i 0, f.inputLength i) := inputRange_eq hf hi
  have houtput := outputRange_eq hf hlt
  unfold hessianPattern
  simp only [hblock, orReject, Except.mapError, checkScalarOutput, hscalar, if_true, hsegments,
    hinput, houtput, bind, Except.bind, walkForward_eq_foldl]
  generalize inp.nnz = n at hinp
  subst hinp
  rfl

/-- The structural Hessian of a scalar output exists and is symmetric; it holds the marks. -/
theorem hessianPattern_marks
    (hf : f.WellFormed) {o i : Nat} {out : Pattern} (ho : f.outputPatterns[o]? = some out)
    (hscalar : out.isDenseScalar = true) (hi : i < f.nIn) :
    ∃ p, f.hessianPattern o i = .ok p ∧ p.WellFormed ∧
      p.nrow = f.inputLength i ∧ p.ncol = f.inputLength i ∧
      (∀ r c, c ∈ p.row r → r ∈ p.row c) ∧
      ∀ r c, c ∈ p.row r ↔ bitAt (f.interactions o i).rows r c = true := by
  have hsymm := symmetric_interactions hf o hi
  refine ⟨_, hessianPattern_eq hf ho hscalar hi, wellFormed_map_members _, ?_, rfl,
    fun r c hc => ?_, fun r c => mem_row_map_members_iff⟩
  · exact (Array.size_map ..).trans hsymm.size
  · rw [mem_row_map_members_iff] at hc ⊢
    exact hsymm.symm r c hc

end Walk

variable {f : Tape F} [Calculus.Exact F] {n : Nat}

/-- Numbers that a walk leaves unmarked have no second derivative at a live cell. -/
theorem quad_eq_zero_of_foldl
    (hf : f.WellFormed) (xs : List (List F)) (i : Nat) (live : Array Bool) :
    ∀ {rest : List (Nat × Cell F)} {state : Interactions n},
      rest.Pairwise (fun a b => a.1 < b.1) → (∀ v ∈ rest, v ∈ f.visits) →
      state.rows.size = n →
      CoveredSo f.full.size (fun j s => (f.tangentArray xs (unitTangent i j)).getD s 0) rest
        state.bits →
      ∀ v ∈ rest, live.getD v.1 false = true → ∀ r < n, ∀ c < n,
        bitAt (rest.foldl (fun state v => state.step live v.2 v.1) state).rows r c = false →
        v.2.quad (f.valueArray xs) ((f.valueArray xs).getD v.1 0)
          (f.tangentArray xs (unitTangent i r)) (f.tangentArray xs (unitTangent i c)) = 0 := by
  intro rest
  induction rest with
  | nil => exact fun _ _ _ _ v hv => absurd hv List.not_mem_nil
  | cons head rest ih =>
      intro state hsorted hmem hsize hcovered v hv hlive r hr c hc hbit
      obtain ⟨hhead, htail⟩ := List.pairwise_cons.1 hsorted
      have hvisited := hmem head (List.mem_cons_self ..)
      rw [List.foldl_cons] at hbit
      rcases List.mem_cons.1 hv with rfl | hv
      · obtain ⟨hlt, hslots⟩ := lt_of_mem_visits hf hvisited
        cases hinput : v.2.isInput with
        | true => exact Cell.quad_input hinput ..
        | false =>
            refine Cell.quad_eq_zero (T := fun j => f.tangentArray xs (unitTangent i j))
              (fun s hs => hcovered.of_lt hlt hhead (hslots s hs)) hr hc (fun hinteracts => ?_) _ _
            have hmark := (Interactions.bitAt_rows_step_iff hsize).2
              (.inr ⟨hinput, hlive, hinteracts⟩)
            rw [Interactions.bitAt_rows_foldl (by rw [Interactions.size_rows_step, hsize])
              hmark] at hbit
            cases hbit
      · refine ih htail (fun v' hv' => hmem v' (List.mem_cons_of_mem _ hv'))
          (by rw [Interactions.size_rows_step, hsize]) ?_ v hv hlive r hr c hc hbit
        unfold Interactions.step
        cases hinput : head.2.isInput with
        | true => exact hcovered.skip hinput
        | false => exact coveredSo_step hf hcovered hvisited hhead hinput

/-- Nonzeros without an interaction have second derivative zero. -/
theorem secondDerivative_eq_zero_of_interactions
    (hf : f.WellFormed) {o i : Nat} (hi : i < f.nIn) (hone : f.outputLength o = 1) {r c : Nat}
    (hr : r < f.inputLength i) (hc : c < f.inputLength i)
    (hbit : bitAt (f.interactions o i).rows r c = false) (xs : List (List F)) :
    f.secondDerivative xs o i r c = 0 := by
  obtain ⟨hsymm, hsize, hstart⟩ := Interactions.start_spec (inputSlot_add_length_le hf hi)
  have hbit' : bitAt (f.interactions o i).rows c r = false := by
    rw [Bool.eq_false_iff] at hbit ⊢
    exact fun h => hbit ((symmetric_interactions hf o hi).symm c r h)
  have hcovered : CoveredSo f.full.size
      (fun j s => (f.tangentArray xs (unitTangent i j)).getD s 0) f.ascent
      (Interactions.start f.full.size (f.full.slot i 0) (f.inputLength i)).bits := by
    refine coveredSo_ascent hf hsize fun i' hi' k hk j hj hnone => ?_
    by_contra hne
    obtain ⟨rfl, rfl⟩ : i' = i ∧ k = j := by
      by_contra hdiff
      exact hne (if_neg hdiff)
    have hown := (hstart _ k).2 ⟨hk, rfl⟩
    rw [Layout.slot_zero_add, hnone] at hown
    cases hown
  rw [secondDerivative_eq_curvature hf xs o hi hr]
  -- a scalar has its seed at one slot
  have hseed : ∀ s < f.full.size,
      ((Array.replicate f.full.size false).setIfInBounds (f.outputSlot o 0) true).getD s false =
        false →
      f.seedVector [o] (fun _ _ => (1 : F)) s = 0 := by
    intro s hs hdead
    have hne : f.outputSlot o 0 ≠ s := by
      rintro rfl
      simp [Array.getD_eq_getD_getElem?, hs] at hdead
    simp only [seedVector, List.map_cons, List.map_nil, List.sum_cons, List.sum_nil, hone,
      Finset.sum_range_one, if_neg hne, add_zero]
  refine curvature_eq_zero (n := f.full.size)
    (fun v hv => ⟨(lt_of_mem_visits hf hv).1, slots_lt_of_mem_visits hf hv⟩) (by simp) hseed
    fun v hv hnow => ?_
  rw [← liveSlots_eq_foldl] at hnow
  exact quad_eq_zero_of_foldl hf xs i _ (pairwise_ascent hf) (fun v hv => mem_ascent_iff.1 hv)
    hsymm.size hcovered v (mem_ascent_iff.2 hv) hnow c hc r hr hbit'

/-- The structural Hessian of a scalar output exists, and a second derivative outside vanishes. -/
theorem hessianPattern_spec
    (hf : f.WellFormed) {o i : Nat} {out : Pattern} (ho : f.outputPatterns[o]? = some out)
    (hscalar : out.isDenseScalar = true) (hi : i < f.nIn) :
    ∃ p, f.hessianPattern o i = .ok p ∧ p.WellFormed ∧
      p.nrow = f.inputLength i ∧ p.ncol = f.inputLength i ∧
      (∀ r c, c ∈ p.row r → r ∈ p.row c) ∧
      ∀ r < f.inputLength i, ∀ c < f.inputLength i, c ∉ p.row r →
        ∀ xs, f.secondDerivative xs o i r c = 0 := by
  have hone := outputLength_of_isDenseScalar ho hscalar
  obtain ⟨p, hp, hwell, hnrow, hncol, hsymm, hmarks⟩ := hessianPattern_marks hf ho hscalar hi
  refine ⟨p, hp, hwell, hnrow, hncol, hsymm, fun r hr c hc hnot xs => ?_⟩
  rw [hmarks] at hnot
  exact secondDerivative_eq_zero_of_interactions hf hi hone hr hc (Bool.eq_false_iff.2 hnot) xs

end Tape

end SparseDiff
