import SparseDiff.Proofs.Checked.Forward
import SparseDiff.Proofs.Exact
import SparseDiff.Proofs.Exported.Statements

/-!
# Exported programs compute the outputs

An exported program is a second sweep over the layout of a call, of statements in place of
cells. The statements of an element keep the invariant of the forward sweep
(`Tape.Executed.step`), so that at the end the slots of the outputs hold what a call returns.
-/

namespace SparseDiff

variable {F : Type}

namespace Tape

variable [Zero F] {f : Tape F} {l : Layout} {keep : Nat → Prop} {xs : List (List F)} {j : Nat}
  {e : Element F}

/-- The number that a loading cell names is given. -/
theorem exists_of_cellAt_input
    (hf : f.WellFormed) (hfit : FitLists f.inputPatterns xs) (he : f.elements[j]? = some e)
    {slot : Nat → Nat → Nat} {n i k : Nat} (hn : n < e.nnz)
    (hcell : e.instr.cellAt slot n = .input i k) :
    ∃ ys, xs[i]? = some ys ∧ k < ys.length := by
  have hin : j < f.nIn := by
    rw [← hf.isInput_iff j e he, ← isInput_cellAt slot n, hcell]
    rfl
  rw [cellAt_input hf he hin] at hcell
  cases hcell
  obtain ⟨ys, hget, hlength⟩ := list_of_fitLists hf hfit hin he
  exact ⟨ys, hget, hlength ▸ hn⟩

variable [One F] [Add F] [Sub F] [Neg F] [Mul F] [Div F] [Elementary F]

/-- All values of the tape are finite. -/
def IsFiniteOn (f : Tape F) (xs : List (List F)) : Prop :=
  ∀ s < f.full.size, Elementary.isFinite ((f.valueArray xs).getD s 0) = true

/--
The arrays of an exported program before the statements of the element at `j`: the values that
are still needed are there, and no output is handed out.
-/
structure Executed (f : Tape F) (l : Layout) (keep : Nat → Prop) (xs : List (List F)) (j : Nat)
    (before m : Machine F) : Prop where
  size : m.work.size = before.work.size
  results : m.results = before.results
  holds : f.Holds l keep j (f.valueArray xs) m.work

variable {before m : Machine F}

/-- The cells of the next element have the values of the tape. -/
theorem Holds.eval_cellAt
    (hf : f.WellFormed) {w : Array F} (h : f.Holds l keep j (f.valueArray xs) w)
    (he : f.elements[j]? = some e) {k : Nat} (hk : k < e.nnz) :
    (e.instr.cellAt l.slot k).eval (seedAt (xs.map List.toArray)) w =
      (f.valueArray xs).getD (f.full.slot j k) 0 := by
  rw [getD_valueArray hf xs (getElem?_trace hf he hk)]
  rcases Nat.lt_or_ge j f.nIn with hin | hlate
  · rw [cellAt_input hf he hin, cellAt_input hf he hin]
    rfl
  · have hinput := hf.isInput_eq_false he hlate
    rw [Cell.eval_of_not_input (by simpa using hinput),
      Cell.eval_of_not_input (by simpa using hinput)]
    exact value_cellAt_congr (hf.fits j e he) hk (h.agree hf he)

/-- The next element reads finite numbers. -/
theorem Holds.isFinite_of_mem_slots
    (hf : f.WellFormed) {w : Array F} (h : f.Holds l keep j (f.valueArray xs) w)
    (hfinite : f.IsFiniteOn xs) (he : f.elements[j]? = some e) {k : Nat} (hk : k < e.nnz)
    {r : Nat} (hr : r ∈ (e.instr.cellAt l.slot k).slots) :
    Elementary.isFinite (w.getD r 0) = true := by
  obtain ⟨q, i, e', hq, he', hi, rfl⟩ := mem_slots_cellAt (hf.fits j e he) hk hr
  rw [h.agree hf he q hq e' he' i hi]
  exact hfinite _ (full_slot_lt hf he' hi)

variable [Elementary.FiniteNumbers F]

/-- The first `n` statements of the next element write its first `n` values. -/
theorem Executed.run_cells
    (hf : f.WellFormed) (hsound : l.Sound f.spans keep) (hfit : FitLists f.inputPatterns xs)
    (hfinite : f.IsFiniteOn xs) (t : Target) (h : f.Executed l keep xs j before m)
    (hwork : l.size ≤ before.work.size) (he : f.elements[j]? = some e) {n : Nat}
    (hn : n ≤ e.nnz) :
    ∃ w, ((List.range n).map fun k =>
        (e.instr.cellAt l.slot k).statement t (l.slot j 0 + k)).foldlM (Statement.run t xs) m =
          .ok { m with work := w } ∧
      w.size = m.work.size ∧
      Written (l.slot j 0) n (fun k => (f.valueArray xs).getD (f.full.slot j k) 0) m.work w := by
  induction n with
  | zero => exact ⟨m.work, rfl, rfl, written_zero _ _ _⟩
  | succ n ih =>
      obtain ⟨w, hrun, hsize, hwritten⟩ := ih (by omega)
      have hk : n < e.nnz := hn
      have hroom : l.size ≤ w.size := by
        rw [hsize, h.size]
        exact hwork
      have hdest : l.slot j 0 + n < w.size := by
        rw [Layout.slot_zero_add]
        exact Nat.lt_of_lt_of_le (slot_lt_size hsound he hk) hroom
      -- the values written so far stand in none of the slots that the cell reads
      have hkept : ∀ r ∈ (e.instr.cellAt l.slot n).slots, w.getD r 0 = m.work.getD r 0 :=
        fun r hr => hwritten.outside r fun i hi =>
          (slots_segmentAt hf hsound he hk hr).2 i (by omega)
      have hvalue : (e.instr.cellAt l.slot n).eval (seedAt (xs.map List.toArray)) w =
          (f.valueArray xs).getD (f.full.slot j n) 0 :=
        (Cell.eval_congr hkept _).trans (h.holds.eval_cellAt hf he hk)
      have hinput : ∀ i k, e.instr.cellAt l.slot n = .input i k →
          ∃ ys, xs[i]? = some ys ∧ k < ys.length :=
        fun _ _ => exists_of_cellAt_input hf hfit he hk
      have hstep := Cell.run_statement t (m := { m with work := w }) hdest
        (fun r hr => Nat.lt_of_lt_of_le (slots_segmentAt hf hsound he hk hr).1 hroom)
        (fun r hr => (congrArg _ (hkept r hr)).trans
          (h.holds.isFinite_of_mem_slots hf hfinite he hk hr)) hinput
      refine ⟨w.setIfInBounds (l.slot j 0 + n) ((f.valueArray xs).getD (f.full.slot j n) 0), ?_,
        by rw [Array.size_setIfInBounds, hsize], hwritten.step hdest⟩
      rw [← hvalue]
      rw [List.range_succ, List.map_append, List.foldlM_append, hrun]
      exact (bind_pure _).trans hstep

/-- The statements of the next element. -/
theorem Executed.step
    (hf : f.WellFormed) (hsound : l.Sound f.spans keep) (hfit : FitLists f.inputPatterns xs)
    (hfinite : f.IsFiniteOn xs) (t : Target) (h : f.Executed l keep xs j before m)
    (hwork : l.size ≤ before.work.size) (he : f.elements[j]? = some e) :
    ∃ m', ((segmentAt l e j).statements t).foldlM (Statement.run t xs) m = .ok m' ∧
      f.Executed l keep xs (j + 1) before m' := by
  obtain ⟨w, hrun, hsize, hwritten⟩ := h.run_cells hf hsound hfit hfinite t hwork he (Nat.le_refl _)
  refine ⟨{ m with work := w }, ?_, hsize.trans h.size, h.results, h.holds.step hsound he hwritten⟩
  rw [Segment.statements, numbered_segmentAt, List.map_map]
  exact hrun

/-- The statements of the first elements, from any content of the work array. -/
theorem exists_executed
    (hf : f.WellFormed) (hsound : l.Sound f.spans keep) (hfit : FitLists f.inputPatterns xs)
    (hfinite : f.IsFiniteOn xs) (t : Target) (hwork : l.size ≤ before.work.size)
    (hj : j ≤ f.elements.size) :
    ∃ m, (((f.segmentsAt l).take j).flatMap (Segment.statements t)).foldlM (Statement.run t xs)
        before = .ok m ∧
      f.Executed l keep xs j before m := by
  induction j with
  | zero => exact ⟨before, rfl, rfl, rfl, holds_zero f l keep _ _⟩
  | succ j ih =>
      obtain ⟨m, hrun, hm⟩ := ih (by omega)
      have he : f.elements[j]? = some f.elements[j] := Array.getElem?_eq_getElem (by omega)
      have hseg : (f.segmentsAt l)[j]? = some (segmentAt l f.elements[j] j) := by
        rw [getElem?_segmentsAt, he]
        rfl
      obtain ⟨m', hrun', hm'⟩ := hm.step hf hsound hfit hfinite t hwork he
      refine ⟨m', ?_, hm'⟩
      rw [List.take_add_one, hseg, Option.toList_some, List.flatMap_append, List.foldlM_append,
        hrun, List.flatMap_singleton]
      exact hrun'

end Tape

namespace Tape

variable {f : Tape F} {l : Layout}

/-- The statement that hands out output `o`. -/
def storeAt (f : Tape F) (l : Layout) (o : Nat) : Statement F :=
  .store o (slotsFrom (l.slot (f.outputs.getD o 0) 0) (f.outputLength o))

theorem stores_eq
    {keep : Nat → Prop} (hf : f.WellFormed) (hsound : l.Sound f.spans keep) :
    f.stores l = .ok ((List.range f.nOut).map (f.storeAt l)) := by
  have hstores : f.stores l = .ok ((f.outputs.zip f.outputPatterns).zipIdx.map fun item =>
      .store item.2 (slotsFrom (l.slot item.1.1 0) item.1.2.nnz)) := by
    refine mapM_eq_ok_map fun item hmem => ?_
    obtain ⟨⟨q, p⟩, o⟩ := item
    obtain ⟨hq, hp⟩ := List.getElem?_zip_eq_some.1 (List.mem_zipIdx_iff_getElem?.1 hmem)
    obtain ⟨e, he, -⟩ := hf.output o q p hq hp
    have hoffset : q < l.offsets.size := by
      rw [hsound.size]
      exact (List.getElem?_eq_some_iff.1 (getElem?_spans he)).1
    simp only [Layout.offset_eq hoffset]
    rfl
  rw [hstores]
  refine congrArg _ (List.ext_getElem? fun o => ?_)
  rcases Nat.lt_or_ge o f.nOut with ho | ho
  · obtain ⟨q, p, -, hq, hp, -⟩ := hf.exists_output ho
    have hzip : (f.outputs.zip f.outputPatterns)[o]? = some (q, p) :=
      List.getElem?_zip_eq_some.2 ⟨hq, hp⟩
    simp [hzip, ho, storeAt, outputLength, hq, hp, List.getD_eq_getElem?_getD]
  · have hlength : f.outputPatterns.length ≤ o := ho
    simp [ho, hlength]

variable [Zero F]

/-- The output pointers when the first `n` outputs are handed out, with the values in `v`. -/
def handed (f : Tape F) (v : Array F) (n : Nat) (results : List (Option (Array F))) :
    List (Option (Array F)) :=
  results.mapIdx fun o b => if o < n then b.map (writeAt 0 (f.outputOf v o)) else b

theorem getElem?_handed
    (v : Array F) (n : Nat) (results : List (Option (Array F))) (o : Nat) :
    (f.handed v n results)[o]? = results[o]?.map fun b =>
      if o < n then b.map (writeAt 0 (f.outputOf v o)) else b := by
  simp [handed]

/-- The exported program: the statements of all elements, then those of the outputs. -/
def programAt (f : Tape F) (t : Target) (name : String) (l : Layout) : Program F :=
  ⟨name, f.nIn, f.nOut, l.size, (f.segmentsAt l).flatMap (Segment.statements t) ++
    (List.range f.nOut).map (f.storeAt l)⟩

theorem program_eq
    (hf : f.WellFormed) {name : String} (hname : isIdentifier name = true) (t : Target) :
    f.program t name = .ok (f.programAt t name (f.layout 0)) := by
  have hsound := layout_sound hf 0
  unfold program
  simp only [hname, segments_of_sound hf hsound, stores_eq hf hsound]
  rfl

variable [One F] [Add F] [Sub F] [Neg F] [Mul F] [Div F] [Elementary F]
variable {t : Target} {v : Array F} {m : Machine F}

/-- An output that is there in the end is handed out. -/
theorem run_storeAt
    (arg : List (List F)) (hf : f.WellFormed) (hsound : l.Sound f.spans (· ∈ f.outputs))
    (hwork : l.size ≤ m.work.size)
    (hholds : f.Holds l (· ∈ f.outputs) f.elements.size v m.work) {o : Nat} {p : Pattern}
    (hp : f.outputPatterns[o]? = some p) {b : Option (Array F)} (hb : m.results[o]? = some b)
    (hreceives : Receives t p b) :
    (f.storeAt l o).run t arg m =
      .ok { m with results := m.results.set o (b.map (writeAt 0 (f.outputOf v o))) } := by
  have ho : o < f.nOut := (List.getElem?_eq_some_iff.1 hp).1
  cases hreceives with
  | null h =>
      subst h
      have hsame : m.results.set o none = m.results := by
        obtain ⟨hlt, hget⟩ := List.getElem?_eq_some_iff.1 hb
        rw [← hget, List.set_getElem_self]
      rw [storeAt, Statement.run, hb, Option.map_none, hsame]
      rfl
  | @buffer b hroom =>
      obtain ⟨e, he, hnnz⟩ := hf.element_of_output ho
      have hinside : l.slot (f.outputs.getD o 0) 0 + f.outputLength o ≤ m.work.size := by
        have hle := hsound.inside _ (span e) (getElem?_spans he)
        rw [show (span e).length = f.outputLength o from hnnz, ← Layout.slot_zero_add] at hle
        omega
      have hlength : f.outputLength o ≤ b.size := by
        rw [outputLength, hp]
        exact hroom
      have hstore := Machine.store_slotsFrom hb hinside hlength
      rw [map_getD_outputSlots hf hholds ho] at hstore
      cases t with
      | rust => exact hstore
      | c =>
          rw [storeAt, Statement.run, hb]
          exact hstore

/-- The first `n` outputs are handed out. -/
theorem run_stores
    (arg : List (List F)) (hf : f.WellFormed) (hsound : l.Sound f.spans (· ∈ f.outputs))
    (hwork : l.size ≤ m.work.size)
    (hholds : f.Holds l (· ∈ f.outputs) f.elements.size v m.work)
    (hresults : List.Forall₂ (Receives t) f.outputPatterns m.results) {n : Nat}
    (hn : n ≤ f.nOut) :
    ((List.range n).map (f.storeAt l)).foldlM (Statement.run t arg) m =
      .ok { m with results := f.handed v n m.results } := by
  induction n with
  | zero =>
      have hsame : f.handed v 0 m.results = m.results :=
        List.ext_getElem? fun o => by simp [getElem?_handed]
      rw [hsame]
      rfl
  | succ n ih =>
      have hp : f.outputPatterns[n]? = some f.outputPatterns[n] := List.getElem?_eq_getElem hn
      obtain ⟨b, hb, hreceives⟩ := getElem?_of_forall₂_left hresults hp
      obtain ⟨hlt, hget⟩ := List.getElem?_eq_some_iff.1 hb
      have hstep := run_storeAt arg (m := { m with results := f.handed v n m.results }) hf hsound
        hwork hholds hp (b := b) (by simp [getElem?_handed, hb]) hreceives
      have hnext : (f.handed v n m.results).set n (b.map (writeAt 0 (f.outputOf v n))) =
          f.handed v (n + 1) m.results := by
        refine List.ext_getElem? fun o => ?_
        rw [List.getElem?_set, getElem?_handed, getElem?_handed]
        by_cases ho : n = o
        · subst ho
          simp [handed, hlt, hget]
        · have hiff : o < n ↔ o < n + 1 := by omega
          simp [ho, hiff]
      rw [List.range_succ, List.map_append, List.foldlM_append, ih (by omega), ← hnext]
      exact (bind_pure _).trans hstep

end Tape

theorem Program.work_le_declared
    (p : Program F) (t : Target) :
    p.work ≤ p.declared t := by
  cases t with
  | c => exact Nat.le_max_left _ _
  | rust => exact Nat.le_refl _

namespace Tape

variable [Zero F] [One F] [Add F] [Sub F] [Neg F] [Mul F] [Div F] [Elementary F]
  [Elementary.FiniteNumbers F] {f : Tape F} {xs : List (List F)}

/-- On a finite tape every check of a sweep passes, in any layout. -/
theorem IsFiniteOn.finiteValues
    (h : f.IsFiniteOn xs) (hf : f.WellFormed) (hfit : FitLists f.inputPatterns xs) (l : Layout) :
    Everywhere f.elements (f.FiniteValues l xs) := by
  intro p e he k hk
  unfold FiniteValues found
  split
  · refine forall_getD_writeLists (P := fun x => Calculus.isFinite x = true) ?_
      fun ys hys y hy => ?_
    · have hzero : (Array.replicate l.size (0 : F)).getD (l.slot p k) 0 = 0 := by
        rw [Array.getD_eq_getD_getElem?, Array.getElem?_replicate]
        split <;> rfl
      rw [hzero]
      exact Elementary.FiniteNumbers.isFinite_zero
    · obtain ⟨s, hs, rfl⟩ := exists_slot_of_mem hf hfit hys hy
      exact h s hs
  · exact h _ (full_slot_lt hf he hk)

/-- An exported program runs to its end and hands out the values of the outputs. -/
theorem exists_run_programAt
    {l : Layout} {t : Target} {m : Machine F} (hf : f.WellFormed)
    (hsound : l.Sound f.spans (· ∈ f.outputs)) (hfit : FitLists f.inputPatterns xs)
    (hfinite : f.IsFiniteOn xs) (name : String) (hwork : l.size ≤ m.work.size)
    (hresults : List.Forall₂ (Receives t) f.outputPatterns m.results) :
    ∃ w, (f.programAt t name l).run t xs m =
      .ok ⟨w, f.handed (f.valueArray xs) f.nOut m.results⟩ := by
  obtain ⟨m', hrun, hm'⟩ := exists_executed hf hsound hfit hfinite t hwork (Nat.le_refl _)
  have hall : (f.segmentsAt l).take f.elements.size = f.segmentsAt l :=
    List.take_of_length_le (by simp)
  have hstores := run_stores xs hf hsound (hm'.size.symm ▸ hwork) hm'.holds
    (hm'.results.symm ▸ hresults) (Nat.le_refl _)
  refine ⟨m'.work, ?_⟩
  rw [hall] at hrun
  rw [Program.run, programAt, List.foldlM_append, hrun, ← hm'.results]
  exact hstores

variable [ElementText F] {g : Graph F} {inputs outputs : List NodeId} {config : Config}

/--
The program that is exported runs inside its arrays from any content of the work array, and
leaves in the output buffers what a call returns, on all inputs where the tape is finite.
-/
theorem exported_computes_call
    (hbare : g.BareLeaves) (hcompile : compile g inputs outputs config = .ok f) (t : Target)
    (name : String) (hname : isIdentifier name = true) (hfit : FitLists f.inputPatterns xs)
    (hfinite : f.IsFiniteOn xs) :
    ∃ p outs, f.program t name = .ok p ∧ f.exportSource t name = .ok (p.text t) ∧
      f.call xs = .ok outs ∧
      ∀ m : Machine F, m.work.size = p.declared t →
        List.Forall₂ (Receives t) f.outputPatterns m.results →
          ∃ m', p.run t xs m = .ok m' ∧ m'.results.length = m.results.length ∧
            ∀ (o : Nat) (ys : List F), outs[o]? = some ys → ∃ b b', m.results[o]? = some b ∧
              m'.results[o]? = some b' ∧ HandedOut ys b b' := by
  obtain ⟨order, h⟩ := compiled_of_compile hbare hcompile
  have hf := h.wellFormed
  have hprogram := program_eq hf hname t
  have hcall := call_eq_ok hf hfit fun _ => hfinite.finiteValues hf hfit (f.layout 0)
  have hsource : f.exportSource t name = .ok ((f.programAt t name (f.layout 0)).text t) := by
    rw [exportSource, hprogram]
    rfl
  refine ⟨_, _, hprogram, hsource, hcall, ?_⟩
  intro m hwork hresults
  have hroom : (f.layout 0).size ≤ m.work.size := by
    rw [hwork]
    exact (f.programAt t name (f.layout 0)).work_le_declared t
  obtain ⟨w, hrun⟩ := exists_run_programAt hf (layout_sound hf 0) hfit hfinite name hroom hresults
  refine ⟨⟨w, _⟩, hrun, by simp [handed], fun o ys hys => ?_⟩
  have hlt : o < f.nOut := by
    simpa using (List.getElem?_eq_some_iff.1 hys).1
  have hvalue : f.outputOf (f.valueArray xs) o = ys := by
    simpa [hlt] using hys
  have hp : f.outputPatterns[o]? = some f.outputPatterns[o] := List.getElem?_eq_getElem hlt
  obtain ⟨b, hb, hreceives⟩ := getElem?_of_forall₂_left hresults hp
  have hlength : ys.length = f.outputPatterns[o].nnz := by
    simp [← hvalue, outputOf, outputLength, hp]
  refine ⟨b, b.map (writeAt 0 ys), hb, ?_, hreceives.handedOut hlength⟩
  rw [getElem?_handed, hb, Option.map_some, if_pos hlt, hvalue]

end Tape

instance : Elementary.FiniteNumbers Int where
  isFinite_zero := rfl
  isNaN_of_isFinite _ _ := rfl

namespace Tape

theorem outputPatterns_scaling :
    scaling.outputPatterns = [⟨1, #[[0]]⟩, ⟨1, #[[0], [0]]⟩, ⟨1, #[[0], [0]]⟩] := by
  cbv

theorem exported_computes_call_scaling :
    ∃ p outs m', scaling.program .c "scale" = .ok p ∧ scaling.call [[2, 3]] = .ok outs ∧
      p.run .c [[2, 3]] ⟨Array.replicate (p.declared .c) 7, [some #[0], none, some #[0, 0]]⟩ =
        .ok m' ∧
      ∀ (o : Nat) (ys : List Int), outs[o]? = some ys →
        ∃ b b', [some #[0], none, some #[0, 0]][o]? = some b ∧ m'.results[o]? = some b' ∧
          HandedOut ys b b' := by
  have hfit : FitLists scaling.inputPatterns [[(2 : Int), 3]] :=
    (checkEvaluation_eq_ok_iff.1 (show scaling.checkEvaluation "evaluate" (scaling.memory 0 0).sizes
      _ [] [] = .ok () by cbv)).fitInputs
  obtain ⟨p, outs, hp, -, hcall, hrun⟩ := exported_computes_call Graph.bareLeaves_scaling
    compile_scaling .c "scale" (by decide) hfit fun _ _ => rfl
  have hreceives : List.Forall₂ (Receives .c) scaling.outputPatterns
      [some #[(0 : Int)], none, some #[0, 0]] := by
    rw [outputPatterns_scaling]
    exact .cons (.buffer (by decide)) (.cons (.null rfl) (.cons (.buffer (by decide)) .nil))
  obtain ⟨m', hm', -, hresults⟩ := hrun
    ⟨Array.replicate (p.declared .c) 7, [some #[0], none, some #[0, 0]]⟩ (by simp) hreceives
  exact ⟨p, outs, m', hp, hcall, hm', hresults⟩

/-- The product goes to the first buffer and the column itself to the third. -/
example :
    (scaling.program .c "scale" >>= fun p =>
      (p.run .c [[2, 3]]
        ⟨Array.replicate (p.declared .c) 7, [some #[0], none, some #[0, 0]]⟩).map
          Machine.results) = .ok [some #[6], none, some #[2, 3]] := by
  cbv

end Tape

end SparseDiff
