import SparseDiff.Proofs.Cells
import Mathlib.Data.List.Induction

/-!
# Traces

The cells of a tape under the full layout, one after the other: cell `s` writes slot `s`
and reads smaller slots. Values and tangents of a trace are defined by one pass that appends
a number per cell (`Trace.values`, `Trace.tangents`); since reads go backward, they are the
only solutions of the equations of the cells. Sweeps in any layout are measured against them.
-/

namespace SparseDiff

variable {F : Type}

namespace Cell

section Value

variable [Zero F] [Calculus F]

/-- Value of a cell, with the values `x` of the inputs. -/
def eval (x : Nat → Nat → F) (w : Array F) : Cell F → F
  | input i k => x i k
  | c => c.value w

theorem eval_of_not_input
    {c : Cell F} (h : c.isInput = false) (x : Nat → Nat → F) (w : Array F) :
    c.eval x w = c.value w := by
  cases c with
  | input i k => simp [isInput] at h
  | _ => rfl

/-- A cell reads the slots that it lists. -/
theorem value_congr
    {c : Cell F} {w w' : Array F} (h : ∀ s ∈ c.slots, w.getD s 0 = w'.getD s 0) :
    c.value w = c.value w' := by
  have hread : ∀ a : Option Nat, (∀ s ∈ a.toList, w.getD s 0 = w'.getD s 0) →
      readSlot w a = readSlot w' a := by
    intro a ha
    cases a with
    | none => rfl
    | some s => exact ha s (by simp)
  cases c with
  | input i k => rfl
  | constant v => rfl
  | unary op a => simp only [value, hread a h]
  | binary op a b =>
      simp only [value, hread a fun s hs => h s (List.mem_append_left _ hs),
        hread b fun s hs => h s (List.mem_append_right _ hs)]
  | select tol cond source =>
      simp only [value, hread cond fun s hs => h s (List.mem_append_left _ hs),
        h source (by simp [slots])]
  | copy source => exact h source (by simp [slots])

theorem eval_congr
    {c : Cell F} {w w' : Array F} (h : ∀ s ∈ c.slots, w.getD s 0 = w'.getD s 0)
    (x : Nat → Nat → F) :
    c.eval x w = c.eval x w' := by
  cases c with
  | input i k => rfl
  | _ => exact value_congr h

end Value

section Tangent

variable [Zero F] [Add F] [Mul F] [Calculus F]

/-- Tangent of a cell with value `r`, with the tangents `u` of the inputs. -/
def evalTangent (u : Nat → Nat → F) (w : Array F) (r : F) (t : Array F) : Cell F → F
  | input i k => u i k
  | c => c.tangent w r t

theorem evalTangent_of_not_input
    {c : Cell F} (h : c.isInput = false) (u : Nat → Nat → F) (w : Array F) (r : F)
    (t : Array F) :
    c.evalTangent u w r t = c.tangent w r t := by
  cases c with
  | input i k => simp [isInput] at h
  | _ => rfl

theorem tangent_congr
    {c : Cell F} {w t w' t' : Array F} (hw : ∀ s ∈ c.slots, w.getD s 0 = w'.getD s 0)
    (ht : ∀ s ∈ c.slots, t.getD s 0 = t'.getD s 0) (r : F) :
    c.tangent w r t = c.tangent w' r t' := by
  have hread : ∀ a : Option Nat, (∀ s ∈ a.toList, w.getD s 0 = w'.getD s 0) →
      readSlot w a = readSlot w' a := by
    intro a ha
    cases a with
    | none => rfl
    | some s => exact ha s (by simp)
  have halong : ∀ (d : F) (a : Option Nat), (∀ s ∈ a.toList, t.getD s 0 = t'.getD s 0) →
      along d t a = along d t' a := by
    intro d a ha
    cases a with
    | none => rfl
    | some s => simp only [along, ha s (by simp)]
  cases c with
  | input i k => rfl
  | constant v => rfl
  | unary op a => simp only [tangent, hread a hw, halong _ a ht]
  | binary op a b =>
      simp only [tangent, hread a fun s hs => hw s (List.mem_append_left _ hs),
        hread b fun s hs => hw s (List.mem_append_right _ hs),
        halong _ a fun s hs => ht s (List.mem_append_left _ hs),
        halong _ b fun s hs => ht s (List.mem_append_right _ hs)]
  | select tol cond source =>
      simp only [tangent, hread cond fun s hs => hw s (List.mem_append_left _ hs),
        ht source (by simp [slots])]
  | copy source => exact ht source (by simp [slots])

theorem evalTangent_congr
    {c : Cell F} {w t w' t' : Array F} (hw : ∀ s ∈ c.slots, w.getD s 0 = w'.getD s 0)
    (ht : ∀ s ∈ c.slots, t.getD s 0 = t'.getD s 0) (u : Nat → Nat → F) (r : F) :
    c.evalTangent u w r t = c.evalTangent u w' r t' := by
  cases c with
  | input i k => rfl
  | _ => exact tangent_congr hw ht r

end Tangent

end Cell

namespace Trace

/-- Every cell reads slots of earlier cells. -/
def Causal (cells : List (Cell F)) : Prop :=
  ∀ (s : Nat) (c : Cell F), cells[s]? = some c → ∀ r ∈ c.slots, r < s

/-- One number per cell, from the numbers so far; `step` is given the slot of the cell. -/
def record (step : Nat → Array F → Cell F → F) (cells : List (Cell F)) : Array F :=
  cells.foldl (fun w c => w.push (step w.size w c)) #[]

theorem record_concat
    (step : Nat → Array F → Cell F → F) (cells : List (Cell F)) (c : Cell F) :
    record step (cells ++ [c]) =
      (record step cells).push (step (record step cells).size (record step cells) c) := by
  unfold record
  rw [List.foldl_concat]

@[simp] theorem size_record
    (step : Nat → Array F → Cell F → F) (cells : List (Cell F)) :
    (record step cells).size = cells.length := by
  induction cells using List.reverseRecOn with
  | nil => rfl
  | append_singleton cells c ih => simp [record_concat, ih]

variable [Zero F]

/-- The number of a cell in slot `s` depends on smaller slots only. -/
def Local (step : Nat → Array F → Cell F → F) (cells : List (Cell F)) : Prop :=
  ∀ (s : Nat) (c : Cell F) (w w' : Array F), cells[s]? = some c →
    (∀ r < s, w.getD r 0 = w'.getD r 0) → step s w c = step s w' c

/-- Every number solves the equation of its cell. -/
theorem getD_record
    {step : Nat → Array F → Cell F → F} {cells : List (Cell F)} (hlocal : Local step cells)
    {s : Nat} {c : Cell F} (hs : cells[s]? = some c) :
    (record step cells).getD s 0 = step s (record step cells) c := by
  induction cells using List.reverseRecOn with
  | nil => simp at hs
  | append_singleton cells c' ih =>
      have hprefix : Local step cells := by
        intro i d w w' hi
        refine hlocal i d w w' ?_
        rw [List.getElem?_append_left (List.getElem?_eq_some_iff.1 hi).1, hi]
      -- appending a number does not change what the cells so far read
      have hkeep : ∀ r < cells.length, (record step (cells ++ [c'])).getD r 0 =
          (record step cells).getD r 0 := by
        intro r hr
        simp [record_concat, Array.getD_eq_getD_getElem?, Array.getElem?_push, Nat.ne_of_lt hr]
      have hlt := (List.getElem?_eq_some_iff.1 hs).1
      rw [List.length_append, List.length_singleton] at hlt
      rw [hlocal s c _ (record step cells) hs fun r hr => hkeep r (by omega)]
      rcases Nat.lt_or_ge s cells.length with hin | hend
      · rw [hkeep s hin]
        rw [List.getElem?_append_left hin] at hs
        exact ih hprefix hs
      · have heq : s = cells.length := by omega
        subst heq
        rw [List.getElem?_concat_length] at hs
        cases hs
        rw [record_concat, size_record, Array.getD_eq_getD_getElem?, Array.getElem?_push,
          if_pos (size_record step cells).symm]
        rfl

/-- The equations of the cells have one solution. -/
theorem getD_eq_getD_record
    {step : Nat → Array F → Cell F → F} {cells : List (Cell F)} (hlocal : Local step cells)
    {w : Array F}
    (hw : ∀ (s : Nat) (c : Cell F), cells[s]? = some c → w.getD s 0 = step s w c)
    {s : Nat} (hs : s < cells.length) :
    w.getD s 0 = (record step cells).getD s 0 := by
  induction s using Nat.strongRecOn with
  | ind s ih =>
      have hget := List.getElem?_eq_getElem hs
      rw [hw s _ hget, getD_record hlocal hget]
      exact hlocal s _ _ _ hget fun r hr => ih r hr (by omega)

/-- The values of all cells, with the values `x` of the inputs. -/
def values [Calculus F] (x : Nat → Nat → F) (cells : List (Cell F)) : Array F :=
  record (fun _ w c => c.eval x w) cells

/-- The tangents of all cells, with the tangents `u` of the inputs and the values in `w`. -/
def tangents [Add F] [Mul F] [Calculus F] (u : Nat → Nat → F) (w : Array F)
    (cells : List (Cell F)) : Array F :=
  record (fun s t c => c.evalTangent u w (w.getD s 0) t) cells

theorem getD_values
    [Calculus F] (x : Nat → Nat → F) {cells : List (Cell F)} (hcausal : Causal cells)
    {s : Nat} {c : Cell F} (hs : cells[s]? = some c) :
    (values x cells).getD s 0 = c.eval x (values x cells) :=
  getD_record
    (fun s c _ _ hs h => Cell.eval_congr (fun r hr => h r (hcausal s c hs r hr)) x) hs

theorem local_evalTangent
    [Add F] [Mul F] [Calculus F] (u : Nat → Nat → F) (w : Array F) {cells : List (Cell F)}
    (hcausal : Causal cells) :
    Local (fun s t c => c.evalTangent u w (w.getD s 0) t) cells :=
  fun s c _ _ hs h =>
    Cell.evalTangent_congr (fun _ _ => rfl) (fun r hr => h r (hcausal s c hs r hr)) u _

theorem getD_tangents
    [Add F] [Mul F] [Calculus F] (u : Nat → Nat → F) (w : Array F) {cells : List (Cell F)}
    (hcausal : Causal cells) {s : Nat} {c : Cell F} (hs : cells[s]? = some c) :
    (tangents u w cells).getD s 0 = c.evalTangent u w (w.getD s 0) (tangents u w cells) :=
  getD_record (local_evalTangent u w hcausal) hs

/-- Tangents that solve the equations of the cells are the tangents of the trace. -/
theorem getD_eq_getD_tangents
    [Add F] [Mul F] [Calculus F] (u : Nat → Nat → F) (w : Array F) {cells : List (Cell F)}
    (hcausal : Causal cells) {t : Array F}
    (ht : ∀ (s : Nat) (c : Cell F), cells[s]? = some c →
      t.getD s 0 = c.evalTangent u w (w.getD s 0) t)
    {s : Nat} (hs : s < cells.length) :
    t.getD s 0 = (tangents u w cells).getD s 0 :=
  getD_eq_getD_record (local_evalTangent u w hcausal) ht hs

end Trace

theorem getElem?_flatten_of_getElem?
    {α : Type} {xss : List (List α)} {p k : Nat} {xs : List α} (hp : xss[p]? = some xs)
    (hk : k < xs.length) :
    xss.flatten[total ((xss.take p).map List.length) + k]? = xs[k]? := by
  induction xss generalizing p with
  | nil => simp at hp
  | cons ys xss ih =>
      cases p with
      | zero =>
          have heq : ys = xs := by simpa using hp
          subst heq
          simp [List.getElem?_append_left hk]
      | succ p =>
          have hp' : xss[p]? = some xs := by simpa using hp
          rw [List.take_succ_cons, List.map_cons, total_cons, List.flatten_cons, Nat.add_assoc,
            List.getElem?_append_right (Nat.le_add_right _ _), Nat.add_sub_cancel_left]
          exact ih hp'

theorem exists_of_lt_flatten
    {α : Type} {xss : List (List α)} {s : Nat} (hs : s < xss.flatten.length) :
    ∃ (p k : Nat) (xs : List α), xss[p]? = some xs ∧ k < xs.length ∧
      s = total ((xss.take p).map List.length) + k := by
  induction xss generalizing s with
  | nil => simp at hs
  | cons xs xss ih =>
      rcases Nat.lt_or_ge s xs.length with hin | hout
      · exact ⟨0, s, xs, rfl, hin, by simp⟩
      · rw [List.flatten_cons, List.length_append] at hs
        obtain ⟨p, k, ys, hp, hk, hsub⟩ := ih (s := s - xs.length) (by omega)
        refine ⟨p + 1, k, ys, by simpa using hp, hk, ?_⟩
        rw [List.take_succ_cons, List.map_cons, total_cons]
        omega

namespace Tape

/-- What the layouts know of the elements. -/
def spans (f : Tape F) : List Span := f.elements.toList.map span

theorem getElem?_spans
    {f : Tape F} {p : Nat} {e : Element F} (he : f.elements[p]? = some e) :
    f.spans[p]? = some (span e) := by
  simp [spans, he]

/-- Elements of a well-formed tape read earlier elements only. -/
theorem WellFormed.lt_of_mem_reads
    {f : Tape F} (hf : f.WellFormed) {p : Nat} {s : Span} (hp : f.spans[p]? = some s)
    {q : Nat} (hq : q ∈ s.reads) :
    q < p := by
  have hget : f.elements[p]?.map span = some s := by
    simpa [spans] using hp
  obtain ⟨e, he, rfl⟩ := Option.map_eq_some_iff.1 hget
  exact (hf.fits p e he).lt_of_mem_reads hq

theorem WellFormed.full_sound
    {f : Tape F} (hf : f.WellFormed) (keep : Nat → Prop) :
    f.full.Sound f.spans keep := by
  rw [hf.full]
  exact Layout.ofLengths_sound f.spans keep

theorem WellFormed.compact_sound
    {f : Tape F} (hf : f.WellFormed) :
    f.compact.Sound f.spans (· ∈ f.outputs) := by
  rw [hf.compact]
  exact Layout.reusing_sound fun p s hp i hi => hf.lt_of_mem_reads hp hi

/-- What a well-formed tape is read as in a sound layout. -/
theorem segments_of_sound
    [Zero F] {f : Tape F} (hf : f.WellFormed) {l : Layout} {keep : Nat → Prop}
    (hsound : l.Sound f.spans keep) :
    f.segments l = .ok (f.segmentsAt l) := by
  have hsize := hsound.size
  exact segments_eq hf (by simpa [spans] using hsize)

theorem segments_full
    [Zero F] {f : Tape F} (hf : f.WellFormed) :
    f.segments f.full = .ok (f.segmentsAt f.full) :=
  segments_of_sound hf (hf.full_sound fun _ => True)

/-- Nonzeros of an element stand before those of a later one. -/
theorem full_slot_lt_slot
    {f : Tape F} (hf : f.WellFormed) {q p : Nat} (hqp : q < p) {e : Element F}
    (he : f.elements[q]? = some e) {j : Nat} (hj : j < e.nnz) (hp : p < f.elements.size)
    (k : Nat) :
    f.full.slot q j < f.full.slot p k := by
  have hle := Layout.slot_ofLengths_le (getElem?_spans he) hqp
    (by simpa [spans] using hp : p < f.spans.length)
  rw [← show f.full = Layout.ofLengths f.spans from hf.full] at hle
  unfold Layout.slot at hle ⊢
  have hlen : (span e).length = e.nnz := rfl
  omega

variable [Zero F]

/-- The cells of a tape under the full layout; cell `s` writes slot `s`. -/
def trace (f : Tape F) : List (Cell F) := (f.segmentsAt f.full).flatMap Segment.cells

theorem map_length_segmentsAt
    (f : Tape F) (l : Layout) :
    ((f.segmentsAt l).map Segment.cells).map List.length = f.spans.map Span.length := by
  refine List.ext_getElem? fun p => ?_
  simp only [List.getElem?_map, getElem?_segmentsAt, spans, Option.map_map]
  rw [Array.getElem?_toList]
  congr 1
  funext e
  simp [segmentAt, span]

theorem length_trace
    {f : Tape F} (hf : f.WellFormed) :
    f.trace.length = f.full.size := by
  rw [hf.full, Layout.size_ofLengths, trace, List.flatMap, List.length_flatten,
    map_length_segmentsAt, total_eq_sum]
  rfl

/-- In the full layout, the elements take the slots of the trace in order. -/
theorem full_slot_eq
    {f : Tape F} (hf : f.WellFormed) {p : Nat} (hp : p < f.elements.size) (k : Nat) :
    f.full.slot p k =
      total ((((f.segmentsAt f.full).map Segment.cells).take p).map List.length) + k := by
  have hlen : p < f.spans.length := by simpa [spans] using hp
  rw [List.map_take, map_length_segmentsAt]
  conv_lhs => rw [hf.full]
  exact Layout.slot_ofLengths f.spans hlen k

theorem getElem?_trace
    {f : Tape F} (hf : f.WellFormed) {p : Nat} {e : Element F}
    (he : f.elements[p]? = some e) {k : Nat} (hk : k < e.nnz) :
    f.trace[f.full.slot p k]? = some (e.instr.cellAt f.full.slot k) := by
  have hseg : ((f.segmentsAt f.full).map Segment.cells)[p]? =
      some ((List.range e.nnz).map fun k => e.instr.cellAt f.full.slot k) := by
    simp [getElem?_segmentsAt, he, segmentAt]
  rw [full_slot_eq hf (Array.getElem?_eq_some_iff.1 he).1, trace, List.flatMap,
    getElem?_flatten_of_getElem? hseg (by simpa using hk)]
  simp [hk]

/-- Every slot of the full layout belongs to a nonzero of an element. -/
theorem exists_of_lt_full
    {f : Tape F} (hf : f.WellFormed) {s : Nat} (hs : s < f.full.size) :
    ∃ p e k, f.elements[p]? = some e ∧ k < e.nnz ∧ s = f.full.slot p k := by
  rw [← length_trace hf] at hs
  obtain ⟨p, k, cells, hp, hk, hslot⟩ := exists_of_lt_flatten hs
  rw [List.getElem?_map, getElem?_segmentsAt, Option.map_map] at hp
  obtain ⟨e, he, rfl⟩ := Option.map_eq_some_iff.1 hp
  refine ⟨p, e, k, he, by simpa [segmentAt] using hk, ?_⟩
  rw [full_slot_eq hf (Array.getElem?_eq_some_iff.1 he).1, hslot]

/-- Every cell of the trace is that of a nonzero of an element. -/
theorem exists_of_getElem?_trace
    {f : Tape F} (hf : f.WellFormed) {s : Nat} {c : Cell F} (hs : f.trace[s]? = some c) :
    ∃ p e k, f.elements[p]? = some e ∧ k < e.nnz ∧ s = f.full.slot p k ∧
      c = e.instr.cellAt f.full.slot k := by
  have hlt := (List.getElem?_eq_some_iff.1 hs).1
  rw [length_trace hf] at hlt
  obtain ⟨p, e, k, he, hk, rfl⟩ := exists_of_lt_full hf hlt
  rw [getElem?_trace hf he hk] at hs
  exact ⟨p, e, k, he, hk, rfl, (Option.some.inj hs).symm⟩

/-- A nonzero of an element has a slot inside the full layout. -/
theorem full_slot_lt
    {f : Tape F} (hf : f.WellFormed) {p : Nat} {e : Element F}
    (he : f.elements[p]? = some e) {k : Nat} (hk : k < e.nnz) :
    f.full.slot p k < f.full.size := by
  rw [← length_trace hf]
  exact (List.getElem?_eq_some_iff.1 (getElem?_trace hf he hk)).1

/-- The cells of an element read slots before its first. -/
theorem lt_of_mem_slots
    {f : Tape F} (hf : f.WellFormed) {p : Nat} {e : Element F}
    (he : f.elements[p]? = some e) {k : Nat} (hk : k < e.nnz) {r : Nat}
    (hr : r ∈ (e.instr.cellAt f.full.slot k).slots) :
    r < f.full.slot p 0 := by
  obtain ⟨q, j, e', hq, he', hj, rfl⟩ := mem_slots_cellAt (hf.fits p e he) hk hr
  exact full_slot_lt_slot hf ((hf.fits p e he).lt_of_mem_reads hq) he' hj
    (Array.getElem?_eq_some_iff.1 he).1 0

theorem causal_trace
    {f : Tape F} (hf : f.WellFormed) :
    Trace.Causal f.trace := by
  intro s c hs r hr
  obtain ⟨p, e, k, he, hk, rfl, rfl⟩ := exists_of_getElem?_trace hf hs
  have hlt := lt_of_mem_slots hf he hk hr
  rw [← Layout.slot_zero_add]
  omega

end Tape

end SparseDiff
