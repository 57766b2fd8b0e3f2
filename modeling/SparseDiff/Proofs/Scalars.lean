import SparseDiff.Proofs.Seeds

/-!
# Extension of scalars

A tape can be run over a larger number type: `Tape.map φ` reads the constants and tolerances of
a tape through `φ` and keeps everything else. Layouts, slots and seeds are those of the tape,
and its cells are the cells of the tape, one by one (`Tape.visits_map`). To relate two runs it
is therefore enough to relate cells (`Tape.slot_induction`).
-/

namespace SparseDiff

variable {F G : Type}

section Maps

variable (φ : F → G)

def NodeKind.map : NodeKind F → NodeKind G
  | symbolic name => symbolic name
  | constant values => constant (values.map φ)
  | unary op => unary op
  | binary op => binary op
  | scalarMatrix op => scalarMatrix op
  | matrixScalar op => matrixScalar op
  | ifElse tol => ifElse (φ tol)
  | gather kind map => gather kind map

def Node.map (n : Node F) : Node G := ⟨n.kind.map φ, n.operands, n.pattern⟩

def Graph.map (g : Graph F) : Graph G := ⟨g.nodes.map (Node.map φ)⟩

def Instr.map : Instr F → Instr G
  | input number listed => input number listed
  | constant values => constant (values.map φ)
  | unary op a => unary op a
  | binary op a b => binary op a b
  | ifElse tol cond branch => ifElse (φ tol) cond branch
  | gather kind parts moves => gather kind parts moves

def Element.map (e : Element F) : Element G := ⟨e.node, e.instr.map φ, e.nnz⟩

def Cell.map : Cell F → Cell G
  | input number nonzero => input number nonzero
  | constant value => constant (φ value)
  | unary op a => unary op a
  | binary op a b => binary op a b
  | select tol cond source => select (φ tol) cond source
  | copy source => copy source

def Segment.map (s : Segment F) : Segment G := ⟨s.node, s.start, s.cells.map (Cell.map φ)⟩

/-- The tape over another number type; its graph, layouts and options are kept. -/
def Tape.map (f : Tape F) : Tape G :=
  { graph := f.graph.map φ
    elements := f.elements.map (Element.map φ)
    outputs := f.outputs
    inputPatterns := f.inputPatterns
    outputPatterns := f.outputPatterns
    full := f.full
    compact := f.compact
    config := f.config }

@[simp] theorem Instr.isInput_map
    (instr : Instr F) :
    (instr.map φ).isInput = instr.isInput := by
  cases instr <;> rfl

@[simp] theorem Instr.reads_map
    (instr : Instr F) :
    (instr.map φ).reads = instr.reads := by
  cases instr <;> rfl

@[simp] theorem Cell.isInput_map
    (c : Cell F) :
    (c.map φ).isInput = c.isInput := by
  cases c <;> rfl

variable {φ}

theorem getElem?_map_elements
    {elements : Array (Element F)} {p : Nat} {e : Element F} (he : elements[p]? = some e) :
    (elements.map (Element.map φ))[p]? = some (e.map φ) := by
  simp [he]

theorem Operand.Fits.map
    {elements : Array (Element F)} {p n : Nat} {a : Operand} (h : a.Fits elements p n) :
    a.Fits (elements.map (Element.map φ)) p n := by
  obtain ⟨hbefore, e, he, hfits⟩ := h
  exact ⟨hbefore, e.map φ, getElem?_map_elements he, hfits⟩

theorem Instr.Fits.map
    {elements : Array (Element F)} {p n : Nat} {instr : Instr F} (h : instr.Fits elements p n) :
    (instr.map φ).Fits (elements.map (Element.map φ)) p n := by
  cases h with
  | input => exact .input
  | constant hsize => exact .constant (by rw [Array.size_map, hsize])
  | unary ha => exact .unary ha.map
  | binary ha hb => exact .binary ha.map hb.map
  | ifElse hcond hbefore hbranch =>
      obtain ⟨e, he, hle⟩ := hbranch
      exact .ifElse hcond.map hbefore ⟨e.map φ, getElem?_map_elements he, hle⟩
  | gather hparts hsize hmoves =>
      refine .gather hparts hsize fun k q j hk => ?_
      obtain ⟨hmem, e, he, hj⟩ := hmoves k q j hk
      exact ⟨hmem, e.map φ, getElem?_map_elements he, hj⟩

namespace Tape

variable {f : Tape F}

/-- An element of the mapped tape comes from one of the tape. -/
theorem exists_of_getElem?_map
    {p : Nat} {e' : Element G} (he : (f.map φ).elements[p]? = some e') :
    ∃ e, f.elements[p]? = some e ∧ e.map φ = e' := by
  have hget : f.elements[p]?.map (Element.map φ) = some e' := by
    simpa [Tape.map] using he
  exact Option.map_eq_some_iff.1 hget

theorem map_span_elements
    (f : Tape F) (φ : F → G) :
    (f.map φ).elements.toList.map span = f.elements.toList.map span := by
  simp [Tape.map, span, Element.map, Function.comp_def]

theorem WellFormed.map
    (hf : f.WellFormed) (φ : F → G) :
    (f.map φ).WellFormed := by
  refine ⟨fun p e' he => ?_, fun p e' he => ?_, fun i p hi => ?_, hf.length_outputs,
    fun o q p hq hp => ?_, ?_, ?_⟩
  · obtain ⟨e, hget, rfl⟩ := exists_of_getElem?_map he
    exact (hf.fits p e hget).map
  · obtain ⟨e, hget, rfl⟩ := exists_of_getElem?_map he
    exact (Instr.isInput_map φ e.instr).symm ▸ hf.isInput_iff p e hget
  · obtain ⟨e, he, hnnz⟩ := hf.input i p hi
    exact ⟨e.map φ, getElem?_map_elements he, hnnz⟩
  · obtain ⟨e, he, hnnz⟩ := hf.output o q p hq hp
    exact ⟨e.map φ, getElem?_map_elements he, hnnz⟩
  · rw [map_span_elements]
    exact hf.full
  · rw [map_span_elements]
    exact hf.compact

end Tape

end Maps

section Cells

variable [Zero F] [Zero G] {φ : F → G} (hφ : φ 0 = 0)

include hφ

theorem cellAt_map
    (slot : Nat → Nat → Nat) (k : Nat) (instr : Instr F) :
    (instr.map φ).cellAt slot k = (instr.cellAt slot k).map φ := by
  cases instr with
  | constant values =>
      have hget : (values.map φ).getD k 0 = φ (values.getD k 0) := by
        rw [Array.getD_eq_getD_getElem?, Array.getD_eq_getD_getElem?, Array.getElem?_map]
        cases values[k]? <;> simp [hφ]
      simp [Instr.map, Instr.cellAt, Cell.map, hget]
  | _ => rfl

namespace Tape

theorem segmentAt_map
    (l : Layout) (e : Element F) (p : Nat) :
    segmentAt l (e.map φ) p = (segmentAt l e p).map φ := by
  simp [segmentAt, Segment.map, Element.map, cellAt_map hφ, Function.comp_def]

theorem segmentsAt_map
    (f : Tape F) (l : Layout) :
    (f.map φ).segmentsAt l = (f.segmentsAt l).map (Segment.map φ) := by
  refine List.ext_getElem? fun p => ?_
  rw [List.getElem?_map, getElem?_segmentsAt, getElem?_segmentsAt]
  cases he : f.elements[p]? with
  | none => simp [Tape.map, he]
  | some e => simp [Tape.map, he, segmentAt_map hφ]

/-- The cells of the mapped tape are the cells of the tape, and are visited in the same order. -/
theorem visits_map
    (f : Tape F) :
    (f.map φ).visits = f.visits.map fun v => (v.1, v.2.map φ) := by
  have hvisits : ∀ s : Segment F, (s.map φ).visits = s.visits.map fun v => (v.1, v.2.map φ) := by
    intro s
    simp [Segment.visits, Segment.numbered, Segment.map, List.zipIdx_map, Function.comp_def]
  rw [visits, show (f.map φ).full = f.full from rfl, segmentsAt_map hφ, ← List.map_reverse,
    List.flatMap_map, visits, List.map_flatMap]
  simp only [hvisits]

end Tape

end Cells

/-- Seeds that are read through `φ` stand at the same slots. -/
theorem Tape.seedVector_map
    {R S : Type} [CommRing R] [CommRing S] (φ : R →+* S) (f : Tape R) (os : List Nat)
    (v : Nat → Nat → R) (p : Nat) :
    (f.map φ).seedVector os (fun o k => φ (v o k)) p = φ (f.seedVector os v p) := by
  simp only [seedVector, map_list_sum, List.map_map, Function.comp_def, map_sum, apply_ite φ,
    map_zero]
  rfl

/-- Lists of pairs, item by item. -/
def zipLists {F G : Type} (pair : F → F → G) (xs us : List (List F)) : List (List G) :=
  List.zipWith (List.zipWith pair) xs us

section Pairs

variable {F G : Type} {patterns : List Pattern} {xs us : List (List F)}

theorem FitLists.zipLists
    (hx : FitLists patterns xs) (pair : F → F → G) (hu : FitLists patterns us) :
    FitLists patterns (zipLists pair xs us) := by
  induction hx generalizing us with
  | nil =>
      cases hu
      exact .nil
  | cons hlength _ ih =>
      cases hu with
      | cons hlength' hu' => exact .cons (by simp [hlength, hlength']) (ih hu')

variable [Zero F] [Zero G] {pair : F → F → G}

theorem getD_zipWith
    (hpair : pair 0 0 = 0) {xs us : List F} (h : xs.length = us.length) (k : Nat) :
    (List.zipWith pair xs us).getD k 0 = pair (xs.getD k 0) (us.getD k 0) := by
  simp only [List.getD_eq_getElem?_getD, List.getElem?_zipWith]
  rcases Nat.lt_or_ge k xs.length with hk | hk
  · have hk' : k < us.length := by omega
    simp [hk, hk']
  · have hk' : us.length ≤ k := by omega
    simp [hk, hk', hpair]

theorem Tape.seedOf_zipLists
    (hpair : pair 0 0 = 0) (hx : FitLists patterns xs) (hu : FitLists patterns us) (i k : Nat) :
    seedOf (zipLists pair xs us) i k = pair (seedOf xs i k) (seedOf us i k) := by
  rcases Nat.lt_or_ge i patterns.length with hi | hi
  · obtain ⟨x, hxi, hxlength⟩ := getElem?_of_forall₂_left hx (List.getElem?_eq_getElem hi)
    obtain ⟨u, hui, hulength⟩ := getElem?_of_forall₂_left hu (List.getElem?_eq_getElem hi)
    have hget : (zipLists pair xs us)[i]? = some (List.zipWith pair x u) := by
      simp [zipLists, List.getElem?_zipWith, hxi, hui]
    simp only [seedOf, getD_seedAt hget, getD_seedAt hxi, getD_seedAt hui]
    exact getD_zipWith hpair (hxlength.trans hulength.symm) k
  · have hnone : ∀ {R : Type} [Zero R] {lists : List (List R)}, FitLists patterns lists →
        seedOf lists i k = 0 := by
      intro R _ lists hfit
      have hlength := hfit.length_eq
      simp [seedOf, seedAt, List.getElem?_eq_none (show lists.length ≤ i by omega)]
    rw [hnone (hx.zipLists pair hu), hnone hx, hnone hu, hpair]

end Pairs

namespace Tape

/-- What holds of a slot if it holds of the slots that its cell reads holds of all slots. -/
theorem slot_induction
    [Zero F] {f : Tape F} (hf : f.WellFormed) {P : Nat → Prop}
    (h : ∀ (s : Nat) (c : Cell F), (s, c) ∈ f.visits → (∀ r ∈ c.slots, P r) → P s) :
    ∀ s < f.full.size, P s := by
  intro s
  induction s using Nat.strongRecOn with
  | ind s ih =>
      intro hs
      obtain ⟨c, hc⟩ := mem_visits_of_lt hf hs
      refine h s c hc fun r hr => ?_
      have hlt : r < s := (lt_of_mem_visits hf hc).2 r hr
      exact ih r hlt (by omega)

/-- A value of the mapped tape is the value of the mapped cell. -/
theorem getD_valueArray_map
    [Zero F] [Zero G] [Calculus G] {φ : F → G} (hφ : φ 0 = 0) {f : Tape F} (hf : f.WellFormed)
    {s : Nat} {c : Cell F} (hc : (s, c) ∈ f.visits) (ys : List (List G)) :
    ((f.map φ).valueArray ys).getD s 0 =
      (c.map φ).eval (seedAt (ys.map List.toArray)) ((f.map φ).valueArray ys) := by
  have hmem : (s, c.map φ) ∈ (f.map φ).visits := by
    rw [visits_map hφ]
    exact List.mem_map.2 ⟨(s, c), hc, rfl⟩
  exact getD_valueArray (hf.map φ) ys (getElem?_trace_of_mem_visits (hf.map φ) hmem)

end Tape

end SparseDiff
