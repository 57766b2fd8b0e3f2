import SparseDiff.Proofs.Evaluate
import SparseDiff.Proofs.Outcome
import SparseDiff.Proofs.Partials

/-!
# Adjoint sweeps

An adjoint sweep visits the cells of the full layout, readers before what they read. A cell is
skipped where the adjoints of all directions are zero, so what is done to one direction depends
on the others. Where adding a zero changes nothing (`Calculus.NeutralZero`) this makes no
difference: every direction does the steps of `pushAll` on its own array, and a checked sweep
refuses exactly where the walk of some direction meets an adjoint that is not finite
(`Tape.guarded_adjointSweep`). Over exact arithmetic these are the steps of `Cell.pull`, and no
sweep refuses (`Tape.gives_adjointSweep`).
-/

namespace SparseDiff

variable {F : Type}

/-- The cells of a segment with their slots. -/
def Segment.visits (s : Segment F) : List (Nat × Cell F) :=
  s.numbered.map fun (c, k) => (s.start + k, c)

/-- A loop over the segments of a tape is a loop over the visits of their cells. -/
theorem ends_visits
    {body : NodeId → Nat → Nat → Cell F → Run F Unit} {E : Failure → Prop}
    {I : List (Nat × Cell F) → Memory F → Prop}
    (hstep : ∀ node k s c visits m, I ((s, c) :: visits) m →
      Run.Ends (body node k s c) m (fun _ m' => I visits m') E)
    (segments : List (Segment F)) (m : Memory F) (h : I (segments.flatMap Segment.visits) m) :
    Run.Ends (segments.forM fun s => s.numbered.forM fun (c, k) => body s.node k (s.start + k) c) m
      (fun _ m' => I [] m') E := by
  refine Run.ends_forM (I := fun rest m => I (rest.flatMap Segment.visits) m)
    (fun s rest m hI => ?_) segments m h
  refine Run.ends_forM (I := fun items m =>
      I (items.map (fun (c, k) => (s.start + k, c)) ++ rest.flatMap Segment.visits) m)
    (fun item items m hI => hstep s.node item.2 (s.start + item.2) item.1 _ m hI) s.numbered m ?_
  exact (List.flatMap_cons ▸ hI : I (s.visits ++ rest.flatMap Segment.visits) m)

namespace Tape

variable {f : Tape F}

section Order

variable [Zero F]

/-- All cells with their slots in the full layout, in the order of an adjoint sweep. -/
def visits (f : Tape F) : List (Nat × Cell F) :=
  (f.segmentsAt f.full).reverse.flatMap Segment.visits

theorem visits_segmentAt
    (l : Layout) (e : Element F) (p : Nat) :
    (segmentAt l e p).visits =
      (List.range e.nnz).map fun k => (l.slot p k, e.instr.cellAt l.slot k) := by
  rw [Segment.visits, numbered_segmentAt, List.map_map]
  refine List.map_congr_left fun k _ => ?_
  exact Prod.ext (Layout.slot_zero_add l p k) rfl

theorem mem_visits_iff
    {v : Nat × Cell F} :
    v ∈ f.visits ↔ ∃ p e k, f.elements[p]? = some e ∧ k < e.nnz ∧
      v = (f.full.slot p k, e.instr.cellAt f.full.slot k) := by
  unfold visits
  rw [List.mem_flatMap]
  constructor
  · rintro ⟨s, hs, hv⟩
    obtain ⟨p, hp⟩ := List.mem_iff_getElem?.1 (List.mem_reverse.1 hs)
    rw [getElem?_segmentsAt] at hp
    obtain ⟨e, he, rfl⟩ := Option.map_eq_some_iff.1 hp
    rw [visits_segmentAt] at hv
    obtain ⟨k, hk, rfl⟩ := List.mem_map.1 hv
    exact ⟨p, e, k, he, List.mem_range.1 hk, rfl⟩
  · rintro ⟨p, e, k, he, hk, rfl⟩
    refine ⟨segmentAt f.full e p, ?_, ?_⟩
    · rw [List.mem_reverse, List.mem_iff_getElem?]
      exact ⟨p, by rw [getElem?_segmentsAt, he]; rfl⟩
    · rw [visits_segmentAt]
      exact List.mem_map.2 ⟨k, List.mem_range.2 hk, rfl⟩

/-- A visited cell is the cell of the trace at its slot. -/
theorem getElem?_trace_of_mem_visits
    (hf : f.WellFormed) {s : Nat} {c : Cell F} (h : (s, c) ∈ f.visits) :
    f.trace[s]? = some c := by
  obtain ⟨p, e, k, he, hk, heq⟩ := mem_visits_iff.1 h
  cases heq
  exact getElem?_trace hf he hk

theorem mem_visits_of_lt
    (hf : f.WellFormed) {s : Nat} (hs : s < f.full.size) :
    ∃ c, (s, c) ∈ f.visits := by
  obtain ⟨p, e, k, he, hk, rfl⟩ := exists_of_lt_full hf hs
  exact ⟨_, mem_visits_iff.2 ⟨p, e, k, he, hk, rfl⟩⟩

/-- Visited slots and the slots that are read there lie inside the full layout. -/
theorem lt_of_mem_visits
    (hf : f.WellFormed) {v : Nat × Cell F} (h : v ∈ f.visits) :
    v.1 < f.full.size ∧ ∀ r ∈ v.2.slots, r < v.1 := by
  have hs := getElem?_trace_of_mem_visits hf (s := v.1) (c := v.2) h
  have hlt := (List.getElem?_eq_some_iff.1 hs).1
  rw [length_trace hf] at hlt
  exact ⟨hlt, causal_trace hf v.1 v.2 hs⟩

theorem slots_lt_of_mem_visits
    (hf : f.WellFormed) {v : Nat × Cell F} (h : v ∈ f.visits) :
    ∀ r ∈ v.2.slots, r < f.full.size := by
  obtain ⟨hlt, hslots⟩ := lt_of_mem_visits hf h
  exact fun r hr => Nat.lt_trans (hslots r hr) hlt

theorem visits_inside
    (hf : f.WellFormed) :
    ∀ v ∈ f.visits, v.1 < f.full.size ∧ ∀ r ∈ v.2.slots, r < f.full.size :=
  fun _ hv => ⟨(lt_of_mem_visits hf hv).1, slots_lt_of_mem_visits hf hv⟩

/-- No cell reads its own slot. -/
theorem not_mem_slots_of_mem_visits
    (hf : f.WellFormed) {v : Nat × Cell F} (h : v ∈ f.visits) :
    v.1 ∉ v.2.slots := fun hmem =>
  Nat.lt_irrefl _ ((lt_of_mem_visits hf h).2 v.1 hmem)

/-- A slot is visited once, and after all cells that read it. -/
theorem readersFirst_visits
    (hf : f.WellFormed) :
    ReadersFirst f.visits := by
  unfold ReadersFirst visits
  rw [List.pairwise_flatMap]
  constructor
  · intro s hs
    obtain ⟨p, hp⟩ := List.mem_iff_getElem?.1 (List.mem_reverse.1 hs)
    rw [getElem?_segmentsAt] at hp
    obtain ⟨e, he, rfl⟩ := Option.map_eq_some_iff.1 hp
    rw [visits_segmentAt, List.pairwise_map]
    refine (List.pairwise_lt_range (n := e.nnz)).imp_of_mem fun {i j} hi hj hij => ?_
    refine ⟨fun hread => ?_, ?_⟩
    · have hlt := lt_of_mem_slots hf he (List.mem_range.1 hj) hread
      rw [← Layout.slot_zero_add] at hlt
      omega
    · simp only [Layout.slot]
      omega
  · rw [List.pairwise_reverse, List.pairwise_iff_getElem]
    intro q p hq hp hqp a ha b hb
    rw [length_segmentsAt] at hq hp
    rw [getElem_segmentsAt f f.full hp, visits_segmentAt] at ha
    rw [getElem_segmentsAt f f.full hq, visits_segmentAt] at hb
    obtain ⟨i, hi, rfl⟩ := List.mem_map.1 ha
    obtain ⟨j, hj, rfl⟩ := List.mem_map.1 hb
    have heq : f.elements[q]? = some f.elements[q] := Array.getElem?_eq_getElem hq
    have hbefore := full_slot_lt_slot hf hqp heq (List.mem_range.1 hj) hp i
    refine ⟨fun hread => ?_, fun hsame => by omega⟩
    have hlt := lt_of_mem_slots hf heq (List.mem_range.1 hj) hread
    rw [← Layout.slot_zero_add] at hbefore
    omega

end Order

end Tape

section Steps

section Arrays

variable [Zero F]

theorem getD_readFirst
    {n s d : Nat} (hd : d < n) {arrays : Array (Array F)} {acc : Array F}
    (hacc : arrays[d]? = some acc) :
    (readFirst n s arrays).getD d 0 = acc.getD s 0 := by
  simp [readFirst, List.getD_eq_getElem?_getD, hd, hacc]

/-- Adjoint `d` of a memory, slot by slot. -/
def Memory.adjoint (m : Memory F) (d : Nat) : Nat → F := fun p => (m.adj.getD d #[]).getD p 0

theorem mem_readFirst
    {n s d : Nat} (hd : d < n) {arrays : Array (Array F)} {acc : Array F}
    (hacc : arrays[d]? = some acc) :
    acc.getD s 0 ∈ readFirst n s arrays := by
  refine List.mem_map.2 ⟨acc, ?_, rfl⟩
  rw [List.mem_iff_getElem?]
  exact ⟨d, by simp [hd, hacc]⟩

/-- What is asked of all numbers in a slot is asked of every array. -/
theorem all_readFirst_iff
    {test : F → Bool} {n : Nat} {arrays : Array (Array F)} (hn : n ≤ arrays.size) (s : Nat) :
    (readFirst n s arrays).all test = true ↔
      ∀ d < n, test ((arrays.getD d #[]).getD s 0) = true := by
  rw [readFirst, Tape.take_toList_eq_map arrays #[] hn, List.map_map, List.all_eq_true]
  simp

/-- Numbers that are all zero are all finite. -/
theorem readFirst_test_iff
    [Add F] [Calculus F] [Calculus.NeutralZero F] {nadj : Nat} {arrays : Array (Array F)}
    (hnadj : nadj ≤ arrays.size) (s : Nat) :
    ((readFirst nadj s arrays).all Calculus.isZero = true ∨
        (readFirst nadj s arrays).all Calculus.isFinite = true) ↔
      ∀ d < nadj, Calculus.isFinite ((arrays.getD d #[]).getD s 0) = true := by
  rw [← all_readFirst_iff hnadj, or_iff_right_iff_imp]
  intro hzero
  exact List.all_eq_true.2 fun x hx =>
    Calculus.NeutralZero.isFinite_of_isZero x (List.all_eq_true.1 hzero x hx)

/-- Where the test finds only zeros, there are only zeros. -/
theorem eq_zero_of_all_isZero
    [Calculus F] [Calculus.Exact F] {n s : Nat} {arrays : Array (Array F)}
    (h : (readFirst n s arrays).all Calculus.isZero = true) {d : Nat} (hd : d < n)
    {acc : Array F} (hacc : arrays[d]? = some acc) :
    acc.getD s 0 = 0 :=
  Calculus.Exact.eq_zero _ (List.all_eq_true.1 h _ (mem_readFirst hd hacc))

variable [Add F] [Mul F] [Calculus F]

namespace Cell

/-- A step of an adjoint sweep on the adjoints in one array. -/
def adjointStep (w : Array F) (s : Nat) (c : Cell F) (acc : Array F) : Array F :=
  if c.isInput then acc
  else c.backward w (w.getD s 0) (acc.getD s 0) (acc.setIfInBounds s 0)

@[simp] theorem size_adjointStep
    (w : Array F) (s : Nat) (c : Cell F) (acc : Array F) :
    (c.adjointStep w s acc).size = acc.size := by
  unfold adjointStep
  split <;> simp

/-- The cell of an input leaves all arrays as they are. -/
theorem updateFirst_adjointStep_input
    {c : Cell F} (hinput : c.isInput = true) (n s : Nat) (w : Array F)
    (arrays : Array (Array F)) :
    updateFirst n (fun _ => c.adjointStep w s) arrays = arrays := by
  have hstep : (fun (_ : Nat) => c.adjointStep w s) = fun _ acc => acc := by
    funext _ acc
    simp [adjointStep, hinput]
  rw [hstep, updateFirst_id]

/-- The adjoints are read, then cleared, then they contribute. -/
theorem updateFirst_adjointStep
    {c : Cell F} (hinput : c.isInput = false) (n s : Nat) (w : Array F)
    (arrays : Array (Array F)) :
    updateFirst n (fun _ => c.adjointStep w s) arrays =
      updateFirst n
        (fun d acc => c.backward w (w.getD s 0) ((readFirst n s arrays).getD d 0) acc)
        (clearFirst n s arrays) := by
  rw [clearFirst, updateFirst_updateFirst]
  refine updateFirst_congr fun d hd acc hacc => ?_
  simp only [adjointStep, hinput, getD_readFirst hd hacc, Bool.false_eq_true, if_false]

/-- One cell of an adjoint sweep on the first arrays; it is skipped where all adjoints are zero. -/
def adjointAll (nadj : Nat) (w : Array F) (s : Nat) (c : Cell F) (arrays : Array (Array F)) :
    Array (Array F) :=
  if c.isInput = false ∧ (readFirst nadj s arrays).all Calculus.isZero = true then
    clearFirst nadj s arrays
  else
    updateFirst nadj (fun _ => c.adjointStep w s) arrays

/-- What the check of a cell asks of the numbers that it takes out. -/
def PassesAdjoints (c : Cell F) (lams : List F) : Prop :=
  c.isInput = false → lams.all Calculus.isZero = true ∨ lams.all Calculus.isFinite = true

section Guarded

variable {c : Cell F} {s : Nat} {m : Memory F}

/-- What a cell does, and how it refuses. -/
theorem ends_adjoint
    (hs : s < m.values.size) (hslots : ∀ r ∈ c.slots, r < m.values.size) (check : Bool)
    (op : String) (nadj : Nat) (node : NodeId) (k : Nat) :
    Run.Ends (c.adjoint check op nadj node k s) m
      (fun _ m' => m' = { m with adj := c.adjointAll nadj m.values s m.adj } ∧
        (check = true → c.PassesAdjoints (readFirst nadj s m.adj)))
      fun e => check = true ∧ ¬ c.PassesAdjoints (readFirst nadj s m.adj) ∧
        e = .rejected (.numeric op node k) := by
  unfold Cell.adjoint adjointAll PassesAdjoints
  cases hinput : c.isInput with
  | true =>
      rw [updateFirst_adjointStep_input hinput]
      exact ⟨by simp, fun _ h => by simp at h⟩
  | false =>
      simp only [Bool.false_eq_true, if_false, true_and, forall_const]
      rw [Run.ends_bind, Run.ends_requireSlots (by simpa using hs), Run.ends_bind, Run.ends_get,
        Run.ends_bind, Run.ends_modify]
      by_cases hzero : (readFirst nadj s m.adj).all Calculus.isZero = true
      · rw [if_pos hzero, if_pos hzero]
        exact ⟨rfl, fun _ => .inl hzero⟩
      · rw [if_neg hzero, if_neg hzero, updateFirst_adjointStep hinput, checkAdjoints]
        by_cases hbad : (check && !(readFirst nadj s m.adj).all Calculus.isFinite) = true
        · rw [if_pos hbad]
          rw [Bool.and_eq_true, Bool.not_eq_true'] at hbad
          exact ⟨hbad.1, by simp [hzero, hbad.2], rfl⟩
        · rw [if_neg hbad, pure_bind, Run.ends_bind, Run.ends_requireSlots (by exact hslots)]
          refine ⟨rfl, fun hon => .inr ?_⟩
          simpa [hon] using hbad

theorem guarded_adjoint
    (hs : s < m.values.size) (hslots : ∀ r ∈ c.slots, r < m.values.size) (check : Bool)
    (op : String) (nadj : Nat) (node : NodeId) (k : Nat) :
    Run.Guarded check (c.PassesAdjoints (readFirst nadj s m.adj))
      (c.adjoint check op nadj node k s) m
      fun _ m' => m' = { m with adj := c.adjointAll nadj m.values s m.adj } :=
  (ends_adjoint hs hslots check op nadj node k).imp (fun _ _ h => h) fun _ he =>
    ⟨he.1, he.2.1, op, node, k, he.2.2⟩

end Guarded

section NeutralZero

variable [Calculus.NeutralZero F] {c : Cell F}

/-- A zero adjoint adds nothing. -/
theorem backward_of_isZero
    {lam : F} (hlam : Calculus.isZero lam = true) (w : Array F) (r : F) (acc : Array F) :
    c.backward w r lam acc = acc := by
  have hadd := fun x => Calculus.NeutralZero.add_isZero x lam hlam
  have hseed : ∀ d : F, seedMul d lam = 0 := fun d => if_pos hlam
  have hzero := Calculus.NeutralZero.add_zero (F := F)
  cases c with
  | input i k => rfl
  | constant v => rfl
  | unary op a => simp [backward, hseed, hzero]
  | binary op a b => simp [backward, hseed, hzero]
  | select tol cond source => simp [backward, hadd]
  | copy source => simp [backward, hadd]

/-- Where all adjoints are zero, they are cleared and nothing is added. -/
theorem updateFirst_adjointStep_of_isZero
    (hinput : c.isInput = false) {n s : Nat} {arrays : Array (Array F)}
    (hzero : (readFirst n s arrays).all Calculus.isZero = true) (w : Array F) :
    updateFirst n (fun _ => c.adjointStep w s) arrays = clearFirst n s arrays := by
  refine updateFirst_congr fun d hd acc hacc => ?_
  have hlam := List.all_eq_true.1 hzero _ (mem_readFirst hd hacc)
  rw [adjointStep, hinput, if_neg Bool.false_ne_true, backward_of_isZero hlam]

/-- A cell does the same to every direction, whether or not it is skipped. -/
theorem adjointAll_eq
    (c : Cell F) (nadj : Nat) (w : Array F) (s : Nat) (arrays : Array (Array F)) :
    c.adjointAll nadj w s arrays = updateFirst nadj (fun _ => c.adjointStep w s) arrays := by
  unfold adjointAll
  split
  · next h => exact (updateFirst_adjointStep_of_isZero h.1 h.2 w).symm
  · rfl

end NeutralZero

end Cell

/-- The steps of an adjoint sweep on one array. -/
def pushAll (w : Array F) (visits : List (Nat × Cell F)) (acc : Array F) : Array F :=
  visits.foldl (fun acc v => v.2.adjointStep w v.1 acc) acc

@[simp] theorem size_pushAll
    (w : Array F) (visits : List (Nat × Cell F)) (acc : Array F) :
    (pushAll w visits acc).size = acc.size := by
  induction visits generalizing acc with
  | nil => rfl
  | cons v visits ih => exact (ih _).trans (Cell.size_adjointStep ..)

/-- Every cell of a walk takes out an adjoint that is finite. -/
def FiniteWalk (w : Array F) : List (Nat × Cell F) → Array F → Prop
  | [], _ => True
  | (s, c) :: visits, acc =>
      (c.isInput = false → Calculus.isFinite (acc.getD s 0) = true) ∧
        FiniteWalk w visits (c.adjointStep w s acc)

/--
The state of an adjoint sweep with `visits` still to come: they will turn the adjoints into
`final`, they pass exactly if `good` holds, and nothing but the adjoints has changed.
-/
structure Pushing (check : Bool) (nadj : Nat) (good : Prop) (before : Memory F)
    (final : Array (Array F)) (visits : List (Nat × Cell F)) (m : Memory F) : Prop where
  same : m = { before with adj := m.adj }
  room : nadj ≤ m.adj.size
  inside : ∀ v ∈ visits, v.1 < before.values.size ∧ ∀ r ∈ v.2.slots, r < before.values.size
  adjoint : updateFirst nadj (fun _ => pushAll before.values visits) m.adj = final
  test : check = true →
    (good ↔ ∀ d < nadj, FiniteWalk before.values visits (m.adj.getD d #[]))

section Sweep

variable [Calculus.NeutralZero F] {check : Bool} {nadj : Nat} {good : Prop} {before : Memory F}
  {final : Array (Array F)}

theorem Pushing.step
    {s : Nat} {c : Cell F} {visits : List (Nat × Cell F)} {m : Memory F}
    (h : Pushing check nadj good before final ((s, c) :: visits) m) (op : String) (node : NodeId)
    (k : Nat) :
    Run.Ends (c.adjoint check op nadj node k s) m
      (fun _ m' => Pushing check nadj good before final visits m')
      fun e => check = true ∧ ¬ good ∧ e.IsNumeric := by
  obtain ⟨hs, hslots⟩ := h.inside (s, c) (List.mem_cons_self ..)
  have hvalues : m.values = before.values := by rw [h.same]
  rw [← hvalues] at hs hslots
  have htest := readFirst_test_iff h.room s
  refine Run.Ends.imp (Cell.guarded_adjoint hs hslots check op nadj node k)
    (fun _ m' hm' => ?_) fun e he => ?_
  · obtain ⟨rfl, hpassed⟩ := hm'
    rw [Cell.adjointAll_eq, hvalues]
    have hget : ∀ d < nadj, (updateFirst nadj (fun _ => c.adjointStep before.values s)
        m.adj).getD d #[] = c.adjointStep before.values s (m.adj.getD d #[]) :=
      fun d hd => getD_updateFirst hd (Nat.lt_of_lt_of_le hd h.room) _
    refine ⟨?_, ?_, fun v hv => h.inside v (List.mem_cons_of_mem _ hv), ?_, fun hon => ?_⟩
    · rw [h.same]
    · simpa using h.room
    · rw [← h.adjoint, updateFirst_updateFirst]
      rfl
    · rw [h.test hon]
      refine forall₂_congr fun d hd => ?_
      rw [hget d hd, FiniteWalk]
      exact and_iff_right fun hinput => htest.1 (hpassed hon hinput) d hd
  · obtain ⟨hon, hbad, hnumeric⟩ := he
    refine ⟨hon, fun hgood => hbad fun hinput => htest.2 fun d hd => ?_, hnumeric⟩
    exact ((h.test hon).1 hgood d hd).1 hinput

namespace Tape

variable {f : Tape F}

/-- An adjoint sweep walks in every direction, and refuses exactly where some walk fails. -/
theorem guarded_adjointSweep
    (hf : f.WellFormed) {m : Memory F} (hroom : f.full.size ≤ m.values.size)
    (hnadj : nadj ≤ m.adj.size) (check : Bool) (op : String) :
    Run.Guarded check (∀ d < nadj, FiniteWalk m.values f.visits (m.adj.getD d #[]))
      (adjointSweep check op nadj (f.segmentsAt f.full)) m
      fun _ m' => m' =
        { m with adj := updateFirst nadj (fun _ => pushAll m.values f.visits) m.adj } := by
  have hstart : Pushing check nadj (∀ d < nadj, FiniteWalk m.values f.visits (m.adj.getD d #[])) m
      (updateFirst nadj (fun _ => pushAll m.values f.visits) m.adj) f.visits m := by
    refine ⟨rfl, hnadj, fun v hv => ?_, rfl, fun _ => Iff.rfl⟩
    obtain ⟨hlt, hslots⟩ := lt_of_mem_visits hf hv
    exact ⟨by omega, fun r hr => by have := hslots r hr; omega⟩
  refine Run.Ends.imp (ends_visits (fun node k s c visits m' hI => Pushing.step hI op node k)
    (f.segmentsAt f.full).reverse m hstart) (fun _ m' hend => ⟨?_, fun hon => ?_⟩) fun _ he => he
  · have hadj := hend.adjoint
    have hnone : (fun (_ : Nat) => pushAll m.values ([] : List (Nat × Cell F))) =
        fun _ acc => acc := rfl
    rw [hnone, updateFirst_id] at hadj
    rw [← hadj]
    exact hend.same
  · exact (hend.test hon).2 fun d _ => trivial

end Tape

end Sweep

end Arrays

section Exact

variable [CommRing F] [Calculus F] [Calculus.Exact F]

namespace Cell

theorem getD_adjointStep
    {c : Cell F} {s : Nat} {acc : Array F} (hs : s < acc.size)
    (hslots : ∀ r ∈ c.slots, r < acc.size) (w : Array F) (p : Nat) :
    (c.adjointStep w s acc).getD p 0 = c.pull w (acc.getD · 0) s p := by
  cases hinput : c.isInput with
  | true => rw [pull_input hinput, adjointStep, if_pos hinput]
  | false =>
      rw [pull_of_not_input hinput, adjointStep, hinput, if_neg Bool.false_ne_true,
        getD_backward (by simpa using hslots)]
      by_cases hp : p = s
      · rw [hp, getD_setIfInBounds_self hs, if_pos rfl]
      · rw [getD_setIfInBounds_ne hp, if_neg hp]

end Cell

/-- Over exact numbers the steps on an array are those on its numbers. -/
theorem getD_pushAll
    {w : Array F} {visits : List (Nat × Cell F)} {acc : Array F}
    (hinside : ∀ v ∈ visits, v.1 < acc.size ∧ ∀ r ∈ v.2.slots, r < acc.size) (p : Nat) :
    (pushAll w visits acc).getD p 0 = pullAll w visits (acc.getD · 0) p := by
  induction visits generalizing acc with
  | nil => rfl
  | cons v visits ih =>
      obtain ⟨hs, hslots⟩ := hinside v (List.mem_cons_self ..)
      have hstep : ((v.2.adjointStep w v.1 acc).getD · 0) = v.2.pull w (acc.getD · 0) v.1 := by
        funext q
        exact Cell.getD_adjointStep hs hslots w q
      have hrest : (pushAll w visits (v.2.adjointStep w v.1 acc)).getD p 0 = _ :=
        ih fun u hu => by simpa using hinside u (List.mem_cons_of_mem _ hu)
      rw [hstep] at hrest
      exact hrest

/-- Exact numbers pass every test. -/
theorem finiteWalk_of_exact
    (w : Array F) (visits : List (Nat × Cell F)) (acc : Array F) :
    FiniteWalk w visits acc := by
  induction visits generalizing acc with
  | nil => trivial
  | cons v visits ih => exact ⟨fun _ => Calculus.Exact.isFinite _, ih _⟩

namespace Tape

variable {f : Tape F} {nadj : Nat}

/-- An adjoint sweep over the full layout ends with the adjoints of the whole walk. -/
theorem gives_adjointSweep
    (hf : f.WellFormed) {m : Memory F} (hm : m.WellSized) (hwork : f.full.size ≤ m.sizes.work)
    (hnadj : nadj ≤ m.sizes.nadj) (check : Bool) (op : String) :
    ∃ m', Run.Gives (adjointSweep check op nadj (f.segmentsAt f.full)) m () m' ∧
      m'.WellSized ∧ m'.sizes = m.sizes ∧ m'.values = m.values ∧
      ∀ d < nadj, m'.adjoint d = pullAll m.values f.visits (m.adjoint d) := by
  have hsize : nadj ≤ m.adj.size := by
    rw [hm.adj.1]
    exact hnadj
  obtain ⟨_, m', hgives, rfl⟩ := (guarded_adjointSweep hf (by rw [hm.values]; exact hwork) hsize
    check op).gives fun d _ => finiteWalk_of_exact ..
  refine ⟨_, hgives, ⟨hm.values, hm.fwd, hm.adj.updateFirst _ fun _ _ => size_pushAll ..,
    hm.adjFwd⟩, rfl, rfl, fun d hd => ?_⟩
  funext p
  rw [Memory.adjoint, getD_updateFirst hd (by omega)]
  refine getD_pushAll (fun v hv => ?_) p
  obtain ⟨hs, hslots⟩ := visits_inside hf v hv
  rw [hm.adj.size_getD (by omega)]
  exact ⟨by omega, fun r hr => by have := hslots r hr; omega⟩

end Tape

end Exact

end Steps

end SparseDiff
