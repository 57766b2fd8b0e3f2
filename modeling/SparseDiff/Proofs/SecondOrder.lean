import SparseDiff.Proofs.SecondPartials

/-!
# Second-order sweeps

A second-order sweep visits the cells in the order of an adjoint sweep and does the steps of
`Cell.pull` on one adjoint and those of `Cell.pullTangent` on the adjoint tangent of every
direction; here too the test for zeros leaves out steps that would change nothing. So it ends
with the adjoint tangents of the whole walk (`Tape.gives_secondOrderSweep`).
-/

namespace SparseDiff

variable {F : Type}

section Steps

section Arrays

variable [Zero F]

/-- Adjoint tangent `d` of a memory, slot by slot. -/
def Memory.adjointTangent (m : Memory F) (d : Nat) : Nat → F :=
  fun p => (m.adjFwd.getD d #[]).getD p 0

/-- The adjoint that a step reads is that of the first array. -/
theorem getD_readFirst_one
    (m : Memory F) (s : Nat) :
    (readFirst 1 s m.adj).getD 0 0 = m.adjoint 0 s := by
  cases hacc : m.adj[0]? with
  | none => simp [readFirst, Memory.adjoint, Array.getD_eq_getD_getElem?, hacc,
      List.getD_eq_getElem?_getD]
  | some acc =>
      rw [getD_readFirst Nat.one_pos hacc]
      simp [Memory.adjoint, Array.getD_eq_getD_getElem?, hacc]

variable [Add F] [Mul F] [Calculus F]

namespace Cell

@[simp] theorem size_backwardTangent
    (w : Array F) (r lam : F) (t : Array F) (dlam : F) (acc : Array F) (c : Cell F) :
    (c.backwardTangent w r lam t dlam acc).size = acc.size := by
  cases c with
  | select tol cond source =>
      simp only [backwardTangent]
      split <;> simp
  | _ => simp [backwardTangent]

/-- A step of a second-order sweep on the adjoint tangents in one array; the adjoint is `lam`. -/
def tangentStep (w : Array F) (s : Nat) (lam : F) (t : Array F) (c : Cell F) (acc : Array F) :
    Array F :=
  if c.isInput then acc
  else c.backwardTangent w (w.getD s 0) lam t (acc.getD s 0) (acc.setIfInBounds s 0)

@[simp] theorem size_tangentStep
    (w : Array F) (s : Nat) (lam : F) (t : Array F) (c : Cell F) (acc : Array F) :
    (c.tangentStep w s lam t acc).size = acc.size := by
  unfold tangentStep
  split <;> simp

variable {c : Cell F} {s : Nat}

theorem updateFirst_tangentStep_input
    (hinput : c.isInput = true) (n : Nat) (w : Array F) (lam : F) (ts : Nat → Array F)
    (arrays : Array (Array F)) :
    updateFirst n (fun d => c.tangentStep w s lam (ts d)) arrays = arrays := by
  have hstep : (fun (d : Nat) => c.tangentStep w s lam (ts d)) = fun _ acc => acc := by
    funext d acc
    simp [tangentStep, hinput]
  rw [hstep, updateFirst_id]

/-- The adjoint tangents are read, then cleared, then they contribute. -/
theorem updateFirst_tangentStep
    (hinput : c.isInput = false) (n : Nat) (w : Array F) (lam : F) (ts : Nat → Array F)
    (arrays : Array (Array F)) :
    updateFirst n (fun d => c.tangentStep w s lam (ts d)) arrays =
      updateFirst n
        (fun d acc =>
          c.backwardTangent w (w.getD s 0) lam (ts d) ((readFirst n s arrays).getD d 0) acc)
        (clearFirst n s arrays) := by
  rw [clearFirst, updateFirst_updateFirst]
  refine updateFirst_congr fun d hd acc hacc => ?_
  simp only [tangentStep, hinput, getD_readFirst hd hacc, Bool.false_eq_true, if_false]

/-- One cell of a second-order sweep; it is skipped where everything it would take is zero. -/
def secondOrderStep (nfwd s : Nat) (c : Cell F) (m : Memory F) : Memory F :=
  if c.isInput = false ∧
      (readFirst 1 s m.adj ++ readFirst nfwd s m.adjFwd).all Calculus.isZero = true then
    { m with adj := clearFirst 1 s m.adj, adjFwd := clearFirst nfwd s m.adjFwd }
  else
    { m with
      adj := updateFirst 1 (fun _ => c.adjointStep m.values s) m.adj
      adjFwd := updateFirst nfwd
        (fun d => c.tangentStep m.values s (m.adjoint 0 s) (m.fwd.getD d #[])) m.adjFwd }

/-- The first array is the only one that is updated. -/
theorem updateFirst_adjointStep_one
    (hinput : c.isInput = false) (m : Memory F) :
    updateFirst 1 (fun _ => c.adjointStep m.values s) m.adj =
      updateFirst 1
        (fun _ acc => c.backward m.values (m.values.getD s 0)
          ((readFirst 1 s m.adj).getD 0 0) acc) (clearFirst 1 s m.adj) := by
  rw [updateFirst_adjointStep hinput]
  exact updateFirst_congr fun d hd acc _ => by rw [Nat.lt_one_iff.1 hd]

/-- What a cell does, and how it refuses. -/
theorem ends_secondOrder
    {m : Memory F} (hs : s < m.values.size) (hslots : ∀ r ∈ c.slots, r < m.values.size)
    (check : Bool) (op : String) (nfwd : Nat) (node : NodeId) (k : Nat) :
    Run.Ends (c.secondOrder check op nfwd node k s) m
      (fun _ m' => m' = c.secondOrderStep nfwd s m ∧
        (check = true → c.PassesAdjoints (readFirst 1 s m.adj ++ readFirst nfwd s m.adjFwd)))
      fun e => check = true ∧
        ¬ c.PassesAdjoints (readFirst 1 s m.adj ++ readFirst nfwd s m.adjFwd) ∧
        e = .rejected (.numeric op node k) := by
  unfold Cell.secondOrder secondOrderStep PassesAdjoints
  cases hinput : c.isInput with
  | true =>
      rw [updateFirst_adjointStep_input hinput, updateFirst_tangentStep_input hinput]
      exact ⟨by simp, fun _ h => by simp at h⟩
  | false =>
      simp only [Bool.false_eq_true, if_false, true_and, forall_const]
      rw [Run.ends_bind, Run.ends_requireSlots (by simpa using hs), Run.ends_bind, Run.ends_get,
        Run.ends_bind, Run.ends_get, Run.ends_bind, Run.ends_modify]
      by_cases hzero :
          (readFirst 1 s m.adj ++ readFirst nfwd s m.adjFwd).all Calculus.isZero = true
      · rw [if_pos hzero, if_pos hzero]
        exact ⟨rfl, fun _ => .inl hzero⟩
      · rw [if_neg hzero, if_neg hzero, checkAdjoints]
        by_cases hbad : (check && !(readFirst 1 s m.adj ++ readFirst nfwd s m.adjFwd).all
            Calculus.isFinite) = true
        · rw [if_pos hbad]
          rw [Bool.and_eq_true, Bool.not_eq_true'] at hbad
          exact ⟨hbad.1, by simp [hzero, hbad.2], rfl⟩
        · rw [if_neg hbad, pure_bind, Run.ends_bind, Run.ends_requireSlots (by exact hslots),
            updateFirst_adjointStep_one hinput, updateFirst_tangentStep hinput,
            ← getD_readFirst_one]
          refine ⟨rfl, fun hon => .inr ?_⟩
          simpa [hon] using hbad

theorem guarded_secondOrder
    {m : Memory F} (hs : s < m.values.size) (hslots : ∀ r ∈ c.slots, r < m.values.size)
    (check : Bool) (op : String) (nfwd : Nat) (node : NodeId) (k : Nat) :
    Run.Guarded check (c.PassesAdjoints (readFirst 1 s m.adj ++ readFirst nfwd s m.adjFwd))
      (c.secondOrder check op nfwd node k s) m fun _ m' => m' = c.secondOrderStep nfwd s m :=
  (ends_secondOrder hs hslots check op nfwd node k).imp (fun _ _ h => h) fun _ he =>
    ⟨he.1, he.2.1, op, node, k, he.2.2⟩

end Cell

end Arrays

variable [CommRing F] [Calculus F] [Calculus.Exact F]

namespace Cell

variable {c : Cell F} {s : Nat}

/-- Whether a zero adjoint is told apart or not, its share is the product. -/
theorem ite_isZero_mul
    (lam x : F) :
    (if Calculus.isZero lam then 0 else lam * x) = lam * x := by
  split
  · next hzero => rw [Calculus.Exact.eq_zero lam hzero, zero_mul]
  · rfl

/-- What a binary cell adds to the adjoint tangents of its operands. -/
theorem backwardTangent_binary
    (w : Array F) (r lam : F) (t : Array F) (dlam : F) (acc : Array F) (op : BinaryOp)
    (a b : Option Nat) :
    (binary op a b : Cell F).backwardTangent w r lam t dlam acc =
      let d := Calculus.binaryPartials op (readSlot w a) (readSlot w b) r
      let h := Calculus.binarySecond op (readSlot w a) (readSlot w b) r
      modifySlot
        (modifySlot acc a (· + (d.1 * dlam + lam * (h.1 * readSlot t a + h.2.1 * readSlot t b))))
        b (· + (d.2 * dlam + lam * (h.2.1 * readSlot t a + h.2.2 * readSlot t b))) := by
  have hmix : ∀ x y z : F, x * dlam + (lam * y * readSlot t a + lam * z * readSlot t b) =
      x * dlam + lam * (y * readSlot t a + z * readSlot t b) := fun x y z => by ring
  simp only [backwardTangent, seedMul_eq_mul, add_assoc]
  split
  · next hzero => simp [Calculus.Exact.eq_zero lam hzero]
  · simp only [hmix]

/--
A step backward adds the adjoint tangent times the partials and the adjoint times their change.
-/
theorem getD_backwardTangent
    {acc : Array F} (hslots : ∀ s ∈ c.slots, s < acc.size) (w : Array F) (r lam : F)
    (t : Array F) (dlam : F) (p : Nat) :
    (c.backwardTangent w r lam t dlam acc).getD p 0 =
      acc.getD p 0 + dlam * c.partialAt w r p + lam * c.secondAt w r t p := by
  cases c with
  | input i k => simp [backwardTangent, partialAt, secondAt]
  | constant v => simp [backwardTangent, partialAt, secondAt]
  | unary op a =>
      simp only [backwardTangent, ite_isZero_mul, seedMul_eq_mul, add_assoc,
        getD_modifySlot_add acc hslots, partialAt, secondAt]
      split <;> ring
  | binary op a b =>
      have ha : ∀ s ∈ a.toList, s < acc.size := fun s hs => hslots s (List.mem_append_left _ hs)
      have hb : ∀ s ∈ b.toList, s < acc.size := fun s hs => hslots s (List.mem_append_right _ hs)
      simp only [backwardTangent_binary, partialAt, secondAt]
      rw [getD_modifySlot_add _ (by simpa using hb), getD_modifySlot_add acc ha]
      split <;> split <;> ring
  | select tol cond source =>
      have h := getD_backward hslots w r dlam p
      rw [show Cell.secondAt w r t p (select tol cond source : Cell F) = 0 from rfl, mul_zero,
        add_zero, ← h]
      rfl
  | copy source =>
      have h := getD_backward hslots w r dlam p
      rw [show Cell.secondAt w r t p (copy source : Cell F) = 0 from rfl, mul_zero, add_zero, ← h]
      rfl

theorem getD_tangentStep
    {acc : Array F} (hs : s < acc.size)
    (hslots : ∀ r ∈ c.slots, r < acc.size) (w t : Array F) (lam : Nat → F) (p : Nat) :
    (c.tangentStep w s (lam s) t acc).getD p 0 = c.pullTangent w t lam (acc.getD · 0) s p := by
  cases hinput : c.isInput with
  | true =>
      have hslots : c.slots = [] := by
        cases c with
        | input i k => rfl
        | _ => simp [isInput] at hinput
      rw [pullTangent, pull_input hinput, secondAt_eq_zero (by simp [hslots]), mul_zero, add_zero,
        tangentStep, if_pos hinput]
  | false =>
      rw [pullTangent, pull_of_not_input hinput, tangentStep, hinput, if_neg Bool.false_ne_true,
        getD_backwardTangent (by simpa using hslots)]
      by_cases hp : p = s
      · rw [hp, getD_setIfInBounds_self hs, if_pos rfl]
      · rw [getD_setIfInBounds_ne hp, if_neg hp]

/-- A cell without an adjoint and without an adjoint tangent adds nothing. -/
theorem backwardTangent_zero
    (w : Array F) (r : F) (t acc : Array F) :
    c.backwardTangent w r 0 t 0 acc = acc := by
  cases c with
  | input i k => rfl
  | constant v => rfl
  | unary op a => simp [backwardTangent, seedMul_eq_mul]
  | binary op a b => simp [backwardTangent_binary]
  | select tol cond source => simp [backwardTangent]
  | copy source => simp [backwardTangent]

/-- Without an adjoint and adjoint tangents, nothing is added. -/
theorem updateFirst_tangentStep_of_zero
    (hinput : c.isInput = false) {n : Nat} {arrays : Array (Array F)}
    (hzero : (readFirst n s arrays).all Calculus.isZero = true) (w : Array F)
    (ts : Nat → Array F) :
    updateFirst n (fun d => c.tangentStep w s 0 (ts d)) arrays = clearFirst n s arrays := by
  refine updateFirst_congr fun d hd acc hacc => ?_
  have hdlam := eq_zero_of_all_isZero hzero hd hacc
  simp [tangentStep, hinput, hdlam, backwardTangent_zero]

theorem adjoint_eq_zero_of_all_isZero
    {m : Memory F} (hzero : (readFirst 1 s m.adj).all Calculus.isZero = true) :
    m.adjoint 0 s = 0 := by
  rw [← getD_readFirst_one, List.getD_eq_getElem?_getD]
  cases hget : (readFirst 1 s m.adj)[0]? with
  | none => rfl
  | some x =>
      exact Calculus.Exact.eq_zero x (List.all_eq_true.1 hzero x (List.mem_of_getElem? hget))

/-- Whether or not it is skipped, a cell does the same to the first adjoint tangents. -/
theorem secondOrderStep_eq
    (c : Cell F) (nfwd s : Nat) (m : Memory F) :
    c.secondOrderStep nfwd s m =
      { m with
        adj := updateFirst 1 (fun _ => c.adjointStep m.values s) m.adj
        adjFwd := updateFirst nfwd
          (fun d => c.tangentStep m.values s (m.adjoint 0 s) (m.fwd.getD d #[])) m.adjFwd } := by
  unfold secondOrderStep
  split
  · next h =>
      obtain ⟨hinput, hzero⟩ := h
      rw [List.all_append, Bool.and_eq_true] at hzero
      rw [updateFirst_adjointStep_of_isZero hinput hzero.1,
        adjoint_eq_zero_of_all_isZero hzero.1, updateFirst_tangentStep_of_zero hinput hzero.2]
  · rfl

/-- With numbers that are all finite, a step does the same to the first adjoint tangents. -/
theorem gives_secondOrder
    {m : Memory F} (hs : s < m.values.size) (hslots : ∀ r ∈ c.slots, r < m.values.size)
    (check : Bool) (op : String) (nfwd : Nat) (node : NodeId) (k : Nat) :
    Run.Gives (c.secondOrder check op nfwd node k s) m ()
      { m with
        adj := updateFirst 1 (fun _ => c.adjointStep m.values s) m.adj
        adjFwd := updateFirst nfwd
          (fun d => c.tangentStep m.values s (m.adjoint 0 s) (m.fwd.getD d #[])) m.adjFwd } := by
  obtain ⟨_, m', hgives, rfl⟩ := (guarded_secondOrder hs hslots check op nfwd node k).gives
    fun _ => .inr (List.all_eq_true.2 fun _ _ => Calculus.Exact.isFinite _)
  rwa [secondOrderStep_eq] at hgives

end Cell

end Steps

section Sweep

variable [CommRing F] [Calculus F]

/--
The state of a second-order sweep with `visits` still to come: they will turn the adjoint into
`last` and the adjoint tangents into `final`, and nothing else has changed since `before`.
-/
structure PullingTangents (before : Memory F) (nfwd : Nat) (last : Nat → F)
    (final : Nat → Nat → F) (visits : List (Nat × Cell F)) (m : Memory F) : Prop where
  wellSized : m.WellSized
  sizes : m.sizes = before.sizes
  values : m.values = before.values
  fwd : m.fwd = before.fwd
  inside : ∀ v ∈ visits, v.1 < before.sizes.work ∧ ∀ r ∈ v.2.slots, r < before.sizes.work
  adjoint : pullAll before.values visits (m.adjoint 0) = last
  tangent : ∀ d < nfwd, pullTangentAll before.values (before.fwd.getD d #[]) visits
    (m.adjoint 0) (m.adjointTangent d) = final d

variable [Calculus.Exact F] {before : Memory F} {nfwd : Nat} {last : Nat → F}
  {final : Nat → Nat → F}

theorem PullingTangents.step
    {s : Nat} {c : Cell F} {visits : List (Nat × Cell F)} {m : Memory F}
    (h : PullingTangents before nfwd last final ((s, c) :: visits) m)
    (hnadj : 1 ≤ before.sizes.nadj) (hnfwd : nfwd ≤ before.sizes.nfwd)
    (check : Bool) (op : String) (node : NodeId) (k : Nat) :
    ∃ m', Run.Gives (c.secondOrder check op nfwd node k s) m () m' ∧
      PullingTangents before nfwd last final visits m' := by
  obtain ⟨hs, hslots⟩ := h.inside (s, c) (List.mem_cons_self ..)
  have hwork : m.values.size = before.sizes.work := by rw [h.wellSized.values, h.sizes]
  have hadj : 0 < m.sizes.nadj := by
    rw [h.sizes]
    omega
  have hsize : (m.adj.getD 0 #[]).size = before.sizes.work := by
    rw [h.wellSized.adj.size_getD hadj, h.sizes]
  have hpull : Memory.adjoint
      { m with adj := updateFirst 1 (fun _ => c.adjointStep m.values s) m.adj } 0 =
      c.pull before.values (m.adjoint 0) s := by
    funext p
    rw [Memory.adjoint, getD_updateFirst Nat.one_pos (by rw [h.wellSized.adj.1]; exact hadj),
      Cell.getD_adjointStep (by rw [hsize]; exact hs)
        (fun r hr => by rw [hsize]; exact hslots r hr), h.values]
    rfl
  refine ⟨_, Cell.gives_secondOrder (by rw [hwork]; exact hs)
    (fun r hr => by rw [hwork]; exact hslots r hr) check op nfwd node k, ?_, h.sizes, h.values,
    h.fwd, fun v hv => h.inside v (List.mem_cons_of_mem _ hv), ?_, fun d hd => ?_⟩
  · exact ⟨h.wellSized.values, h.wellSized.fwd,
      h.wellSized.adj.updateFirst 1 fun _ _ => by simp,
      h.wellSized.adjFwd.updateFirst nfwd fun _ _ => by simp⟩
  · rw [← h.adjoint, pullAll]
    exact congrArg (pullAll before.values visits) hpull
  · have hadjFwd : d < m.sizes.second := by
      rw [MemorySizes.second, if_pos hadj, h.sizes]
      omega
    have hsize' : (m.adjFwd.getD d #[]).size = before.sizes.work := by
      rw [h.wellSized.adjFwd.size_getD hadjFwd, h.sizes]
    rw [← h.tangent d hd, pullTangentAll]
    congr 1
    funext p
    rw [Memory.adjointTangent,
      getD_updateFirst hd (by rw [h.wellSized.adjFwd.1]; exact hadjFwd),
      Cell.getD_tangentStep (by rw [hsize']; exact hs)
        (fun r hr => by rw [hsize']; exact hslots r hr), h.values, h.fwd]
    rfl

/-- The cells of a segment, one after the other. -/
theorem PullingTangents.segment
    {s : Segment F} {visits : List (Nat × Cell F)} {m : Memory F}
    (h : PullingTangents before nfwd last final (s.visits ++ visits) m)
    (hnadj : 1 ≤ before.sizes.nadj) (hnfwd : nfwd ≤ before.sizes.nfwd)
    (check : Bool) (op : String) :
    ∃ m', Run.Gives (s.secondOrder check op nfwd) m () m' ∧
      PullingTangents before nfwd last final visits m' := by
  have hloop := Run.exists_gives_forM
    (f := fun (item : Cell F × Nat) =>
      item.1.secondOrder check op nfwd s.node item.2 (s.start + item.2))
    (I := fun items m => PullingTangents before nfwd last final
      (items.map (fun item => (s.start + item.2, item.1)) ++ visits) m)
    (fun item _ _ hI => PullingTangents.step hI hnadj hnfwd check op s.node item.2)
    s.numbered m h
  exact hloop

namespace Tape

variable {f : Tape F}

/-- A second-order sweep ends with the adjoint and the adjoint tangents of the whole walk. -/
theorem gives_secondOrderSweep
    (hf : f.WellFormed) {m : Memory F} (hm : m.WellSized) (hwork : f.full.size ≤ m.sizes.work)
    (hnadj : 1 ≤ m.sizes.nadj) (hnfwd : nfwd ≤ m.sizes.nfwd) (check : Bool) (op : String) :
    ∃ m', Run.Gives (secondOrderSweep check op nfwd (f.segmentsAt f.full)) m () m' ∧
      m'.WellSized ∧ m'.sizes = m.sizes ∧ m'.adjoint 0 = pullAll m.values f.visits (m.adjoint 0) ∧
      ∀ d < nfwd, m'.adjointTangent d = pullTangentAll m.values (m.fwd.getD d #[]) f.visits
        (m.adjoint 0) (m.adjointTangent d) := by
  have hstart : PullingTangents m nfwd (pullAll m.values f.visits (m.adjoint 0))
      (fun d => pullTangentAll m.values (m.fwd.getD d #[]) f.visits (m.adjoint 0)
        (m.adjointTangent d)) f.visits m := by
    refine ⟨hm, rfl, rfl, rfl, fun v hv => ?_, rfl, fun _ _ => rfl⟩
    obtain ⟨hlt, hslots⟩ := lt_of_mem_visits hf hv
    exact ⟨by omega, fun r hr => by have := hslots r hr; omega⟩
  obtain ⟨m', hgives, hend⟩ := Run.exists_gives_forM
    (I := fun segments m' => PullingTangents m nfwd (pullAll m.values f.visits (m.adjoint 0))
      (fun d => pullTangentAll m.values (m.fwd.getD d #[]) f.visits (m.adjoint 0)
        (m.adjointTangent d)) (segments.flatMap Segment.visits) m')
    (fun s segments m' hI => PullingTangents.segment
      (by rwa [List.flatMap_cons] at hI) hnadj hnfwd check op)
    (f.segmentsAt f.full).reverse m hstart
  exact ⟨m', hgives, hend.wellSized, hend.sizes, hend.adjoint, hend.tangent⟩

end Tape

end Sweep

end SparseDiff
