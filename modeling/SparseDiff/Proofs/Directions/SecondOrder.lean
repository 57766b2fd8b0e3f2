import SparseDiff.Proofs.Directions.Settling

/-!
# Second-order directions

A second-order sweep does in every direction the walk of the direction alone (`dotWalk`), although
it skips a cell for all directions or for none: the phase of the directions, which every step
keeps, makes the difference vanish (`Cell.secondOrderStep_spec`). So a checked sweep that starts
with a single seed refuses exactly where the walk of some direction meets a number that is not
finite (`Tape.guarded_secondOrderSweep`).
-/

namespace SparseDiff

variable {F : Type}

section Walks

variable [Zero F] [Add F] [Mul F] [Calculus F]

/-- The steps of a second-order sweep on the adjoint tangents of one direction. -/
def dotWalk (w t : Array F) : List (Nat × Cell F) → Array F → Array F → Array F
  | [], _, acc => acc
  | (s, c) :: visits, lams, acc =>
      dotWalk w t visits (c.adjointStep w s lams) (c.dotStep w s (lams.getD s 0) t acc)

/-- Every cell of the walk takes out an adjoint and an adjoint tangent that are finite. -/
def FiniteDots (w t : Array F) : List (Nat × Cell F) → Array F → Array F → Prop
  | [], _, _ => True
  | (s, c) :: visits, lams, acc =>
      (c.isInput = false → Calculus.isFinite (lams.getD s 0) = true ∧
        Calculus.isFinite (acc.getD s 0) = true) ∧
        FiniteDots w t visits (c.adjointStep w s lams) (c.dotStep w s (lams.getD s 0) t acc)

variable {n : Nat} {a b w w' t t' : Array F}

theorem AgreeBelow.backwardTangent
    (h : AgreeBelow n a b) (hw : AgreeBelow n w w') (ht : AgreeBelow n t t') {c : Cell F}
    (hslots : ∀ r ∈ c.slots, r < n) (r lam dlam : F) :
    AgreeBelow n (c.backwardTangent w r lam t dlam a) (c.backwardTangent w' r lam t' dlam b) := by
  cases c with
  | input i k => exact h
  | constant v => exact h
  | unary op x =>
      simp only [Cell.backwardTangent, hw.readSlot_eq hslots, ht.readSlot_eq hslots]
      exact h.modifySlot _ _
  | binary op x y =>
      have hx : ∀ s ∈ x.toList, s < n := fun s hs => hslots s (List.mem_append_left _ hs)
      have hy : ∀ s ∈ y.toList, s < n := fun s hs => hslots s (List.mem_append_right _ hs)
      simp only [Cell.backwardTangent, hw.readSlot_eq hx, hw.readSlot_eq hy, ht.readSlot_eq hx,
        ht.readSlot_eq hy]
      exact (h.modifySlot _ _).modifySlot _ _
  | select tol cond source =>
      simp only [Cell.backwardTangent,
        hw.readSlot_eq fun s hs => hslots s (List.mem_append_left _ hs)]
      split
      · exact h.modify _ _
      · exact h
  | copy source => exact h.modify _ _

theorem AgreeBelow.dotStep
    (h : AgreeBelow n a b) (hw : AgreeBelow n w w') (ht : AgreeBelow n t t') {s : Nat} {c : Cell F}
    (hs : s < n) (hslots : ∀ r ∈ c.slots, r < n) (lam : F) :
    AgreeBelow n (c.dotStep w s lam t a) (c.dotStep w' s lam t' b) := by
  unfold Cell.dotStep Cell.tangentStep
  rw [h.eq s hs, hw.eq s hs]
  split
  · exact h.setIfInBounds s 0
  · split
    · exact h
    · exact (h.setIfInBounds s 0).backwardTangent hw ht hslots _ _ _

variable {visits : List (Nat × Cell F)}

/-- A walk inside the slots below `n` depends on the numbers there only. -/
theorem AgreeBelow.dotWalk
    (hw : AgreeBelow n w w') (ht : AgreeBelow n t t')
    (hvisits : ∀ v ∈ visits, v.1 < n ∧ ∀ r ∈ v.2.slots, r < n) {lams lams' : Array F}
    (hlams : AgreeBelow n lams lams') {a b : Array F} (h : AgreeBelow n a b) :
    AgreeBelow n (dotWalk w t visits lams a) (dotWalk w' t' visits lams' b) := by
  induction visits generalizing lams lams' a b with
  | nil => exact h
  | cons v visits ih =>
      obtain ⟨hs, hslots⟩ := hvisits v (List.mem_cons_self ..)
      unfold SparseDiff.dotWalk
      rw [hlams.eq v.1 hs]
      exact ih (fun u hu => hvisits u (List.mem_cons_of_mem _ hu))
        (hlams.adjointStep hw hs hslots) (h.dotStep hw ht hs hslots _)

theorem AgreeBelow.finiteDots_iff
    (hw : AgreeBelow n w w') (ht : AgreeBelow n t t')
    (hvisits : ∀ v ∈ visits, v.1 < n ∧ ∀ r ∈ v.2.slots, r < n) {lams lams' : Array F}
    (hlams : AgreeBelow n lams lams') {a b : Array F} (h : AgreeBelow n a b) :
    FiniteDots w t visits lams a ↔ FiniteDots w' t' visits lams' b := by
  induction visits generalizing lams lams' a b with
  | nil => exact Iff.rfl
  | cons v visits ih =>
      obtain ⟨hs, hslots⟩ := hvisits v (List.mem_cons_self ..)
      unfold FiniteDots
      rw [hlams.eq v.1 hs, h.eq v.1 hs, ih (fun u hu => hvisits u (List.mem_cons_of_mem _ hu))
        (hlams.adjointStep hw hs hslots) (h.dotStep hw ht hs hslots _)]

end Walks

section Steps

variable [Zero F] {m : Memory F} {nfwd s : Nat}

/-- The test of a step looks at the adjoint and at the adjoint tangents of all directions. -/
theorem all_append_readFirst_iff
    {test : F → Bool} (hadj : 1 ≤ m.adj.size) (hadjFwd : nfwd ≤ m.adjFwd.size) :
    (readFirst 1 s m.adj ++ readFirst nfwd s m.adjFwd).all test = true ↔
      test ((m.adj.getD 0 #[]).getD s 0) = true ∧
        ∀ d < nfwd, test ((m.adjFwd.getD d #[]).getD s 0) = true := by
  rw [List.all_append, Bool.and_eq_true, all_readFirst_iff hadj, all_readFirst_iff hadjFwd]
  simp

/-- A step passes its check exactly if it finds finite numbers in every direction. -/
theorem readFirst_tests_iff
    [Add F] [Calculus F] [Calculus.NeutralZero F] (hnfwd : 0 < nfwd) (hadj : 1 ≤ m.adj.size)
    (hadjFwd : nfwd ≤ m.adjFwd.size) :
    ((readFirst 1 s m.adj ++ readFirst nfwd s m.adjFwd).all Calculus.isZero = true ∨
        (readFirst 1 s m.adj ++ readFirst nfwd s m.adjFwd).all Calculus.isFinite = true) ↔
      ∀ d < nfwd, Calculus.isFinite ((m.adj.getD 0 #[]).getD s 0) = true ∧
        Calculus.isFinite ((m.adjFwd.getD d #[]).getD s 0) = true := by
  have hfinite : (readFirst 1 s m.adj ++ readFirst nfwd s m.adjFwd).all Calculus.isFinite = true ↔
      ∀ d < nfwd, Calculus.isFinite ((m.adj.getD 0 #[]).getD s 0) = true ∧
        Calculus.isFinite ((m.adjFwd.getD d #[]).getD s 0) = true := by
    rw [all_append_readFirst_iff hadj hadjFwd]
    exact ⟨fun h d hd => ⟨h.1, h.2 d hd⟩, fun h => ⟨(h 0 hnfwd).1, fun d hd => (h d hd).2⟩⟩
  rw [← hfinite, or_iff_right_iff_imp]
  intro hzero
  exact List.all_eq_true.2 fun x hx =>
    Calculus.NeutralZero.isFinite_of_isZero x (List.all_eq_true.1 hzero x hx)

namespace Cell

variable [Add F] [Mul F] [Calculus F] {c : Cell F}

/-- Memory sizes survive a step. -/
theorem wellSized_secondOrderStep
    (hm : m.WellSized) (nfwd s : Nat) (c : Cell F) :
    (c.secondOrderStep nfwd s m).WellSized := by
  unfold secondOrderStep
  split
  · exact ⟨hm.values, hm.fwd, hm.adj.updateFirst _ fun _ _ => by simp,
      hm.adjFwd.updateFirst _ fun _ _ => by simp⟩
  · exact ⟨hm.values, hm.fwd, hm.adj.updateFirst _ fun _ _ => by simp,
      hm.adjFwd.updateFirst _ fun _ _ => by simp⟩

/-- A step changes adjoints and adjoint tangents only. -/
theorem secondOrderStep_same
    (nfwd s : Nat) (c : Cell F) (m : Memory F) :
    c.secondOrderStep nfwd s m =
      { m with
        adj := (c.secondOrderStep nfwd s m).adj
        adjFwd := (c.secondOrderStep nfwd s m).adjFwd } := by
  unfold secondOrderStep
  split <;> rfl

@[simp] theorem size_adj_secondOrderStep
    (nfwd s : Nat) (c : Cell F) (m : Memory F) :
    (c.secondOrderStep nfwd s m).adj.size = m.adj.size := by
  unfold secondOrderStep
  split <;> simp [clearFirst]

@[simp] theorem size_adjFwd_secondOrderStep
    (nfwd s : Nat) (c : Cell F) (m : Memory F) :
    (c.secondOrderStep nfwd s m).adjFwd.size = m.adjFwd.size := by
  unfold secondOrderStep
  split <;> simp [clearFirst]

/-- The cell of an input leaves the memory as it is. -/
theorem secondOrderStep_input
    (hinput : c.isInput = true) :
    c.secondOrderStep nfwd s m = m := by
  rw [secondOrderStep, if_neg (by simp [hinput]), updateFirst_adjointStep_input hinput,
    updateFirst_tangentStep_input hinput]

variable [Calculus.NeutralZero F]

/-- In the one adjoint array, a step is a step whether or not it is skipped. -/
theorem getD_adj_secondOrderStep
    (hadj : 1 ≤ m.adj.size) :
    (c.secondOrderStep nfwd s m).adj.getD 0 #[] = c.adjointStep m.values s (m.adj.getD 0 #[]) := by
  unfold secondOrderStep
  split
  · next h =>
      obtain ⟨hinput, hzero⟩ := h
      rw [List.all_append, Bool.and_eq_true] at hzero
      rw [← updateFirst_adjointStep_of_isZero hinput hzero.1 m.values,
        getD_updateFirst Nat.one_pos hadj]
  · rw [getD_updateFirst Nat.one_pos hadj]

variable [Calculus.AbsorbingZero F] {n : Nat}

/-- A step of a cell that is not an input is, in every direction, the step of it alone. -/
theorem getD_adjFwd_secondOrderStep
    (h : Stepping n nfwd m.values (fun d => m.fwd.getD d #[]) (m.adj.getD 0 #[])
      (fun d => m.adjFwd.getD d #[]) s c)
    (hphase : Phase nfwd (fun d => m.fwd.getD d #[]) (m.adj.getD 0 #[])
      fun d => m.adjFwd.getD d #[])
    (hadj : 1 ≤ m.adj.size) (hadjFwd : nfwd ≤ m.adjFwd.size) {d : Nat} (hd : d < nfwd) :
    (c.secondOrderStep nfwd s m).adjFwd.getD d #[] =
      c.dotStep m.values s ((m.adj.getD 0 #[]).getD s 0) (m.fwd.getD d #[])
        (m.adjFwd.getD d #[]) := by
  have hroom : d < m.adjFwd.size := Nat.lt_of_lt_of_le hd hadjFwd
  have hempty : (readFirst 1 s m.adj ++ readFirst nfwd s m.adjFwd).all Calculus.isZero = true ↔
      Emptied nfwd (m.adj.getD 0 #[]) (fun d => m.adjFwd.getD d #[]) s :=
    all_append_readFirst_iff hadj hadjFwd
  by_cases hskip : Emptied nfwd (m.adj.getD 0 #[]) (fun d => m.adjFwd.getD d #[]) s
  · rw [secondOrderStep, if_pos ⟨h.input, hempty.2 hskip⟩, dotStep,
      if_pos ⟨h.input, hskip.1, hskip.2 d hd⟩]
    exact getD_updateFirst hd hroom _
  · rw [secondOrderStep, if_neg fun hzero => hskip (hempty.1 hzero.2)]
    exact (getD_updateFirst hd hroom _).trans (h.tangentStep_eq_dotStep hphase hskip hd)

/-- In every direction a step is the step of the direction alone, and the phase goes on. -/
theorem secondOrderStep_spec
    (hm : m.WellSized) (hwork : n ≤ m.sizes.work) (hadj : 1 ≤ m.adj.size)
    (hadjFwd : nfwd ≤ m.adjFwd.size)
    (hsolved : SolvedAt n nfwd m.values (fun d => m.fwd.getD d #[]) s c)
    (hphase : Phase nfwd (fun d => m.fwd.getD d #[]) (m.adj.getD 0 #[])
      fun d => m.adjFwd.getD d #[]) :
    (∀ d < nfwd, (c.secondOrderStep nfwd s m).adjFwd.getD d #[] =
      c.dotStep m.values s ((m.adj.getD 0 #[]).getD s 0) (m.fwd.getD d #[])
        (m.adjFwd.getD d #[])) ∧
    Phase nfwd (fun d => m.fwd.getD d #[]) (c.adjointStep m.values s (m.adj.getD 0 #[]))
      fun d => (c.secondOrderStep nfwd s m).adjFwd.getD d #[] := by
  cases hinput : c.isInput with
  | true =>
      rw [secondOrderStep_input hinput, adjointStep, if_pos hinput]
      refine ⟨fun d _ => ?_, hphase⟩
      rw [dotStep, if_neg (by simp [hinput]), tangentStep, if_pos hinput]
  | false =>
      have hstepping : Stepping n nfwd m.values (fun d => m.fwd.getD d #[]) (m.adj.getD 0 #[])
          (fun d => m.adjFwd.getD d #[]) s c := by
        refine ⟨hsolved, hinput, ?_, fun d hd => ?_⟩
        · rw [hm.adj.size_getD (by rw [← hm.adj.1]; exact hadj)]
          exact hwork
        · rw [hm.adjFwd.size_getD (by rw [← hm.adjFwd.1]; omega)]
          exact hwork
      have hdots := fun d hd => getD_adjFwd_secondOrderStep hstepping hphase hadj hadjFwd
        (d := d) hd
      exact ⟨hdots, (hstepping.phase hphase).congr hdots⟩

end Cell

end Steps

section Sweep

variable [Zero F] [Add F] [Mul F] [Calculus F] {check : Bool} {n nfwd : Nat}
  {good : Prop} {before : Memory F} {final : Nat → Array F}

/--
The state of a second-order sweep with `visits` still to come: they will turn the adjoint tangents
into `final`, they pass exactly if `good` holds, and the directions are in phase.
-/
structure PushingTangents (check : Bool) (n nfwd : Nat) (good : Prop) (before : Memory F)
    (final : Nat → Array F) (visits : List (Nat × Cell F)) (m : Memory F) : Prop where
  wellSized : m.WellSized
  same : m = { before with adj := m.adj, adjFwd := m.adjFwd }
  adj : 1 ≤ m.adj.size
  adjFwd : nfwd ≤ m.adjFwd.size
  solved : ∀ v ∈ visits, SolvedAt n nfwd before.values (fun d => before.fwd.getD d #[]) v.1 v.2
  phase : Phase nfwd (fun d => before.fwd.getD d #[]) (m.adj.getD 0 #[]) fun d =>
    m.adjFwd.getD d #[]
  tangent : ∀ d < nfwd, dotWalk before.values (before.fwd.getD d #[]) visits (m.adj.getD 0 #[])
    (m.adjFwd.getD d #[]) = final d
  test : check = true → (good ↔ ∀ d < nfwd, FiniteDots before.values (before.fwd.getD d #[]) visits
    (m.adj.getD 0 #[]) (m.adjFwd.getD d #[]))

variable [Calculus.NeutralZero F] [Calculus.AbsorbingZero F]

theorem PushingTangents.step
    {s : Nat} {c : Cell F} {visits : List (Nat × Cell F)} {m : Memory F}
    (h : PushingTangents check n nfwd good before final ((s, c) :: visits) m)
    (hpos : 0 < nfwd) (hwork : n ≤ before.sizes.work) (op : String) (node : NodeId) (k : Nat) :
    Run.Ends (c.secondOrder check op nfwd node k s) m
      (fun _ m' => PushingTangents check n nfwd good before final visits m')
      fun e => check = true ∧ ¬ good ∧ e.IsNumeric := by
  obtain ⟨hsolved, hrest⟩ := List.forall_mem_cons.1 h.solved
  obtain ⟨hsizes, hvalues, hfwd⟩ : m.sizes = before.sizes ∧ m.values = before.values ∧
      m.fwd = before.fwd := by
    rw [h.same]
    exact ⟨rfl, rfl, rfl⟩
  have hslot := hsolved.slot
  have hroom : n ≤ m.values.size := by
    rw [h.wellSized.values, hsizes]
    exact hwork
  have htests := readFirst_tests_iff (s := s) hpos h.adj h.adjFwd
  have hlam : (c.secondOrderStep nfwd s m).adj.getD 0 #[] = _ := Cell.getD_adj_secondOrderStep h.adj
  obtain ⟨hdots, hphase⟩ := Cell.secondOrderStep_spec h.wellSized (hsizes ▸ hwork) h.adj h.adjFwd
    (hvalues ▸ hfwd ▸ hsolved) (hfwd ▸ h.phase)
  rw [hvalues] at hlam
  rw [hvalues, hfwd] at hdots hphase
  refine Run.Ends.imp (Cell.guarded_secondOrder (c := c) (by omega : s < m.values.size)
    (fun r hr => by have := hsolved.slots r hr; omega) check op nfwd node k)
    (fun _ m' hm' => ?_) fun e he => ?_
  · obtain ⟨rfl, hpassed⟩ := hm'
    refine ⟨Cell.wellSized_secondOrderStep h.wellSized nfwd s c, ?_, ?_, ?_, hrest, ?_,
      fun d hd => ?_, fun hon => ?_⟩
    · rw [Cell.secondOrderStep_same, hsizes, hvalues, hfwd]
    · rw [Cell.size_adj_secondOrderStep]
      exact h.adj
    · rw [Cell.size_adjFwd_secondOrderStep]
      exact h.adjFwd
    · rw [hlam]
      exact hphase
    · rw [hlam, hdots d hd]
      exact h.tangent d hd
    · rw [h.test hon]
      refine forall₂_congr fun d hd => ?_
      rw [hlam, hdots d hd, FiniteDots]
      exact and_iff_right fun hinput => htests.1 (hpassed hon hinput) d hd
  · obtain ⟨hon, hbad, hnumeric⟩ := he
    refine ⟨hon, fun hgood => hbad fun hinput => htests.2 fun d hd => ?_, hnumeric⟩
    exact ((h.test hon).1 hgood d hd).1 hinput

namespace Tape

variable {f : Tape F} {m : Memory F}

/-- A second-order sweep walks in every direction, and refuses exactly where some walk fails. -/
theorem guarded_secondOrderSweep
    (hm : m.WellSized) (hwork : f.full.size ≤ m.sizes.work) (hadj : 1 ≤ m.adj.size)
    (hadjFwd : nfwd ≤ m.adjFwd.size) (hpos : 0 < nfwd)
    (hsolved : ∀ v ∈ f.visits,
      SolvedAt f.full.size nfwd m.values (fun d => m.fwd.getD d #[]) v.1 v.2)
    (hseeded : Seeded nfwd (m.adj.getD 0 #[]) fun d => m.adjFwd.getD d #[]) (check : Bool)
    (op : String) :
    Run.Guarded check
      (∀ d < nfwd, FiniteDots m.values (m.fwd.getD d #[]) f.visits (m.adj.getD 0 #[])
        (m.adjFwd.getD d #[]))
      (secondOrderSweep check op nfwd (f.segmentsAt f.full)) m
      fun _ m' => m'.WellSized ∧ m'.sizes = m.sizes ∧
        ∀ d < nfwd, m'.adjFwd.getD d #[] = dotWalk m.values (m.fwd.getD d #[]) f.visits
          (m.adj.getD 0 #[]) (m.adjFwd.getD d #[]) := by
  have hstart : PushingTangents check f.full.size nfwd
      (∀ d < nfwd, FiniteDots m.values (m.fwd.getD d #[]) f.visits (m.adj.getD 0 #[])
        (m.adjFwd.getD d #[])) m
      (fun d => dotWalk m.values (m.fwd.getD d #[]) f.visits (m.adj.getD 0 #[])
        (m.adjFwd.getD d #[])) f.visits m :=
    ⟨hm, rfl, hadj, hadjFwd, hsolved, .inl hseeded, fun _ _ => rfl, fun _ => Iff.rfl⟩
  refine Run.Ends.imp (ends_visits
    (fun node k s c visits m' hI => PushingTangents.step hI hpos hwork op node k)
    (f.segmentsAt f.full).reverse m hstart) (fun _ m' hend => ⟨⟨hend.wellSized, ?_, ?_⟩, ?_⟩)
    fun _ he => he
  · rw [hend.same]
  · exact hend.tangent
  · exact fun hon => (hend.test hon).2 fun _ _ => trivial

end Tape

end Sweep

end SparseDiff
