import SparseDiff.Assembly.Jacobian
import SparseDiff.Proofs.Checked.Forward
import SparseDiff.Proofs.Directions.Adjoint
import SparseDiff.Proofs.Linear

/-!
# What one sweep of an assembly finds

A forward direction finds the tangents of its color at its output
(`Tape.guarded_forwardDirections`), an adjoint direction the walk of its color at its input
(`Tape.guarded_adjointDirections`); a checked sweep refuses exactly where one of its directions
does alone. The memory keeps its sizes, and an adjoint sweep keeps the values, so sweeps can
follow. Over exact arithmetic the walks are the adjoints (`Tape.pushedRow_eq_rowSum`).
-/

namespace SparseDiff

/-- Numbering the items of a list does not change what is made of them. -/
theorem map_zipIdx_fst
    {α β : Type} (items : List α) (g : α → β) :
    items.zipIdx.map (fun item => g item.1) = items.map g := by
  conv_rhs => rw [← List.zipIdx_map_fst 0 items, List.map_map]
  rfl

variable {F : Type}

namespace Direction

variable [Zero F] [One F]

/-- The forward seed of a direction: one on the columns of its color. -/
def tangentSeed (dir : Direction) (i k : Nat) : F :=
  if i = dir.plan.input then indicator dir.plan.partition.forward dir.color k else 0

/-- The adjoint seed of a direction: one on the rows of its color. -/
def adjointSeed (dir : Direction) (_o : Nat) (k : Nat) : F :=
  indicator dir.plan.partition.adjoint dir.color k

end Direction

namespace Tape

variable {f : Tape F}

section Arrays

variable [Zero F]

/-- Seeding every direction at its output. -/
theorem gives_seedDirections
    [One F] [Add F] (hf : f.WellFormed) {m : Memory F} (hm : m.WellSized)
    (hwork : f.full.size ≤ m.sizes.work) {dirs : List Direction}
    (hdirs : ∀ dir ∈ dirs, dir.plan.output < f.nOut) :
    Run.Gives
      (dirs.zipIdx.forM fun (dir, d) => do
        clearAdjoint d
        f.seedAdjoint d dir.plan.output (indicator dir.plan.partition.adjoint dir.color)) m ()
      (f.withSeeds (fun dir => [dir.plan.output]) Direction.adjointSeed dirs m) :=
  gives_modifyEach (n := f.full.size)
    (fun (dir : Direction) d => do
      clearAdjoint d
      f.seedAdjoint d dir.plan.output (indicator dir.plan.partition.adjoint dir.color))
    (fun dir hdir d m' hroom => gives_seed hf (hdirs dir hdir) hroom d dir.adjointSeed)
    (by rw [hm.values]; exact hwork)

/-- The directions still to be read are as they were before the first was. -/
structure Unread (dirs : List Direction) (before : Memory F) (rest : List (Direction × Nat))
    (m : Memory F) : Prop where
  wellSized : m.WellSized
  sizes : m.sizes = before.sizes
  values : m.values = before.values
  distinct : rest.Pairwise fun a b => a.2 ≠ b.2
  adjoint : ∀ item ∈ rest, dirs[item.2]? = some item.1 ∧
    m.adjoint item.2 = before.adjoint item.2

/-- Reading a direction at its input; a direction is cleared where it is read. -/
theorem Unread.step
    (hf : f.WellFormed) {dirs : List Direction} {before m : Memory F}
    {item : Direction × Nat} {rest : List (Direction × Nat)}
    (h : Unread dirs before (item :: rest) m) (hwork : f.full.size ≤ before.sizes.work)
    (hdirs : ∀ dir ∈ dirs, dir.plan.input < f.nIn) :
    ∃ m', Run.Gives (f.takeInputAdjoint item.2 item.1.plan.input) m
        (f.inputOf (before.adjoint item.2) item.1.plan.input) m' ∧
      Unread dirs before rest m' := by
  obtain ⟨hhead, htail⟩ := List.pairwise_cons.1 h.distinct
  obtain ⟨hd, hsame⟩ := h.adjoint item (List.mem_cons_self ..)
  have htaken := gives_takeInputAdjoint hf (hdirs item.1 (List.mem_of_getElem? hd)) (m := m)
    (by rw [h.wellSized.values, h.sizes]; exact hwork) item.2
  rw [hsame] at htaken
  have hstart : SameBut item.2 m m := ⟨h.wellSized, rfl, rfl, fun _ _ => rfl⟩
  have hafter := hstart.modify (g := writeAt (f.full.slot item.1.plan.input 0)
    (List.replicate (f.inputLength item.1.plan.input) 0)) fun w => size_writeAt ..
  refine ⟨_, htaken, hafter.wellSized, hafter.sizes.trans h.sizes, hafter.values.trans h.values,
    htail, fun item' h' => ?_⟩
  obtain ⟨hd', hsame'⟩ := h.adjoint item' (List.mem_cons_of_mem _ h')
  exact ⟨hd', (hafter.adjoint item'.2 (Ne.symm (hhead item' h'))).trans hsame'⟩

/-- Reading every direction at its input. -/
theorem gives_takeDirections
    (hf : f.WellFormed) {m : Memory F} (hm : m.WellSized) (hwork : f.full.size ≤ m.sizes.work)
    {dirs : List Direction} (hdirs : ∀ dir ∈ dirs, dir.plan.input < f.nIn) :
    ∃ m', Run.Gives
        (dirs.zipIdx.mapM fun (dir, d) => do
          let row ← f.takeInputAdjoint d dir.plan.input
          return (dir, row.toArray)) m
        (dirs.zipIdx.map fun item =>
          (item.1, (f.inputOf (m.adjoint item.2) item.1.plan.input).toArray)) m' ∧
      m'.WellSized ∧ m'.sizes = m.sizes ∧ m'.values = m.values := by
  have hdistinct : dirs.zipIdx.Pairwise fun a b => a.2 ≠ b.2 := by
    rw [List.pairwise_iff_getElem]
    intro a b ha hb hab
    simp
    omega
  obtain ⟨m', hread, hend⟩ := Run.gives_mapM
    (f := fun (item : Direction × Nat) => do
      let row ← f.takeInputAdjoint item.2 item.1.plan.input
      return (item.1, row.toArray))
    (g := fun (item : Direction × Nat) =>
      (item.1, (f.inputOf (m.adjoint item.2) item.1.plan.input).toArray))
    (I := Unread dirs m)
    (fun item rest m₁ h => by
      obtain ⟨m₂, htaken, h'⟩ := h.step hf hwork hdirs
      exact ⟨m₂, Run.gives_bind.2 ⟨_, _, htaken, Run.gives_pure.2 ⟨rfl, rfl⟩⟩, h'⟩)
    dirs.zipIdx m ⟨hm, rfl, rfl, hdistinct, fun item h =>
      ⟨List.mem_zipIdx_iff_getElem?.1 h, rfl⟩⟩
  exact ⟨m', hread, hend.wellSized, hend.sizes, hend.values⟩

end Arrays

section Sweeps

variable [Zero F] [One F] [Add F] [Mul F] [Calculus F]

/-- What a forward sweep finds for a direction. -/
def columnSum (f : Tape F) (xs : List (List F)) (dir : Direction) : Array F :=
  (f.outputOf (f.tangentArray xs dir.tangentSeed) dir.plan.output).toArray

/-- Reading every direction at its output. -/
theorem gives_readDirections
    (hf : f.WellFormed) {m : Memory F} (hm : m.WellSized)
    (hwork : (f.layout 0).size ≤ m.sizes.work) {xs : List (List F)}
    (hfit : FitLists f.inputPatterns xs) {dirs : List Direction}
    (hnfwd : dirs.length ≤ m.sizes.nfwd) (hdirs : ∀ dir ∈ dirs, dir.plan.output < f.nOut) :
    Run.Gives
      (dirs.zipIdx.mapM fun (dir, d) => do
        let column ← Run.ofExcept (f.readOutput (f.layout 0)
          ((f.afterForward (f.layout 0) xs (dirs.map Direction.tangentSeed) m).fwd.getD d #[])
          dir.plan.output)
        return (dir, column.toArray))
      (f.afterForward (f.layout 0) xs (dirs.map Direction.tangentSeed) m)
      (dirs.map fun dir => (dir, f.columnSum xs dir))
      (f.afterForward (f.layout 0) xs (dirs.map Direction.tangentSeed) m) := by
  have hsound := layout_sound hf 0
  have hreached := reached_afterForward hf hsound hm hwork
    (show (dirs.map (Direction.tangentSeed (F := F))).length ≤ m.sizes.nfwd by
      rw [List.length_map]
      exact hnfwd) hfit
  obtain ⟨m', hread, hsame, -⟩ := Run.gives_mapM
    (f := fun (item : Direction × Nat) => do
      let column ← Run.ofExcept (f.readOutput (f.layout 0)
        ((f.afterForward (f.layout 0) xs (dirs.map Direction.tangentSeed) m).fwd.getD item.2 #[])
        item.1.plan.output)
      return (item.1, column.toArray))
    (g := fun (item : Direction × Nat) => (item.1, f.columnSum xs item.1))
    (I := fun rest m' => m' = f.afterForward (f.layout 0) xs (dirs.map Direction.tangentSeed) m ∧
      ∀ item ∈ rest, item ∈ dirs.zipIdx)
    (fun item rest m' hI => by
      obtain ⟨rfl, hrest⟩ := hI
      have hd : dirs[item.2]? = some item.1 :=
        List.mem_zipIdx_iff_getElem?.1 (hrest item (List.mem_cons_self ..))
      have hlt := (List.getElem?_eq_some_iff.1 hd).1
      have hholds := hreached.fwd item.2 (by simpa using hlt)
      have hseed : (dirs.map Direction.tangentSeed).getD item.2 (fun _ _ => (0 : F)) =
          item.1.tangentSeed := by
        simp [List.getD_eq_getElem?_getD, hd]
      rw [hseed] at hholds
      have hcolumn := readOutput_eq hf hsound hholds (by
          rw [hreached.wellSized.fwd.size_getD (by rw [hreached.sizes]; omega), hreached.sizes]
          exact hwork)
        (hdirs item.1 (List.mem_of_getElem? hd))
      refine ⟨_, Run.gives_bind.2 ⟨_, _, Run.gives_ofExcept.2 ⟨hcolumn, rfl⟩,
        Run.gives_pure.2 ⟨rfl, rfl⟩⟩, rfl, fun item' h' => hrest item' (List.mem_cons_of_mem _ h')⟩)
    dirs.zipIdx _ ⟨rfl, fun _ h => h⟩
  subst hsame
  rw [map_zipIdx_fst dirs fun dir => (dir, f.columnSum xs dir)] at hread
  exact hread

/-- One forward sweep in several directions. -/
theorem guarded_forwardDirections
    (hf : f.WellFormed) {m : Memory F} (hm : m.WellSized)
    (hwork : (f.layout 0).size ≤ m.sizes.work) {xs : List (List F)}
    (hfit : FitLists f.inputPatterns xs) {dirs : List Direction}
    (hnfwd : dirs.length ≤ m.sizes.nfwd) (hdirs : ∀ dir ∈ dirs, dir.plan.output < f.nOut) :
    Run.Guarded f.config.checkFinite
      (Everywhere f.elements (f.Passes (f.layout 0) xs (dirs.map Direction.tangentSeed)))
      (f.forwardDirections (f.segmentsAt (f.layout 0)) xs dirs) m
      fun found m' => found = dirs.map (fun dir => (dir, f.columnSum xs dir)) ∧
        m'.WellSized ∧ m'.sizes = m.sizes := by
  have hsound := layout_sound hf 0
  have hloaded := gives_loadInputs hf hsound (by rw [hm.values]; exact hwork) hfit
  have hseeded := gives_loadSeeds hf hsound Direction.tangentSeed dirs
    (m := { m with values := writeLists (f.layout 0) 0 xs m.values })
    (by simpa [hm.values] using hwork)
  have hlength : (dirs.map (Direction.tangentSeed (F := F))).length ≤ m.sizes.nfwd := by
    rw [List.length_map]
    exact hnfwd
  have hreached := reached_afterForward hf hsound hm hwork hlength hfit
  have hswept := guarded_forwardSweep hf hsound hm hwork hlength hfit f.config.checkFinite
    jacobianOp
  rw [List.length_map] at hswept
  refine (Run.guarded_bind_of_gives hloaded).2 ((Run.guarded_bind_of_gives hseeded).2 ?_)
  refine hswept.bind_gives fun _ m' hm' => ?_
  subst hm'
  exact ⟨_, _, Run.gives_get_bind.2 (gives_readDirections hf hm hwork hfit hnfwd hdirs), rfl,
    hreached.wellSized, hreached.sizes⟩

/-- What an adjoint sweep finds for a direction. -/
def pushedRow (f : Tape F) (xs : List (List F)) (dir : Direction) : Array F :=
  (f.inputOf ((f.pushed xs [dir.plan.output] dir.adjointSeed).getD · 0) dir.plan.input).toArray

/-- One adjoint sweep in several directions, where the values are in the memory. -/
theorem guarded_adjointDirections
    [Calculus.NeutralZero F] (hf : f.WellFormed) {m : Memory F} (hm : m.WellSized)
    (hwork : f.full.size ≤ m.sizes.work) {xs : List (List F)}
    (hvalues : ∀ s < f.full.size, m.values.getD s 0 = (f.valueArray xs).getD s 0)
    {dirs : List Direction} (hnadj : dirs.length ≤ m.sizes.nadj)
    (hdirs : ∀ dir ∈ dirs, dir.plan.output < f.nOut ∧ dir.plan.input < f.nIn) :
    Run.Guarded f.config.checkFinite
      (∀ dir ∈ dirs, f.FinitePushed xs [dir.plan.output] dir.adjointSeed)
      (f.adjointDirections (f.segmentsAt f.full) dirs) m
      fun found m' => found = dirs.map (fun dir => (dir, f.pushedRow xs dir)) ∧
        m'.WellSized ∧ m'.sizes = m.sizes ∧ m'.values = m.values := by
  have hseeded := gives_seedDirections hf hm hwork fun dir hdir => (hdirs dir hdir).1
  have hswept := guarded_pushed hf hm hwork hvalues (fun dir : Direction => [dir.plan.output])
    Direction.adjointSeed hnadj f.config.checkFinite jacobianOp
  refine (Run.guarded_bind_of_gives hseeded).2 (hswept.bind_gives fun _ m₂ h => ?_)
  obtain ⟨hsized₂, hsizes₂, hvalues₂, hadjoint₂⟩ := h
  obtain ⟨m₃, htaken, hsized₃, hsizes₃, hvalues₃⟩ := gives_takeDirections hf hsized₂
    (by rw [hsizes₂]; exact hwork) fun dir hdir => (hdirs dir hdir).2
  refine ⟨_, m₃, htaken, ?_, hsized₃, hsizes₃.trans hsizes₂, hvalues₃.trans hvalues₂⟩
  rw [← map_zipIdx_fst dirs fun dir => (dir, f.pushedRow xs dir)]
  refine List.map_congr_left fun item hitem => ?_
  have hd := List.mem_zipIdx_iff_getElem?.1 hitem
  rw [pushedRow, inputOf_congr hf (hadjoint₂ item.2 item.1 hd)
    (hdirs item.1 (List.mem_of_getElem? hd)).2]

end Sweeps

variable [CommRing F] [Calculus F]

/-- Over exact arithmetic, what an adjoint sweep finds for a direction. -/
def rowSum (f : Tape F) (xs : List (List F)) (dir : Direction) : Array F :=
  (f.inputOf (f.adjoints (f.valueArray xs) [dir.plan.output] dir.adjointSeed)
    dir.plan.input).toArray

/-- Walks over the trace end with the adjoints. -/
theorem pushedRow_eq_rowSum
    [Calculus.Exact F] (hf : f.WellFormed) (xs : List (List F)) {dir : Direction}
    (hdir : dir.plan.output < f.nOut) :
    f.pushedRow xs dir = f.rowSum xs dir := by
  have hseeds : ∀ p, (f.seededArray [dir.plan.output] dir.adjointSeed
      (Array.replicate f.full.size 0)).getD p 0 =
        f.seedVector [dir.plan.output] dir.adjointSeed p :=
    getD_seededArray hf (by simpa using hdir) _ (by simp)
  have hpushed : ((f.pushed xs [dir.plan.output] dir.adjointSeed).getD · 0) =
      f.adjoints (f.valueArray xs) [dir.plan.output] dir.adjointSeed := by
    funext p
    rw [pushed, getD_pushAll (by simpa using visits_inside hf), funext hseeds]
    rfl
  rw [pushedRow, hpushed, rowSum]

end Tape

end SparseDiff
