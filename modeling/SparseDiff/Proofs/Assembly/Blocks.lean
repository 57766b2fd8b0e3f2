import SparseDiff.Proofs.Assembly.Scatter
import SparseDiff.Proofs.Assembly.Sweeps

/-!
# Blocks that share sweeps

Colors of several plans share sweeps, in batches that start in the middle of one plan and end
in the middle of another. What a direction finds depends on its plan and color only, so every
block gets the values that it would get alone (`JacobianPlan.values`), and the assembly refuses
exactly where a direction of some plan does (`Tape.guarded_jacobianValues`). In particular
neither depends on the size of the batches.
-/

namespace SparseDiff

variable {F : Type}

/-- The plan names a block of the tape and has its shape. -/
structure JacobianPlan.Fits (f : Tape F) (plan : JacobianPlan) : Prop where
  output : plan.output < f.nOut
  input : plan.input < f.nIn
  nrow : plan.pattern.nrow = f.outputLength plan.output
  ncol : plan.pattern.ncol = f.inputLength plan.input

namespace Tape

variable {f : Tape F} {xs : List (List F)}

theorem checkPlanShape_eq_ok_iff
    {op : String} {expected got : Nat × Nat} :
    checkPlanShape op expected got = .ok () ↔ got = expected := by
  unfold checkPlanShape
  rw [Prod.ext_iff]
  split
  · next hne => exact iff_of_false (by simp) fun h => hne h.1.symm
  · split
    · next hne => exact iff_of_false (by simp) fun h => hne h.2.symm
    · next hrow hcol => exact iff_of_true rfl ⟨(not_not.1 hrow).symm, (not_not.1 hcol).symm⟩

theorem checkBlock_eq_ok_iff
    {op : String} {o i : Nat} {out inp : Pattern} :
    f.checkBlock op o i = .ok (out, inp) ↔
      f.outputPatterns[o]? = some out ∧ f.inputPatterns[i]? = some inp := by
  unfold checkBlock outputPattern inputPattern
  cases ho : f.outputPatterns[o]? with
  | none => exact iff_of_false (fun h => by cases h) (by simp)
  | some out' =>
      cases hi : f.inputPatterns[i]? with
      | none => exact iff_of_false (fun h => by cases h) (by simp)
      | some inp' => simp [bind, Except.bind, pure, Except.pure]

theorem checkJacobianPlan_eq_ok_iff
    {op : String} {plan : JacobianPlan} :
    f.checkJacobianPlan op plan = .ok () ↔ plan.Fits f := by
  unfold checkJacobianPlan
  rw [bind_eq_ok_iff]
  constructor
  · rintro ⟨⟨out, inp⟩, hblock, hshape⟩
    obtain ⟨ho, hi⟩ := checkBlock_eq_ok_iff.1 hblock
    have hsame := checkPlanShape_eq_ok_iff.1 hshape
    refine ⟨(List.getElem?_eq_some_iff.1 ho).1, (List.getElem?_eq_some_iff.1 hi).1, ?_, ?_⟩
    · rw [outputLength, ho]
      exact congrArg Prod.fst hsame
    · rw [inputLength, hi]
      exact congrArg Prod.snd hsame
  · intro h
    obtain ⟨out, ho⟩ : ∃ out, f.outputPatterns[plan.output]? = some out :=
      ⟨_, List.getElem?_eq_getElem h.output⟩
    obtain ⟨inp, hi⟩ : ∃ inp, f.inputPatterns[plan.input]? = some inp :=
      ⟨_, List.getElem?_eq_getElem h.input⟩
    refine ⟨(out, inp), checkBlock_eq_ok_iff.2 ⟨ho, hi⟩,
      checkPlanShape_eq_ok_iff.2 (Prod.ext ?_ ?_)⟩
    · exact h.nrow.trans (by rw [outputLength, ho]; rfl)
    · exact h.ncol.trans (by rw [inputLength, hi]; rfl)

/-- An assembly is accepted if its plans and inputs fit and the memory holds one direction. -/
theorem checkJacobians_eq_ok_iff
    {op : String} {sizes : MemorySizes} {plans : List JacobianPlan} :
    f.checkJacobians op sizes xs plans = .ok () ↔
      (∀ plan ∈ plans, plan.Fits f) ∧ FitLists f.inputPatterns xs ∧
        sizes.check op (f.leastMemory (directions JacobianPlan.nfwd plans).length
          (directions JacobianPlan.nadj plans).length) = .ok () := by
  unfold checkJacobians checkInputValues
  constructor
  · intro h
    obtain ⟨_, hplans, h⟩ := bind_eq_ok_iff.1 h
    obtain ⟨_, hfit, h⟩ := bind_eq_ok_iff.1 h
    exact ⟨fun plan hplan => checkJacobianPlan_eq_ok_iff.1 (eq_ok_of_forM hplans plan hplan),
      checkLists_eq_ok_iff.1 hfit, h⟩
  · rintro ⟨hplans, hfit, hsizes⟩
    exact bind_eq_ok_iff.2 ⟨(), forM_eq_ok fun plan hplan =>
      checkJacobianPlan_eq_ok_iff.2 (hplans plan hplan),
      bind_eq_ok_iff.2 ⟨(), checkLists_eq_ok_iff.2 hfit, hsizes⟩⟩

/-- What the check of an assembly of blocks promises its sweeps. -/
structure AcceptsBlocks (f : Tape F) (sizes : MemorySizes) (xs : List (List F))
    (plans : List JacobianPlan) : Prop where
  fits : ∀ plan ∈ plans, plan.Fits f
  fit : FitLists f.inputPatterns xs
  work : (f.layout 0).size ≤ sizes.work
  nfwd : directions JacobianPlan.nfwd plans ≠ [] → 1 ≤ sizes.nfwd
  full : directions JacobianPlan.nadj plans ≠ [] → f.full.size ≤ sizes.work
  nadj : directions JacobianPlan.nadj plans ≠ [] → 1 ≤ sizes.nadj

theorem acceptsBlocks_of_checkJacobians
    (hf : f.WellFormed) {op : String} {sizes : MemorySizes} {plans : List JacobianPlan}
    (h : f.checkJacobians op sizes xs plans = .ok ()) :
    f.AcceptsBlocks sizes xs plans := by
  obtain ⟨hplans, hfit, hsizes⟩ := checkJacobians_eq_ok_iff.1 h
  obtain ⟨hwork, hnfwd, hnadj, -⟩ := MemorySizes.check_eq_ok_iff.1 hsizes
  have hnfwd' : min (directions JacobianPlan.nfwd plans).length 1 ≤ sizes.nfwd := hnfwd
  have hnadj' : min (directions JacobianPlan.nadj plans).length 1 ≤ sizes.nadj := hnadj
  have hwork' : (f.layout (min (directions JacobianPlan.nadj plans).length 1)).size ≤ sizes.work :=
    hwork
  have hfull : directions JacobianPlan.nadj plans ≠ [] → f.full.size ≤ sizes.work := by
    intro hne
    have hone : f.layout (min (directions JacobianPlan.nadj plans).length 1) = f.full := by
      have hpos := List.length_pos_iff.2 hne
      rw [layout, if_neg (by omega)]
    rwa [hone] at hwork'
  refine ⟨hplans, hfit, ?_, fun hne => ?_, hfull, fun hne => ?_⟩
  · by_cases hnone : directions JacobianPlan.nadj plans = []
    · rwa [hnone] at hwork'
    · exact Nat.le_trans (size_layout_le hf 0) (hfull hnone)
  · have hpos := List.length_pos_iff.2 hne
    omega
  · have hpos := List.length_pos_iff.2 hne
    omega

/-- The directions of accepted blocks lead from inputs to outputs of the tape. -/
theorem AcceptsBlocks.range_of_mem_directions
    {sizes : MemorySizes} {plans : List JacobianPlan} (h : f.AcceptsBlocks sizes xs plans)
    {count : JacobianPlan → Nat} {dir : Direction} (hdir : dir ∈ directions count plans) :
    dir.plan.output < f.nOut ∧ dir.plan.input < f.nIn :=
  have hfits := h.fits _ (List.mem_of_getElem? (mem_directions_iff.1 hdir).1)
  ⟨hfits.output, hfits.input⟩

/-- A memory of the full work size with a direction of either kind holds every assembly. -/
theorem check_leastMemory
    (hf : f.WellFormed) {sizes : MemorySizes} (hwork : f.full.size ≤ sizes.work)
    (hnfwd : 1 ≤ sizes.nfwd) (hnadj : 1 ≤ sizes.nadj) (op : String) (nfwd nadj : Nat) :
    sizes.check op (f.leastMemory nfwd nadj) = .ok () := by
  refine MemorySizes.check_eq_ok_iff.2 ⟨Nat.le_trans (size_layout_le hf _) hwork, ?_, ?_, ?_⟩
  · exact Nat.le_trans (Nat.min_le_right ..) hnfwd
  · exact Nat.le_trans (Nat.min_le_right ..) hnadj
  · have hsecond : sizes.second = sizes.nfwd := if_pos hnadj
    rw [hsecond, MemorySizes.second]
    split
    · exact Nat.le_trans (Nat.min_le_right ..) hnfwd
    · exact Nat.zero_le _

end Tape

/-- What is asked of all batches is asked of all items. -/
theorem forall_select_iff
    {α : Type} {items : List α} {size : Nat} (hsize : items ≠ [] → 1 ≤ size) {P : α → Prop} :
    (∀ b ∈ batches items.length size, ∀ x ∈ b.select items, P x) ↔ ∀ x ∈ items, P x := by
  constructor
  · intro h x hx
    obtain ⟨b, hb, hmem⟩ := exists_mem_select (hsize (List.ne_nil_of_mem hx)) hx
    exact h b hb x hmem
  · exact fun h b _ x hx => h x (mem_of_mem_select hx)

/-- No batch is empty. -/
theorem select_ne_nil
    {α : Type} {items : List α} {size : Nat} (hsize : items ≠ [] → 1 ≤ size) {b : Batch}
    (hb : b ∈ batches items.length size) :
    b.select items ≠ [] := by
  obtain ⟨k, hk, rfl⟩ := mem_batches_iff.1 hb
  have hpos : 0 < items.length := by omega
  have hone := hsize (List.length_pos_iff.1 hpos)
  refine List.length_pos_iff.1 ?_
  simp only [Batch.select, List.length_take, List.length_drop]
  omega

/-- What is asked of all directions is asked of all colors of all plans. -/
theorem forall_directions_iff
    {count : JacobianPlan → Nat} {plans : List JacobianPlan} {P : JacobianPlan → Nat → Prop} :
    (∀ dir ∈ directions count plans, P dir.plan dir.color) ↔
      ∀ plan ∈ plans, ∀ color < count plan, P plan color := by
  constructor
  · intro h plan hplan color hcolor
    obtain ⟨block, hblock⟩ := List.mem_iff_getElem?.1 hplan
    exact h ⟨block, plan, color⟩ (mem_directions_iff.2 ⟨hblock, hcolor⟩)
  · intro h dir hdir
    obtain ⟨hplan, hcolor⟩ := mem_directions_iff.1 hdir
    exact h dir.plan (List.mem_of_getElem? hplan) dir.color hcolor

/-- Some batch holds the result of a color, and the batches that hold it agree. -/
theorem exists_sum?_iff
    {plans : List JacobianPlan} {count : JacobianPlan → Nat} {size : Nat}
    (hsize : directions count plans ≠ [] → 1 ≤ size) {block : Nat} {plan : JacobianPlan}
    (hplan : plans[block]? = some plan) (result : Direction → Array F) {k : Nat} {x : Array F} :
    (∃ b ∈ batches (directions count plans).length size,
      Compressed.sum? ((b.select (directions count plans)).map fun dir => (dir, result dir))
        block k = some x) ↔ k < count plan ∧ x = result ⟨block, plan, k⟩ := by
  have hsum : ∀ b : Batch, Compressed.sum?
      ((b.select (directions count plans)).map fun dir => (dir, result dir)) block k = some x ↔
        ⟨block, plan, k⟩ ∈ b.select (directions count plans) ∧ x = result ⟨block, plan, k⟩ :=
    fun b => Compressed.sum?_eq_some_iff
      (fun dir hdir => (mem_directions_iff.1 (mem_of_mem_select hdir)).1) hplan result
  constructor
  · rintro ⟨b, -, h⟩
    obtain ⟨hmem, rfl⟩ := (hsum b).1 h
    exact ⟨(mem_directions_iff.1 (mem_of_mem_select hmem)).2, rfl⟩
  · rintro ⟨hk, rfl⟩
    have hdir : ⟨block, plan, k⟩ ∈ directions count plans := mem_directions_iff.2 ⟨hplan, hk⟩
    obtain ⟨b, hb, hmem⟩ := exists_mem_select (hsize (List.ne_nil_of_mem hdir)) hdir
    exact ⟨b, hb, (hsum b).2 ⟨hmem, rfl⟩⟩

section Values

variable [Zero F] [One F] [Add F] [Mul F] [Calculus F]

namespace JacobianPlan

variable {f : Tape F} {xs : List (List F)}

/-- Entry `(r, c)` from the forward direction of its column, in a row without an adjoint color. -/
def columnPick (f : Tape F) (xs : List (List F)) (plan : JacobianPlan) (r c : Nat) : Option F :=
  if (plan.partition.adjoint.colorOf r).isSome then
    none
  else do
    let color ← plan.partition.forward.colorOf c
    (f.columnSum xs ⟨0, plan, color⟩)[r]?

/-- Entry `(r, c)` from the adjoint direction of its row. -/
def rowPick (f : Tape F) (xs : List (List F)) (plan : JacobianPlan) (r c : Nat) : Option F := do
  let color ← plan.partition.adjoint.colorOf r
  (f.pushedRow xs ⟨0, plan, color⟩)[c]?

/-- The values of a block after the forward directions of its plan. -/
def forwardValues (f : Tape F) (xs : List (List F)) (plan : JacobianPlan) : Array F :=
  overlay plan.pattern (plan.columnPick f xs) (zeroValues plan.pattern)

/-- The values of a block, from the directions of its plan alone. -/
def values (f : Tape F) (xs : List (List F)) (plan : JacobianPlan) : Array F :=
  overlay plan.pattern (plan.rowPick f xs) (plan.forwardValues f xs)

@[simp] theorem size_forwardValues
    (f : Tape F) (xs : List (List F)) (plan : JacobianPlan) :
    (plan.forwardValues f xs).size = plan.pattern.nnz := by
  simp [forwardValues, zeroValues]

/-- No direction of the plan meets a number that is not finite. -/
structure Finite (f : Tape F) (xs : List (List F)) (plan : JacobianPlan) : Prop where
  forward : ∀ color < plan.nfwd,
    f.FiniteForward (f.layout 0) xs (Direction.tangentSeed ⟨0, plan, color⟩)
  value : 0 < plan.nadj → Everywhere f.elements (f.FiniteValues f.full xs)
  adjoint : ∀ color < plan.nadj,
    f.FinitePushed xs [plan.output] (Direction.adjointSeed ⟨0, plan, color⟩)

/-- The directions of several plans are finite exactly if those of every plan are. -/
theorem forall_finite_iff
    {plans : List JacobianPlan} :
    (∀ plan ∈ plans, plan.Finite f xs) ↔
      (∀ dir ∈ directions nfwd plans, f.FiniteForward (f.layout 0) xs dir.tangentSeed) ∧
        (directions nadj plans ≠ [] → Everywhere f.elements (f.FiniteValues f.full xs)) ∧
          ∀ dir ∈ directions nadj plans, f.FinitePushed xs [dir.plan.output] dir.adjointSeed := by
  have hforward : (∀ dir ∈ directions nfwd plans,
        f.FiniteForward (f.layout 0) xs dir.tangentSeed) ↔
      ∀ plan ∈ plans, ∀ color < plan.nfwd,
        f.FiniteForward (f.layout 0) xs (Direction.tangentSeed ⟨0, plan, color⟩) :=
    forall_directions_iff (P := fun plan color =>
      f.FiniteForward (f.layout 0) xs (Direction.tangentSeed ⟨0, plan, color⟩))
  have hadjoint : (∀ dir ∈ directions nadj plans,
        f.FinitePushed xs [dir.plan.output] dir.adjointSeed) ↔
      ∀ plan ∈ plans, ∀ color < plan.nadj,
        f.FinitePushed xs [plan.output] (Direction.adjointSeed ⟨0, plan, color⟩) :=
    forall_directions_iff (P := fun plan color =>
      f.FinitePushed xs [plan.output] (Direction.adjointSeed ⟨0, plan, color⟩))
  have hne : directions nadj plans ≠ [] ↔ ∃ plan ∈ plans, 0 < plan.nadj := by
    constructor
    · intro hne
      obtain ⟨dir, hdir⟩ := List.exists_mem_of_ne_nil _ hne
      obtain ⟨hplan, hcolor⟩ := mem_directions_iff.1 hdir
      exact ⟨dir.plan, List.mem_of_getElem? hplan, by omega⟩
    · rintro ⟨plan, hplan, hpos⟩
      obtain ⟨block, hblock⟩ := List.mem_iff_getElem?.1 hplan
      exact List.ne_nil_of_mem (a := ⟨block, plan, 0⟩) (mem_directions_iff.2 ⟨hblock, hpos⟩)
  rw [hforward, hadjoint, hne]
  constructor
  · intro h
    exact ⟨fun plan hplan => (h plan hplan).forward,
      fun ⟨plan, hplan, hpos⟩ => (h plan hplan).value hpos,
      fun plan hplan => (h plan hplan).adjoint⟩
  · rintro ⟨hfwd, hvalue, hadj⟩ plan hplan
    exact ⟨hfwd plan hplan, fun hpos => hvalue ⟨plan, hplan, hpos⟩, hadj plan hplan⟩

variable {plans : List JacobianPlan} {size : Nat}

/-- The forward batches write the columns of every block. -/
theorem foldl_fromColumns
    (hsize : directions nfwd plans ≠ [] → 1 ≤ size) {block : Nat} {plan : JacobianPlan}
    (hplan : plans[block]? = some plan) :
    (batches (directions nfwd plans).length size).foldl (fun out b => overlay plan.pattern
      (Compressed.fromColumns ((b.select (directions nfwd plans)).map
        fun dir => (dir, f.columnSum xs dir)) block plan.partition) out) (zeroValues plan.pattern) =
      plan.forwardValues f xs := by
  have hsum := fun {k x} => exists_sum?_iff (k := k) (x := x) hsize hplan (f.columnSum xs)
  refine foldl_overlay_eq (fun b hb r c x hx => ?_) (fun r c x hx => ?_) (by simp [zeroValues])
  · unfold Compressed.fromColumns at hx
    unfold columnPick
    split at hx
    · cases hx
    · next hrow =>
        obtain ⟨k, hk, hx⟩ := Option.bind_eq_some_iff.1 hx
        obtain ⟨column, hcolumn, hx⟩ := Option.bind_eq_some_iff.1 hx
        obtain ⟨-, rfl⟩ := hsum.1 ⟨b, hb, hcolumn⟩
        rw [if_neg hrow]
        exact Option.bind_eq_some_iff.2 ⟨k, hk, hx⟩
  · unfold columnPick at hx
    unfold Compressed.fromColumns
    split at hx
    · cases hx
    · next hrow =>
        obtain ⟨k, hk, hx⟩ := Option.bind_eq_some_iff.1 hx
        obtain ⟨b, hb, hcolumn⟩ := hsum.2 ⟨Coloring.lt_ncolors hk, rfl⟩
        refine ⟨b, hb, ?_⟩
        rw [if_neg hrow]
        exact Option.bind_eq_some_iff.2 ⟨k, hk, Option.bind_eq_some_iff.2 ⟨_, hcolumn, hx⟩⟩

/-- The adjoint batches write the rows of every block. -/
theorem foldl_fromRows
    (hsize : directions nadj plans ≠ [] → 1 ≤ size) {block : Nat} {plan : JacobianPlan}
    (hplan : plans[block]? = some plan) :
    (batches (directions nadj plans).length size).foldl (fun out b => overlay plan.pattern
      (Compressed.fromRows ((b.select (directions nadj plans)).map
        fun dir => (dir, f.pushedRow xs dir)) block plan.partition) out)
        (plan.forwardValues f xs) =
      plan.values f xs := by
  have hsum := fun {k x} => exists_sum?_iff (k := k) (x := x) hsize hplan (f.pushedRow xs)
  refine foldl_overlay_eq (fun b hb r c x hx => ?_) (fun r c x hx => ?_) (size_forwardValues ..)
  · obtain ⟨k, hk, hx⟩ := Option.bind_eq_some_iff.1 hx
    obtain ⟨row, hrow, hx⟩ := Option.bind_eq_some_iff.1 hx
    obtain ⟨-, rfl⟩ := hsum.1 ⟨b, hb, hrow⟩
    exact Option.bind_eq_some_iff.2 ⟨k, hk, hx⟩
  · obtain ⟨k, hk, hx⟩ := Option.bind_eq_some_iff.1 hx
    obtain ⟨b, hb, hrow⟩ := hsum.2 ⟨Coloring.lt_ncolors hk, rfl⟩
    exact ⟨b, hb, Option.bind_eq_some_iff.2 ⟨k, hk, Option.bind_eq_some_iff.2 ⟨_, hrow, hx⟩⟩⟩

end JacobianPlan

namespace Tape

variable {f : Tape F} {xs : List (List F)}

/-- Forward sweeps over all batches. -/
theorem guarded_forwardBatches
    (hf : f.WellFormed) {m : Memory F} (hm : m.WellSized)
    (hwork : (f.layout 0).size ≤ m.sizes.work) (hfit : FitLists f.inputPatterns xs)
    (plans : List JacobianPlan) {dirs : List Direction}
    (hdirs : ∀ dir ∈ dirs, dir.plan.output < f.nOut) {size : Nat} (hsize : size ≤ m.sizes.nfwd)
    (hone : dirs ≠ [] → 1 ≤ size) (values : List (Array F)) :
    Run.Guarded f.config.checkFinite
      (∀ dir ∈ dirs, f.FiniteForward (f.layout 0) xs dir.tangentSeed)
      (f.forwardBatches xs plans dirs size values) m
      fun result m' => result =
          (batches dirs.length size).foldl (fun values b => scatter Compressed.fromColumns
            ((b.select dirs).map fun dir => (dir, f.columnSum xs dir)) plans values) values ∧
        m'.WellSized ∧ m'.sizes = m.sizes := by
  have hbatch : ∀ b ∈ batches dirs.length size, ∀ (values : List (Array F)) (m₁ : Memory F),
      m₁.WellSized ∧ m₁.sizes = m.sizes →
      Run.Guarded f.config.checkFinite
        (∀ dir ∈ b.select dirs, f.FiniteForward (f.layout 0) xs dir.tangentSeed)
        (do
          let found ← f.forwardDirections (f.segmentsAt (f.layout 0)) xs (b.select dirs)
          return scatter Compressed.fromColumns found plans values) m₁
        fun result m₂ => result = scatter Compressed.fromColumns
            ((b.select dirs).map fun dir => (dir, f.columnSum xs dir)) plans values ∧
          m₂.WellSized ∧ m₂.sizes = m.sizes := by
    rintro b hb values m₁ ⟨hsized, hsizes⟩
    have hlength := length_select_le b dirs
    have hstop := (stop_of_mem_batches hb).1
    have hswept := guarded_forwardDirections hf hsized (by rw [hsizes]; exact hwork) hfit
      (show (b.select dirs).length ≤ m₁.sizes.nfwd by rw [hsizes]; omega)
      fun dir hdir => hdirs dir (mem_of_mem_select hdir)
    refine (hswept.bind_gives fun found m₂ h => ?_).congr ?_
    · obtain ⟨rfl, hsized₂, hsizes₂⟩ := h
      exact ⟨_, m₂, Run.gives_pure.2 ⟨rfl, rfl⟩, rfl, hsized₂, hsizes₂.trans hsizes⟩
    · rw [everywhere_passes_iff_of_ne_nil (by simpa using select_ne_nil hone hb)]
      exact List.forall_mem_map
  refine (Run.guarded_bind_of_gives (Run.gives_ofExcept.2
    ⟨segments_of_sound hf (layout_sound hf 0), rfl⟩)).2 ?_
  exact (Run.guarded_foldlM hbatch values m ⟨hm, rfl⟩).congr (forall_select_iff hone)

/-- A value sweep and adjoint sweeps over all batches. -/
theorem guarded_adjointBatches
    [Calculus.NeutralZero F] (hf : f.WellFormed) {m : Memory F} (hm : m.WellSized)
    (hwork : f.full.size ≤ m.sizes.work) (hfit : FitLists f.inputPatterns xs) (op : String)
    (plans : List JacobianPlan) {dirs : List Direction}
    (hdirs : ∀ dir ∈ dirs, dir.plan.output < f.nOut ∧ dir.plan.input < f.nIn) {size : Nat}
    (hsize : size ≤ m.sizes.nadj) (hone : dirs ≠ [] → 1 ≤ size) (values : List (Array F)) :
    Run.Guarded f.config.checkFinite
      (Everywhere f.elements (f.FiniteValues f.full xs) ∧
        ∀ dir ∈ dirs, f.FinitePushed xs [dir.plan.output] dir.adjointSeed)
      (f.adjointBatches op xs plans dirs size values) m
      fun result _ => result =
        (batches dirs.length size).foldl (fun values b => scatter Compressed.fromRows
          ((b.select dirs).map fun dir => (dir, f.pushedRow xs dir)) plans values) values := by
  refine (Run.guarded_bind_of_gives (Run.gives_ofExcept.2 ⟨segments_full hf, rfl⟩)).2 ?_
  refine (guarded_loadValues hf hm hwork hfit op).bind fun _ m₀ h₀ => ?_
  obtain ⟨hsized₀, hsizes₀, hvalues₀⟩ := h₀
  have hbatch : ∀ b ∈ batches dirs.length size, ∀ (values : List (Array F)) (m₁ : Memory F),
      m₁.WellSized ∧ m₁.sizes = m.sizes ∧ m₁.values = m₀.values →
      Run.Guarded f.config.checkFinite
        (∀ dir ∈ b.select dirs, f.FinitePushed xs [dir.plan.output] dir.adjointSeed)
        (do
          let found ← f.adjointDirections (f.segmentsAt f.full) (b.select dirs)
          return scatter Compressed.fromRows found plans values) m₁
        fun result m₂ => result = scatter Compressed.fromRows
            ((b.select dirs).map fun dir => (dir, f.pushedRow xs dir)) plans values ∧
          m₂.WellSized ∧ m₂.sizes = m.sizes ∧ m₂.values = m₀.values := by
    rintro b hb values m₁ ⟨hsized, hsizes, hvalues⟩
    have hlength := length_select_le b dirs
    have hstop := (stop_of_mem_batches hb).1
    have hswept := guarded_adjointDirections hf hsized (by rw [hsizes]; exact hwork)
      (show ∀ s < f.full.size, m₁.values.getD s 0 = (f.valueArray xs).getD s 0 by
        rw [hvalues]
        exact hvalues₀)
      (show (b.select dirs).length ≤ m₁.sizes.nadj by rw [hsizes]; omega)
      fun dir hdir => hdirs dir (mem_of_mem_select hdir)
    refine hswept.bind_gives fun found m₂ h => ?_
    obtain ⟨rfl, hsized₂, hsizes₂, hvalues₂⟩ := h
    exact ⟨_, m₂, Run.gives_pure.2 ⟨rfl, rfl⟩, rfl, hsized₂, hsizes₂.trans hsizes,
      hvalues₂.trans hvalues⟩
  exact ((Run.guarded_foldlM hbatch values m₀ ⟨hsized₀, hsizes₀, rfl⟩).imp
    fun _ _ h => h.1).congr (forall_select_iff hone)

/-- An assembly that does not pass its check is refused with the error of the check. -/
theorem run_jacobianValues_of_check_error
    {m : Memory F} {op : String} {plans : List JacobianPlan} {e : Error}
    (h : f.checkJacobians op m.sizes xs plans = .error e) :
    (f.jacobianValues op xs plans).run.run m = (.error (.rejected e), m) :=
  Run.run_get_check_of_error (e := fun m' => f.checkJacobians op m'.sizes xs plans) h

theorem jacobianValues_of_check_error
    {m : Memory F} {op : String} {plans : List JacobianPlan} {e : Error}
    (h : f.checkJacobians op m.sizes xs plans = .error e) :
    (f.jacobianValues op xs plans).alone m = .error (.rejected e) :=
  congrArg Prod.fst (run_jacobianValues_of_check_error h)

variable [Calculus.NeutralZero F]

/-- Every block gets the values that its own directions give it, whatever the batches are. -/
theorem guarded_jacobianValues
    (hf : f.WellFormed) (hmax : 1 ≤ f.config.maxDirections) {m : Memory F} (hm : m.WellSized)
    {op : String} {plans : List JacobianPlan}
    (hcheck : f.checkJacobians op m.sizes xs plans = .ok ()) :
    Run.Guarded f.config.checkFinite (∀ plan ∈ plans, plan.Finite f xs)
      (f.jacobianValues op xs plans) m
      fun values _ => values = plans.map (JacobianPlan.values f xs) := by
  have haccepts := acceptsBlocks_of_checkJacobians hf hcheck
  have hnfwd : directions JacobianPlan.nfwd plans ≠ [] →
      1 ≤ min f.config.maxDirections m.sizes.nfwd := fun hne => by
    have := haccepts.nfwd hne
    omega
  have hnadj : directions JacobianPlan.nadj plans ≠ [] →
      1 ≤ min f.config.maxDirections m.sizes.nadj := fun hne => by
    have := haccepts.nadj hne
    omega
  have hzeros : (plans.map fun plan => zeroValues (F := F) plan.pattern) =
      plans.zipIdx.map fun item => zeroValues item.1.pattern :=
    (map_zipIdx_fst plans fun plan => zeroValues (F := F) plan.pattern).symm
  -- what both kinds of batches leave in the values of all blocks
  have hcolumns : (batches (directions JacobianPlan.nfwd plans).length
        (min f.config.maxDirections m.sizes.nfwd)).foldl (fun values b =>
          scatter Compressed.fromColumns ((b.select (directions JacobianPlan.nfwd plans)).map
            fun dir => (dir, f.columnSum xs dir)) plans values)
        (plans.map fun plan => zeroValues plan.pattern) =
      plans.zipIdx.map fun item => item.1.forwardValues f xs := by
    rw [hzeros, foldl_scatter]
    exact List.map_congr_left fun item hitem =>
      JacobianPlan.foldl_fromColumns hnfwd (List.mem_zipIdx_iff_getElem?.1 hitem)
  have hrows : (batches (directions JacobianPlan.nadj plans).length
        (min f.config.maxDirections m.sizes.nadj)).foldl (fun values b =>
          scatter Compressed.fromRows ((b.select (directions JacobianPlan.nadj plans)).map
            fun dir => (dir, f.pushedRow xs dir)) plans values)
        (plans.zipIdx.map fun item => item.1.forwardValues f xs) =
      plans.map (JacobianPlan.values f xs) := by
    rw [foldl_scatter, ← map_zipIdx_fst plans (JacobianPlan.values f xs)]
    exact List.map_congr_left fun item hitem =>
      JacobianPlan.foldl_fromRows hnadj (List.mem_zipIdx_iff_getElem?.1 hitem)
  unfold jacobianValues
  rw [Run.guarded_get_bind]
  refine (Run.guarded_bind_of_gives (Run.gives_check.2 ⟨hcheck, rfl⟩)).2 ?_
  refine ((guarded_forwardBatches hf hm haccepts.work haccepts.fit plans
    (fun _ hdir => (haccepts.range_of_mem_directions hdir).1) (Nat.min_le_right ..) hnfwd _).bind
    fun values m₁ h => ?_).congr JacobianPlan.forall_finite_iff.symm
  obtain ⟨rfl, hsized₁, hsizes₁⟩ := h
  rw [hcolumns]
  by_cases hne : directions JacobianPlan.nadj plans = []
  · rw [if_pos (List.isEmpty_iff.2 hne)]
    rw [hne, List.length_nil, batches_zero] at hrows
    exact ⟨hrows, fun _ => ⟨fun hne' => absurd hne hne', fun dir hdir => by simp [hne] at hdir⟩⟩
  · rw [if_neg (by simpa using hne)]
    refine ((guarded_adjointBatches hf hsized₁ (by rw [hsizes₁]; exact haccepts.full hne)
      haccepts.fit op plans (fun _ => haccepts.range_of_mem_directions)
      (by rw [hsizes₁]; exact Nat.min_le_right ..) hnadj _).imp
        fun _ _ h => h.trans hrows).congr ?_
    exact ⟨fun h => ⟨fun _ => h.1, h.2⟩, fun h => ⟨h.1 hne, h.2⟩⟩

/-- The Jacobian of a plan has the values that the directions of the plan give it. -/
theorem guarded_jacobianWithPlan
    (hf : f.WellFormed) (hmax : 1 ≤ f.config.maxDirections) {m : Memory F} (hm : m.WellSized)
    {plan : JacobianPlan} (hcheck : f.checkJacobians jacobianOp m.sizes xs [plan] = .ok ()) :
    Run.Guarded f.config.checkFinite (plan.Finite f xs) (f.jacobianWithPlan xs plan) m
      fun jac _ => jac = ⟨plan.pattern, plan.values f xs⟩ := by
  refine ((guarded_jacobianValues hf hmax hm hcheck).bind_gives fun values m₁ h => ?_).congr
    List.forall_mem_singleton
  subst h
  exact ⟨_, m₁, Run.gives_pure.2 ⟨rfl, rfl⟩, rfl⟩

end Tape

end Values

/-- A memory for every assembly: the full work size and a direction of either kind. -/
structure Memory.Roomy (f : Tape F) (m : Memory F) : Prop where
  wellSized : m.WellSized
  work : f.full.size ≤ m.sizes.work
  nfwd : 1 ≤ m.sizes.nfwd
  nadj : 1 ≤ m.sizes.nadj

namespace Tape

/-- A roomy memory passes the check of every assembly of plans and inputs that fit the tape. -/
theorem checkJacobians_eq_ok_iff_of_roomy
    {f : Tape F} (hf : f.WellFormed) {m : Memory F} (hm : m.Roomy f) {op : String}
    {xs : List (List F)} {plans : List JacobianPlan} :
    f.checkJacobians op m.sizes xs plans = .ok () ↔
      (∀ plan ∈ plans, plan.Fits f) ∧ FitLists f.inputPatterns xs := by
  rw [checkJacobians_eq_ok_iff]
  exact ⟨fun h => ⟨h.1, h.2.1⟩,
    fun h => ⟨h.1, h.2, check_leastMemory hf hm.work hm.nfwd hm.nadj op _ _⟩⟩

section Single

variable [Zero F] [One F] [Add F] [Mul F] [Calculus F] [Calculus.NeutralZero F] {f : Tape F}
  {xs : List (List F)} {m : Memory F}

/-- When the values of an assembly are returned, and which they are. -/
theorem jacobianValues_eq_ok_iff
    (hf : f.WellFormed) (hmax : 1 ≤ f.config.maxDirections) (hm : m.Roomy f) {op : String}
    {plans : List JacobianPlan} {values : List (Array F)} :
    (f.jacobianValues op xs plans).alone m = .ok values ↔
      ((∀ plan ∈ plans, plan.Fits f) ∧ FitLists f.inputPatterns xs) ∧
        values = plans.map (JacobianPlan.values f xs) ∧
          (f.config.checkFinite = true → ∀ plan ∈ plans, plan.Finite f xs) := by
  have hroomy : f.checkJacobians op m.sizes xs plans = .ok () ↔ _ :=
    checkJacobians_eq_ok_iff_of_roomy hf hm
  rw [← hroomy]
  cases hcheck : f.checkJacobians op m.sizes xs plans with
  | error e =>
      rw [jacobianValues_of_check_error hcheck]
      simp
  | ok u =>
      rw [(guarded_jacobianValues hf hmax hm.wellSized hcheck).alone_eq_ok_iff]
      simp

/-- When the Jacobian of a plan is returned, and which it is. -/
theorem jacobianWithPlan_eq_ok_iff
    (hf : f.WellFormed) (hmax : 1 ≤ f.config.maxDirections) (hm : m.Roomy f)
    {plan : JacobianPlan} {jac : SparseMatrix F} :
    (f.jacobianWithPlan xs plan).alone m = .ok jac ↔
      (plan.Fits f ∧ FitLists f.inputPatterns xs) ∧
        jac = ⟨plan.pattern, plan.values f xs⟩ ∧
          (f.config.checkFinite = true → plan.Finite f xs) := by
  refine Run.alone_map_eq_ok_iff.trans ?_
  simp only [jacobianValues_eq_ok_iff hf hmax hm, List.forall_mem_singleton]
  constructor
  · rintro ⟨_, ⟨hfits, rfl, hfinite⟩, rfl⟩
    exact ⟨hfits, rfl, hfinite⟩
  · rintro ⟨hfits, rfl, hfinite⟩
    exact ⟨_, ⟨hfits, rfl, hfinite⟩, rfl⟩

/-- When the blocks of several plans are returned, and which they are. -/
theorem jacobianBlocksWithPlans_eq_ok_iff
    (hf : f.WellFormed) (hmax : 1 ≤ f.config.maxDirections) (hm : m.Roomy f)
    {plans : List JacobianPlan} {jacs : List (SparseMatrix F)} :
    (f.jacobianBlocksWithPlans xs plans).alone m = .ok jacs ↔
      ((∀ plan ∈ plans, plan.Fits f) ∧ FitLists f.inputPatterns xs) ∧
        jacs = plans.map (fun plan => ⟨plan.pattern, plan.values f xs⟩) ∧
          (f.config.checkFinite = true → ∀ plan ∈ plans, plan.Finite f xs) := by
  have hzip : List.zipWith (fun (plan : JacobianPlan) values => SparseMatrix.mk plan.pattern values)
      plans (plans.map (JacobianPlan.values f xs)) =
        plans.map fun plan => ⟨plan.pattern, plan.values f xs⟩ := by
    rw [List.zipWith_map_right, List.zipWith_self]
  refine Run.alone_map_eq_ok_iff.trans ?_
  simp only [jacobianValues_eq_ok_iff hf hmax hm]
  constructor
  · rintro ⟨_, ⟨hfits, rfl, hfinite⟩, rfl⟩
    exact ⟨hfits, hzip, hfinite⟩
  · rintro ⟨hfits, rfl, hfinite⟩
    exact ⟨_, ⟨hfits, rfl, hfinite⟩, hzip.symm⟩

end Single

section Compiled

variable [Zero F] [One F] [Add F] [Sub F] [Neg F] [Mul F] [Div F] [Elementary F] [ElementText F]
  [Calculus.NeutralZero F]

/--
In roomy memories, the blocks of a list of plans are returned exactly if each plan alone gives
its Jacobian, and they are these Jacobians in the order of the plans. Without a plan there is
nothing else that looks at the inputs, so they have to fit.
-/
theorem jacobianBlocks_eq_singles
    {g : Graph F} {inputs outputs : List NodeId} {config : Config} {f : Tape F}
    (hbare : g.BareLeaves) (hcompile : compile g inputs outputs config = .ok f)
    (hmax : 1 ≤ config.maxDirections) {m m' : Memory F} (hm : m.Roomy f) (hm' : m'.Roomy f)
    {xs : List (List F)} {plans : List JacobianPlan}
    (hnone : plans = [] → f.checkInputValues "jacobian_blocks" xs = .ok ()) :
    ((∃ jacs, (f.jacobianBlocksWithPlans xs plans).alone m = .ok jacs) ↔
      ∀ plan ∈ plans, ∃ jac, (f.jacobianWithPlan xs plan).alone m' = .ok jac) ∧
    ∀ jacs, (f.jacobianBlocksWithPlans xs plans).alone m = .ok jacs →
      List.Forall₂ (fun plan jac => (f.jacobianWithPlan xs plan).alone m' = .ok jac) plans
        jacs := by
  obtain ⟨order, h⟩ := compiled_of_compile hbare hcompile
  have hf := h.wellFormed
  have hmax' := h.one_le_maxDirections hmax
  have hblocks : ∀ jacs, (f.jacobianBlocksWithPlans xs plans).alone m = .ok jacs ↔ _ := fun _ =>
    jacobianBlocksWithPlans_eq_ok_iff hf hmax' hm
  have hsingle : ∀ plan jac, (f.jacobianWithPlan xs plan).alone m' = .ok jac ↔ _ := fun _ _ =>
    jacobianWithPlan_eq_ok_iff hf hmax' hm'
  simp only [hblocks, hsingle]
  constructor
  · constructor
    · rintro ⟨jacs, ⟨hfits, hfit⟩, -, hfinite⟩ plan hplan
      exact ⟨_, ⟨hfits plan hplan, hfit⟩, rfl, fun hon => hfinite hon plan hplan⟩
    · intro hall
      have hfit : FitLists f.inputPatterns xs := by
        by_cases hempty : plans = []
        · exact checkLists_eq_ok_iff.1 (hnone hempty)
        · obtain ⟨plan, hplan⟩ := List.exists_mem_of_ne_nil plans hempty
          obtain ⟨-, ⟨-, hfit⟩, -⟩ := hall plan hplan
          exact hfit
      refine ⟨_, ⟨fun plan hplan => ?_, hfit⟩, rfl, fun hon plan hplan => ?_⟩
      · obtain ⟨-, ⟨hfits, -⟩, -⟩ := hall plan hplan
        exact hfits
      · obtain ⟨-, -, -, hfinite⟩ := hall plan hplan
        exact hfinite hon
  · rintro _ ⟨⟨hfits, hfit⟩, rfl, hfinite⟩
    rw [List.forall₂_map_right_iff, List.forall₂_same]
    exact fun plan hplan => ⟨⟨hfits plan hplan, hfit⟩, rfl, fun hon => hfinite hon plan hplan⟩

end Compiled

/-- The plans of the product, which has a row color, and of the scaled column. -/
def scalingPlans : List JacobianPlan :=
  [⟨0, 0, ⟨2, #[[0, 1]]⟩, ⟨⟨#[none, none]⟩, ⟨#[some 0]⟩⟩⟩,
    ⟨1, 0, ⟨2, #[[0, 1], [0, 1]]⟩, ⟨⟨#[some 0, some 1]⟩, ⟨#[none, none]⟩⟩⟩]

theorem jacobianBlocks_eq_singles_scaling :
    ∃ jacs, (scaling.jacobianBlocksWithPlans [[2, 3]] scalingPlans).alone (scaling.memory 2 2) =
        .ok jacs ∧
      List.Forall₂ (fun plan jac => (scaling.jacobianWithPlan [[2, 3]] plan).alone
        (scaling.memory 1 1) = .ok jac) scalingPlans jacs := by
  have hroomy : ∀ n, 1 ≤ n → (scaling.memory n n).Roomy scaling := fun n hn => by
    refine ⟨Memory.wellSized_new _, ?_, hn, hn⟩
    show scaling.full.size ≤ (scaling.layout n).size
    rw [layout, if_neg (by omega)]
  obtain ⟨hiff, hsame⟩ := jacobianBlocks_eq_singles Graph.bareLeaves_scaling compile_scaling
    (by decide) (hroomy 2 (by omega)) (hroomy 1 (by omega))
    (show scalingPlans = [] → scaling.checkInputValues "jacobian_blocks" [[2, 3]] = .ok () from
      fun h => absurd h (by decide))
  obtain ⟨jacs, hjacs⟩ := hiff.2 fun plan hplan => by
    rcases List.mem_pair.1 hplan with rfl | rfl
    · exact ⟨⟨⟨2, #[[0, 1]]⟩, #[3, 2]⟩, by cbv⟩
    · exact ⟨⟨⟨2, #[[0, 1], [0, 1]]⟩, #[12, 4, 9, 12]⟩, by cbv⟩
  exact ⟨jacs, hjacs, hsame jacs hjacs⟩

/-- No plan is refused, but inputs that do not fit are. -/
theorem jacobianBlocks_without_plans :
    compile Graph.scaling [0] [3, 4, 0] {} = .ok scaling ∧
      (∀ plan ∈ ([] : List JacobianPlan),
        ∃ jac, (scaling.jacobianWithPlan [] plan).alone (scaling.memory 1 1) = .ok jac) ∧
      ¬ ∃ jacs, (scaling.jacobianBlocksWithPlans [] []).alone (scaling.memory 1 1) = .ok jacs := by
  have hrefused : (scaling.jacobianBlocksWithPlans [] []).alone (scaling.memory 1 1) =
      .error (.rejected (.dimension "jacobian_blocks" (.mismatch .inputs 1 0))) := by
    cbv
  refine ⟨compile_scaling, by simp, ?_⟩
  rw [hrefused]
  simp

end Tape

end SparseDiff
