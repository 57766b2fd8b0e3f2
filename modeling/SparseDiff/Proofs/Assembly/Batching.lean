import SparseDiff.Proofs.Assembly.Blocks
import SparseDiff.Proofs.Assembly.Hessian
import SparseDiff.Proofs.Directions.Products
import SparseDiff.Proofs.Rational

/-!
# Batches of any size

How many colors share a sweep is decided by the configuration and by the memory. The product of a
color does not depend on the other colors of its sweep, so a Hessian has the values that its colors
give it one by one (`HessianPlan.values`), and its assembly refuses exactly where the sweep of some
color alone would (`Tape.guarded_hessianWithPlan`). With `Tape.guarded_jacobianWithPlan` it follows
that directions do not influence each other (`Tape.directions_independent`).
-/

namespace SparseDiff

variable {F : Type}

/-- No batch of colors is empty. -/
theorem members_ne_nil
    {n size : Nat} (hsize : 0 < n → 1 ≤ size) {b : Batch} (hb : b ∈ batches n size) :
    b.members ≠ [] := by
  obtain ⟨k, hk, rfl⟩ := mem_batches_iff.1 hb
  have hone := hsize (by omega)
  refine List.length_pos_iff.1 ?_
  simp only [Batch.length_members]
  omega

/-- What is asked of all batches is asked of all colors. -/
theorem forall_members_iff
    {n size : Nat} (hsize : 0 < n → 1 ≤ size) {P : Nat → Prop} :
    (∀ b ∈ batches n size, ∀ k ∈ b.members, P k) ↔ ∀ k < n, P k := by
  constructor
  · intro h k hk
    obtain ⟨b, hb, hstart, hstop⟩ := exists_mem_batches (hsize (by omega)) hk
    exact h b hb k (List.mem_range'_1.2 ⟨hstart, by omega⟩)
  · intro h b hb k hk
    have hstop := (stop_of_mem_batches hb).2
    obtain ⟨hstart, hlt⟩ := List.mem_range'_1.1 hk
    exact h k (by omega)

/-- The plan names a block of a scalar output of the tape. -/
structure HessianPlan.Fits (f : Tape F) (plan : HessianPlan) : Prop where
  output : plan.output < f.nOut
  input : plan.input < f.nIn
  scalar : f.outputLength plan.output = 1

namespace Tape

variable {f : Tape F} {xs : List (List F)}

theorem fits_of_checkHessianPlan
    {op : String} {plan : HessianPlan} (h : f.checkHessianPlan op plan = .ok ()) :
    plan.Fits f := by
  obtain ⟨⟨out, inp⟩, hblock, h⟩ := bind_eq_ok_iff.1 h
  obtain ⟨_, hscalar, -⟩ := bind_eq_ok_iff.1 h
  obtain ⟨ho, hi⟩ := checkBlock_eq_ok_iff.1 hblock
  refine ⟨(List.getElem?_eq_some_iff.1 ho).1, (List.getElem?_eq_some_iff.1 hi).1,
    outputLength_of_isDenseScalar ho ?_⟩
  unfold checkScalarOutput at hscalar
  split at hscalar
  · next h => exact h
  · cases hscalar

end Tape

section Values

variable [Zero F] [One F] [Add F] [Mul F] [Calculus F]

namespace HessianPlan

variable {f : Tape F} {xs : List (List F)} {plan : HessianPlan}

/-- What a sweep along a color alone finds. -/
def productOf (f : Tape F) (xs : List (List F)) (plan : HessianPlan) (k : Nat) : List F :=
  f.inputOf ((f.dots xs plan.output (Tape.colorTangent plan.input plan.coloring k)).getD · 0)
    plan.input

/-- Entry `(r, c)` from the product of the color of its column. -/
def pick (f : Tape F) (xs : List (List F)) (plan : HessianPlan) (r c : Nat) : Option F := do
  let color ← plan.coloring.colorOf c
  (plan.productOf f xs color)[r]?

/-- The values of a Hessian, from its colors one by one. -/
def values (f : Tape F) (xs : List (List F)) (plan : HessianPlan) : Array F :=
  overlay plan.pattern (plan.pick f xs) (zeroValues plan.pattern)

/-- No color of the plan meets a number that is not finite. -/
def Finite (f : Tape F) (xs : List (List F)) (plan : HessianPlan) : Prop :=
  ∀ k < plan.coloring.ncolors,
    f.FiniteProduct xs plan.output (Tape.colorTangent plan.input plan.coloring k)

/-- The batches together write the values. -/
theorem foldl_fromProducts
    {size : Nat} (hsize : 0 < plan.coloring.ncolors → 1 ≤ size) :
    (batches plan.coloring.ncolors size).foldl (fun values b => overlay plan.pattern
      (Tape.fromProducts ((b.members.map (plan.productOf f xs)).map List.toArray).toArray b
        plan.coloring) values) (zeroValues plan.pattern) = plan.values f xs := by
  refine foldl_overlay_eq (fun b _ r c x hx => ?_) (fun r c x hx => ?_) (by simp [zeroValues])
  · cases hcolor : plan.coloring.colorOf c with
    | none =>
        unfold Tape.fromProducts at hx
        rw [hcolor] at hx
        cases hx
    | some k =>
        rw [Tape.fromProducts_eq _ hcolor] at hx
        split at hx
        · exact Option.bind_eq_some_iff.2 ⟨k, hcolor, hx⟩
        · cases hx
  · obtain ⟨k, hcolor, hx⟩ := Option.bind_eq_some_iff.1 hx
    have hk := Coloring.lt_ncolors hcolor
    obtain ⟨b, hb, hstart, hstop⟩ := exists_mem_batches (hsize (by omega)) hk
    refine ⟨b, hb, ?_⟩
    rw [Tape.fromProducts_eq _ hcolor, if_pos ⟨hstart, hstop⟩, hx]

end HessianPlan

namespace Tape

variable {f : Tape F} {xs : List (List F)} {plan : HessianPlan} {m : Memory F}

/-- A Hessian that does not pass its check is refused with the error of the check. -/
theorem run_hessianWithPlan_of_check_error
    {e : Error} (h : f.checkHessian hessianOp m.sizes xs plan = .error e) :
    (f.hessianWithPlan xs plan).run.run m = (.error (.rejected e), m) :=
  Run.run_get_check_of_error (e := fun m' => f.checkHessian hessianOp m'.sizes xs plan) h

theorem hessianWithPlan_of_check_error
    {e : Error} (h : f.checkHessian hessianOp m.sizes xs plan = .error e) :
    (f.hessianWithPlan xs plan).alone m = .error (.rejected e) :=
  congrArg Prod.fst (run_hessianWithPlan_of_check_error h)

variable [Calculus.NeutralZero F] [Calculus.AbsorbingZero F]

/-- One batch of colors: a sweep, and its products written to the values. -/
theorem guarded_hessianBatch
    (hf : f.WellFormed) (hm : m.WellSized) (hfits : plan.Fits f)
    (haccepts : f.AcceptsHessian m.sizes xs plan) {b : Batch} (hne : b.members ≠ [])
    (hsize : b.stop - b.start ≤ m.sizes.nfwd) (values : Array F) :
    Run.Guarded f.config.checkFinite
      (∀ k ∈ b.members, f.FiniteProduct xs plan.output (colorTangent plan.input plan.coloring k))
      (f.hessianBatch (f.segmentsAt f.full) xs plan b values) m
      fun result m' => result = overlay plan.pattern
          (fromProducts ((b.members.map (plan.productOf f xs)).map List.toArray).toArray b
            plan.coloring) values ∧
        m'.WellSized ∧ m'.sizes = m.sizes := by
  have hlength : (b.members.map (colorTangent (F := F) plan.input plan.coloring)).length ≤
      m.sizes.nfwd := by
    rwa [List.length_map, Batch.length_members]
  have hproducts := guarded_hessianProducts hf hm haccepts.work haccepts.nadj haccepts.fit
    hfits.output hfits.scalar hfits.input
    (show b.members.map (colorTangent (F := F) plan.input plan.coloring) ≠ [] by simpa using hne)
    hlength
  refine (hproducts.bind_gives fun products m₁ h => ?_).congr List.forall_mem_map
  obtain ⟨hfound, hsized, hsizes⟩ := h
  have hproduct : products = b.members.map (plan.productOf f xs) := hfound.trans List.map_map
  subst hproduct
  exact ⟨_, m₁, Run.gives_pure.2 ⟨rfl, rfl⟩, rfl, hsized, hsizes⟩

/-- A Hessian has the values that its colors give it, whatever the batches are. -/
theorem guarded_hessianWithPlan
    (hf : f.WellFormed) (hmax : 1 ≤ f.config.maxDirections) (hm : m.WellSized)
    (hcheck : f.checkHessian hessianOp m.sizes xs plan = .ok ()) :
    Run.Guarded f.config.checkFinite (plan.Finite f xs) (f.hessianWithPlan xs plan) m
      fun hess _ => hess = ⟨plan.pattern, plan.values f xs⟩ := by
  have haccepts := acceptsHessian_of_checkHessian hcheck
  obtain ⟨_, hplan, -⟩ := bind_eq_ok_iff.1 hcheck
  have hfits := fits_of_checkHessianPlan hplan
  have hone : 0 < plan.coloring.ncolors → 1 ≤ min f.config.maxDirections m.sizes.nfwd := by
    intro hpos
    have := haccepts.nfwd hpos
    omega
  have hbatch : ∀ b ∈ batches plan.coloring.ncolors (min f.config.maxDirections m.sizes.nfwd),
      ∀ (values : Array F) (m₁ : Memory F), m₁.WellSized ∧ m₁.sizes = m.sizes →
      Run.Guarded f.config.checkFinite
        (∀ k ∈ b.members, f.FiniteProduct xs plan.output (colorTangent plan.input plan.coloring k))
        (f.hessianBatch (f.segmentsAt f.full) xs plan b values) m₁
        fun result m₂ => result = overlay plan.pattern
            (fromProducts ((b.members.map (plan.productOf f xs)).map List.toArray).toArray b
              plan.coloring) values ∧
          m₂.WellSized ∧ m₂.sizes = m.sizes := by
    rintro b hb values m₁ ⟨hsized, hsizes⟩
    have hstop := (stop_of_mem_batches hb).1
    exact (guarded_hessianBatch hf hsized hfits (by rw [hsizes]; exact haccepts)
      (members_ne_nil hone hb) (by rw [hsizes]; omega) values).imp
        fun _ _ h => ⟨h.1, h.2.1, h.2.2.trans hsizes⟩
  unfold hessianWithPlan
  rw [Run.guarded_get_bind]
  refine (Run.guarded_bind_of_gives (Run.gives_check.2 ⟨hcheck, rfl⟩)).2 ?_
  refine (Run.guarded_bind_of_gives (Run.gives_ofExcept.2 ⟨segments_full hf, rfl⟩)).2 ?_
  refine ((Run.guarded_foldlM hbatch (zeroValues plan.pattern) m ⟨hm, rfl⟩).bind_gives
    fun values m₁ h => ?_).congr (forall_members_iff hone)
  obtain ⟨rfl, -⟩ := h
  exact ⟨_, m₁, Run.gives_pure.2 ⟨rfl, rfl⟩, by rw [HessianPlan.foldl_fromProducts hone]⟩

end Tape

end Values

/-- The plan alone has as many directions as colors. -/
theorem length_directions_singleton
    (count : JacobianPlan → Nat) (plan : JacobianPlan) :
    (directions count [plan]).length = count plan := by
  simp [directions]

namespace Tape

/-- The same tape with another number of directions in a sweep. -/
def withMaxDirections (f : Tape F) (n : Nat) : Tape F :=
  { f with config := { f.config with maxDirections := n } }

section Batched

variable [Zero F] [One F] [Add F] [Mul F] [Calculus F]

/-- Whether the directions of a plan meet finite numbers only is not a matter of their number. -/
theorem finite_jacobian_withMaxDirections
    (f : Tape F) (n : Nat) (xs : List (List F)) (plan : JacobianPlan) :
    plan.Finite (f.withMaxDirections n) xs ↔ plan.Finite f xs :=
  ⟨fun h => ⟨h.forward, h.value, h.adjoint⟩, fun h => ⟨h.forward, h.value, h.adjoint⟩⟩

theorem finite_hessian_withMaxDirections
    (f : Tape F) (n : Nat) (xs : List (List F)) (plan : HessianPlan) :
    plan.Finite (f.withMaxDirections n) xs ↔ plan.Finite f xs :=
  forall₂_congr fun _ _ => ⟨fun h => ⟨h.forward, h.dots⟩, fun h => ⟨h.forward, h.dots⟩⟩

variable [Calculus.NeutralZero F] {f : Tape F} {n : Nat} {m m' : Memory F} {xs : List (List F)}

/-- The Jacobian of a plan is the same in sweeps of any number of directions. -/
theorem sameOutcome_jacobianWithPlan
    (hf : f.WellFormed) (hf' : (f.withMaxDirections n).WellFormed)
    (hmax : 1 ≤ f.config.maxDirections) (hn : 1 ≤ n) (hm : m.WellSized) (hm' : m'.WellSized)
    {plan : JacobianPlan}
    (hsizes : m.sizes.check jacobianOp (f.leastMemory plan.nfwd plan.nadj) = .ok ())
    (hsizes' : m'.sizes.check jacobianOp (f.leastMemory plan.nfwd plan.nadj) = .ok ()) :
    Run.SameOutcome (f.jacobianWithPlan xs plan) m
      ((f.withMaxDirections n).jacobianWithPlan xs plan) m' := by
  have hsame : f.checkJacobians jacobianOp m.sizes xs [plan] =
      (f.withMaxDirections n).checkJacobians jacobianOp m'.sizes xs [plan] := by
    unfold checkJacobians
    simp only [length_directions_singleton]
    rw [hsizes, show m'.sizes.check jacobianOp
      ((f.withMaxDirections n).leastMemory plan.nfwd plan.nadj) = .ok () from hsizes']
    rfl
  cases hcheck : f.checkJacobians jacobianOp m.sizes xs [plan] with
  | error e =>
      exact Run.sameOutcome_of_error
        (Run.alone_bind_of_error (jacobianValues_of_check_error hcheck))
        (Run.alone_bind_of_error (jacobianValues_of_check_error (hsame.symm.trans hcheck)))
  | ok u =>
      have hwide := guarded_jacobianWithPlan hf' hn hm' (hsame.symm.trans hcheck)
      exact (guarded_jacobianWithPlan hf hmax hm hcheck).sameOutcome
        (hwide.congr (finite_jacobian_withMaxDirections f n xs plan))

/-- So is the Hessian of a plan. -/
theorem sameOutcome_hessianWithPlan
    [Calculus.AbsorbingZero F] (hf : f.WellFormed) (hf' : (f.withMaxDirections n).WellFormed)
    (hmax : 1 ≤ f.config.maxDirections) (hn : 1 ≤ n) (hm : m.WellSized) (hm' : m'.WellSized)
    {plan : HessianPlan}
    (hsizes : m.sizes.check hessianOp (f.leastHessianMemory plan) = .ok ())
    (hsizes' : m'.sizes.check hessianOp (f.leastHessianMemory plan) = .ok ()) :
    Run.SameOutcome (f.hessianWithPlan xs plan) m
      ((f.withMaxDirections n).hessianWithPlan xs plan) m' := by
  have hsame : f.checkHessian hessianOp m.sizes xs plan =
      (f.withMaxDirections n).checkHessian hessianOp m'.sizes xs plan := by
    unfold checkHessian
    rw [hsizes, show m'.sizes.check hessianOp
      ((f.withMaxDirections n).leastHessianMemory plan) = .ok () from hsizes']
    rfl
  cases hcheck : f.checkHessian hessianOp m.sizes xs plan with
  | error e =>
      exact Run.sameOutcome_of_error (hessianWithPlan_of_check_error hcheck)
        (hessianWithPlan_of_check_error (hsame.symm.trans hcheck))
  | ok u =>
      have hwide := guarded_hessianWithPlan hf' hn hm' (hsame.symm.trans hcheck)
      exact (guarded_hessianWithPlan hf hmax hm hcheck).sameOutcome
        (hwide.congr (finite_hessian_withMaxDirections f n xs plan))

end Batched

section Compiled

variable [Zero F] [One F] [Add F] [Sub F] [Neg F] [Mul F] [Div F] [Elementary F] [ElementText F]
  [Calculus.NeutralZero F]

/--
Directions do not influence each other, in any arithmetic in which adding what tests as zero
changes nothing. An evaluation that returns has the outputs and, in every direction, the
sensitivities that an evaluation with this one seed returns. And for all numbers of directions that
a configuration and a memory may have, from one on, a Jacobian from a plan has the same values, and
is refused for a number that is not finite in the same cases; so is a Hessian, where a factor zero
makes products zero.
-/
theorem directions_independent
    {g : Graph F} {inputs outputs : List NodeId} {config : Config} {f f' : Tape F} {n n' : Nat}
    (hbare : g.BareLeaves)
    (hcompile : compile g inputs outputs { config with maxDirections := n } = .ok f)
    (hcompile' : compile g inputs outputs { config with maxDirections := n' } = .ok f')
    {xs : List (List F)} {m m' : Memory F} (hm : m.WellSized) (hm' : m'.WellSized) :
    (∀ (fwdSeeds adjSeeds : List (List (List F))) (e e' : Evaluation F),
      (f.evaluate xs fwdSeeds adjSeeds).alone m = .ok e →
      (∀ (d : Nat) seed, fwdSeeds[d]? = some seed → (f.evaluate xs [seed] []).alone m' = .ok e' →
        e'.outputs = e.outputs ∧ ∃ outs, e.fwd[d]? = some outs ∧ e'.fwd = [outs]) ∧
      (∀ (d : Nat) seed, adjSeeds[d]? = some seed → (f.evaluate xs [] [seed]).alone m' = .ok e' →
        e'.outputs = e.outputs ∧ ∃ ins, e.adj[d]? = some ins ∧ e'.adj = [ins])) ∧
    (1 ≤ n → 1 ≤ n' →
      (∀ plan : JacobianPlan,
        m.sizes.check jacobianOp (f.leastMemory plan.nfwd plan.nadj) = .ok () →
        m'.sizes.check jacobianOp (f'.leastMemory plan.nfwd plan.nadj) = .ok () →
          Run.SameOutcome (f.jacobianWithPlan xs plan) m (f'.jacobianWithPlan xs plan) m') ∧
      (Calculus.AbsorbingZero F → ∀ plan : HessianPlan,
        m.sizes.check hessianOp (f.leastHessianMemory plan) = .ok () →
        m'.sizes.check hessianOp (f'.leastHessianMemory plan) = .ok () →
          Run.SameOutcome (f.hessianWithPlan xs plan) m (f'.hessianWithPlan xs plan) m')) := by
  obtain ⟨order, h⟩ := compiled_of_compile hbare hcompile
  obtain ⟨order', h'⟩ := compiled_of_compile hbare hcompile'
  have hf := h.wellFormed
  -- the two tapes differ in their number of directions only
  have hsame : f' = f.withMaxDirections n' := by
    rw [withMaxDirections, h.config]
    exact Except.ok.inj (hcompile'.symm.trans (compile_config hcompile))
  subst hsame
  constructor
  · intro fwdSeeds adjSeeds e e' he
    exact evaluate_directions hf hm hm' he
  · intro hn hn'
    have hmax := h.one_le_maxDirections hn
    constructor
    · intro plan hsizes hsizes'
      exact sameOutcome_jacobianWithPlan hf h'.wellFormed hmax hn' hm hm' hsizes hsizes'
    · intro habsorbing plan hsizes hsizes'
      exact sameOutcome_hessianWithPlan hf h'.wellFormed hmax hn' hm hm' hsizes hsizes'

end Compiled

end Tape

/-- Whole numbers and one number that is not finite; operations on that number give it again. -/
inductive Extended where
  | finite (n : Int)
  | infinite
  deriving DecidableEq

namespace Extended

/-- An operation on whole numbers, on extended ones. -/
def lift (op : Int → Int → Int) : Extended → Extended → Extended
  | finite m, finite n => finite (op m n)
  | _, _ => infinite

instance : Zero Extended := ⟨finite 0⟩

instance : One Extended := ⟨finite 1⟩

instance : Add Extended := ⟨lift (· + ·)⟩

instance : Sub Extended := ⟨lift (· - ·)⟩

instance : Neg Extended := ⟨fun x => 0 - x⟩

instance : Mul Extended := ⟨lift (· * ·)⟩

/-- A quotient by zero is not finite. -/
instance : Div Extended := ⟨fun x y => if y = 0 then infinite else lift (· / ·) x y⟩

instance : Elementary Extended where
  __ := Elementary.ofComparisons (fun _ _ => false) fun _ _ => false
  isFinite x := decide (x ≠ infinite)

instance : ElementText Extended where
  reading
    | finite n => .finite (decide (n < 0)) ⟨n.natAbs, 0, false⟩
    | infinite => .infinite false
  wideReading
    | finite n => .finite (decide (n < 0)) ⟨n.natAbs, 0, false⟩
    | infinite => .infinite false
  cType := "double"
  rustType := "f64"

theorem isZero_iff
    {x : Extended} :
    Calculus.isZero x = true ↔ x = 0 :=
  decide_eq_true_iff

theorem add_zero
    (x : Extended) :
    x + 0 = x := by
  cases x with
  | finite n => exact congrArg finite (Int.add_zero n)
  | infinite => rfl

theorem zero_add
    (x : Extended) :
    0 + x = x := by
  cases x with
  | finite n => exact congrArg finite (Int.zero_add n)
  | infinite => rfl

instance : Calculus.NeutralZero Extended where
  add_zero := add_zero
  add_isZero x z hz := by rw [isZero_iff.1 hz, add_zero]
  isFinite_of_isZero z hz := by
    rw [isZero_iff.1 hz]
    rfl

/-- Zero times a finite number is zero, and zero times the infinite one is not. -/
theorem absorbed_iff
    {x : Extended} :
    Absorbed x ↔ x ≠ infinite := by
  cases x with
  | finite n => exact iff_of_true (isZero_iff.2 (congrArg finite (Int.zero_mul n))) nofun
  | infinite => exact iff_of_false (fun h => nomatch isZero_iff.1 h) (· rfl)

instance : Calculus.AbsorbingZero Extended where
  isZero_zero := rfl
  absorbed_of_isZero x hx := by
    rw [absorbed_iff, isZero_iff.1 hx]
    exact nofun
  absorbed_of_add x y h := by
    rw [absorbed_iff] at h
    cases x with
    | finite m =>
        cases y with
        | finite n => exact ⟨absorbed_iff.2 nofun, absorbed_iff.2 nofun⟩
        | infinite => exact absurd rfl h
    | infinite => exact absurd rfl h
  absorbed_of_mul d x h := by
    rw [absorbed_iff] at h
    cases x with
    | finite n => exact absorbed_iff.2 nofun
    | infinite => exact absurd (by cases d <;> rfl) h

end Extended

/-- The graph of `x₀ / x₁` for a column `x` of two entries. -/
def Graph.quotient : Graph Extended :=
  ⟨#[⟨.symbolic "x", [], ⟨1, #[[0], [0]]⟩⟩,
    ⟨.gather .slice [(0, 0)], [0], ⟨1, #[[0]]⟩⟩,
    ⟨.gather .slice [(0, 1)], [0], ⟨1, #[[0]]⟩⟩,
    ⟨.binary .div, [1, 2], ⟨1, #[[0]]⟩⟩]⟩

theorem Graph.bareLeaves_quotient :
    quotient.BareLeaves := by
  simp [BareLeaves, quotient, NodeKind.isSymbolic]

namespace Tape

/-- Its tape, for a number of directions in a sweep. -/
def quotient (maxDirections : Nat) : Tape Extended :=
  match compile Graph.quotient [0] [3] { maxDirections } with
  | .ok f => f
  | .error _ => ⟨Graph.quotient, #[], [], [], [], ⟨#[], 0⟩, ⟨#[], 0⟩, {}⟩

theorem compile_quotient
    (n : Nat) :
    compile Graph.quotient [0] [3] { maxDirections := n } = .ok (quotient n) := by
  cbv

/-- Its Jacobian, column by column. -/
def quotientColumns : JacobianPlan :=
  ⟨0, 0, ⟨2, #[[0, 1]]⟩, ⟨⟨#[some 0, some 1]⟩, ⟨#[none]⟩⟩⟩

/-- Its Hessian, with a color for each column. -/
def quotientHessian : HessianPlan :=
  ⟨0, 0, ⟨2, #[[1], [0, 1]]⟩, ⟨#[some 0, some 1]⟩⟩

/-- A column with a finite quotient. -/
def quotientInputs : List (List Extended) :=
  [[.finite 6, .finite 1]]

/-- A column without one. -/
def zeroDivisor : List (List Extended) :=
  [[.finite 6, .finite 0]]

/-- In sweeps of eight directions and of one. -/
theorem directions_independent_quotient :
    (∃ e e₁ e₂,
      ((quotient 8).evaluate quotientInputs [[[1, 0]], [[0, 1]]] [[[1]]]).alone
        ((quotient 8).memory 2 1) = .ok e ∧
      ((quotient 8).evaluate quotientInputs [[[0, 1]]] []).alone
        ((quotient 1).memory 1 1) = .ok e₁ ∧
      ((quotient 8).evaluate quotientInputs [] [[[1]]]).alone
        ((quotient 1).memory 1 1) = .ok e₂ ∧
      (e₁.outputs = e.outputs ∧ ∃ outs, e.fwd[1]? = some outs ∧ e₁.fwd = [outs]) ∧
      (e₂.outputs = e.outputs ∧ ∃ ins, e.adj[0]? = some ins ∧ e₂.adj = [ins])) ∧
    (∃ jac,
      ((quotient 8).jacobianWithPlan quotientInputs quotientColumns).alone
        ((quotient 8).memory 2 1) = .ok jac ∧
      ((quotient 1).jacobianWithPlan quotientInputs quotientColumns).alone
        ((quotient 1).memory 1 1) = .ok jac) ∧
    (∃ hess,
      ((quotient 8).hessianWithPlan quotientInputs quotientHessian).alone
        ((quotient 8).memory 2 1) = .ok hess ∧
      ((quotient 1).hessianWithPlan quotientInputs quotientHessian).alone
        ((quotient 1).memory 1 1) = .ok hess) ∧
    ∃ e,
      ((quotient 1).hessianWithPlan zeroDivisor quotientHessian).alone
        ((quotient 1).memory 1 1) = .error e ∧ e.IsNumeric := by
  have hwide := Memory.wellSized_new (F := Extended) ((quotient 8).requiredMemory 2 1)
  have hsmall := Memory.wellSized_new (F := Extended) ((quotient 1).requiredMemory 1 1)
  have hcompile : compile Graph.quotient [0] [3] { ({} : Config) with maxDirections := 8 } =
      .ok (quotient 8) := compile_quotient 8
  have hcompile' : compile Graph.quotient [0] [3] { ({} : Config) with maxDirections := 1 } =
      .ok (quotient 1) := compile_quotient 1
  obtain ⟨hevaluate, hassemble⟩ := directions_independent Graph.bareLeaves_quotient hcompile
    hcompile' hwide hsmall
  obtain ⟨-, hassembleZero⟩ := directions_independent Graph.bareLeaves_quotient hcompile
    hcompile' hwide hsmall
  obtain ⟨hjacobian, hhessian⟩ := hassemble (by decide) (by decide)
  obtain ⟨-, hhessianZero⟩ := hassembleZero (by decide) (by decide)
  obtain ⟨e, he⟩ := exists_eq_ok_of_isOk (x := ((quotient 8).evaluate quotientInputs
    [[[1, 0]], [[0, 1]]] [[[1]]]).alone ((quotient 8).memory 2 1)) (by cbv)
  obtain ⟨e₁, he₁⟩ := exists_eq_ok_of_isOk (x := ((quotient 8).evaluate quotientInputs
    [[[0, 1]]] []).alone ((quotient 1).memory 1 1)) (by cbv)
  obtain ⟨e₂, he₂⟩ := exists_eq_ok_of_isOk (x := ((quotient 8).evaluate quotientInputs []
    [[[1]]]).alone ((quotient 1).memory 1 1)) (by cbv)
  obtain ⟨jac, hjac⟩ := exists_eq_ok_of_isOk (x := ((quotient 8).jacobianWithPlan
    quotientInputs quotientColumns).alone ((quotient 8).memory 2 1)) (by cbv)
  obtain ⟨hess, hhess⟩ := exists_eq_ok_of_isOk (x := ((quotient 8).hessianWithPlan
    quotientInputs quotientHessian).alone ((quotient 8).memory 2 1)) (by cbv)
  have hrefused : ((quotient 8).hessianWithPlan zeroDivisor quotientHessian).alone
      ((quotient 8).memory 2 1) = .error (.rejected (.numeric hessianOp 3 0)) := by
    cbv
  have hforward := (hevaluate _ _ e e₁ he).1 1 _ rfl he₁
  have hadjoint := (hevaluate _ _ e e₂ he).2 0 _ rfl he₂
  have hsameJac := hjacobian quotientColumns (by cbv) (by cbv)
  have hsameHess := hhessian inferInstance quotientHessian (by cbv) (by cbv)
  have hsameZero := hhessianZero inferInstance quotientHessian (by cbv) (by cbv)
  refine ⟨⟨e, e₁, e₂, he, he₁, he₂, hforward, hadjoint⟩, ⟨jac, hjac, ?_⟩,
    ⟨hess, hhess, ?_⟩, ?_⟩
  · exact (hsameJac.ok jac).1 hjac
  · exact (hsameHess.ok hess).1 hhess
  · exact hsameZero.numeric.1 ⟨_, hrefused, _, _, _, rfl⟩

end Tape

/-- Whole numbers with a product that is one too large, also next to zero. -/
structure Rounded where
  val : Int
  deriving DecidableEq

namespace Rounded

instance : Zero Rounded := ⟨⟨0⟩⟩

instance : One Rounded := ⟨⟨1⟩⟩

instance : Add Rounded := ⟨fun x y => ⟨x.val + y.val⟩⟩

instance : Sub Rounded := ⟨fun x y => ⟨x.val - y.val⟩⟩

instance : Neg Rounded := ⟨fun x => ⟨-x.val⟩⟩

instance : Mul Rounded := ⟨fun x y => ⟨x.val * y.val + 1⟩⟩

instance : Div Rounded := ⟨fun x y => ⟨x.val / y.val⟩⟩

instance : Elementary Rounded :=
  .ofComparisons (fun x y => decide (x.val < y.val)) fun x y => decide (x.val ≤ y.val)

instance : ElementText Rounded where
  reading x := .finite (decide (x.val < 0)) ⟨x.val.natAbs, 0, false⟩
  wideReading x := .finite (decide (x.val < 0)) ⟨x.val.natAbs, 0, false⟩
  cType := "long"
  rustType := "i64"

theorem add_zero
    (x : Rounded) :
    x + 0 = x :=
  congrArg mk (Int.add_zero x.val)

theorem zero_add
    (x : Rounded) :
    0 + x = x :=
  congrArg mk (Int.zero_add x.val)

instance : Calculus.NeutralZero Rounded where
  add_zero := add_zero
  add_isZero x z hz := by rw [of_decide_eq_true hz, add_zero]
  isFinite_of_isZero _ _ := rfl

end Rounded

/-- The graph of `x₀ ^ 2 * x₁` for a column `x` of two entries. -/
def Graph.squareProduct : Graph Rounded :=
  ⟨#[⟨.symbolic "x", [], ⟨1, #[[0], [0]]⟩⟩,
    ⟨.gather .slice [(0, 0)], [0], ⟨1, #[[0]]⟩⟩,
    ⟨.gather .slice [(0, 1)], [0], ⟨1, #[[0]]⟩⟩,
    ⟨.unary .sq, [1], ⟨1, #[[0]]⟩⟩,
    ⟨.binary .mul, [3, 2], ⟨1, #[[0]]⟩⟩]⟩

theorem Graph.bareLeaves_squareProduct :
    squareProduct.BareLeaves := by
  simp [BareLeaves, squareProduct, NodeKind.isSymbolic]

namespace Tape

/-- Its tape. -/
def squareProduct : Tape Rounded :=
  match compile Graph.squareProduct [0] [4] {} with
  | .ok f => f
  | .error _ => ⟨Graph.squareProduct, #[], [], [], [], ⟨#[], 0⟩, ⟨#[], 0⟩, {}⟩

theorem compile_squareProduct :
    compile Graph.squareProduct [0] [4] {} = .ok squareProduct := by
  cbv

/-- Its Hessian, with a color for each column. -/
def squareProductHessian : HessianPlan :=
  ⟨0, 0, ⟨2, #[[0, 1], [0]]⟩, ⟨#[some 0, some 1]⟩⟩

/--
Where a factor zero does not make products zero, a Hessian depends on the number of directions:
in a sweep of its own the column of `x₀` is skipped at the square, next to that of `x₁` it is not.
-/
theorem hessian_depends_on_directions :
    Calculus.NeutralZero Rounded ∧ Graph.squareProduct.BareLeaves ∧
    compile Graph.squareProduct [0] [4] {} = .ok squareProduct ∧
    squareProduct.hessianPlan 0 0 = .ok squareProductHessian ∧
    (∀ n ∈ [1, 2], ((squareProduct.memory n 1 : Memory Rounded).sizes.check hessianOp
      (squareProduct.leastHessianMemory squareProductHessian)) = .ok ()) ∧
    (squareProduct.hessianWithPlan [[-1, -1]] squareProductHessian).alone
      (squareProduct.memory 2 1) = .ok ⟨squareProductHessian.pattern, #[1, ⟨-2⟩, 0]⟩ ∧
    (squareProduct.hessianWithPlan [[-1, -1]] squareProductHessian).alone
      (squareProduct.memory 1 1) = .ok ⟨squareProductHessian.pattern, #[0, ⟨-2⟩, 0]⟩ := by
  refine ⟨inferInstance, Graph.bareLeaves_squareProduct, compile_squareProduct, by cbv, ?_,
    by cbv, by cbv⟩
  intro n hn
  rcases List.mem_pair.1 hn with rfl | rfl <;> cbv

end Tape

end SparseDiff
