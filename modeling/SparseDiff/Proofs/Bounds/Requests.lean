import SparseDiff.Proofs.Assembly.Parts
import SparseDiff.Proofs.Bounds.Calls

/-!
# Requests are refused before anything is written

Every call about a tape ends in one of three ways (`Settled`): a request that does not fit the
tape or the memory is refused for a dimension, and the memory is left as it is; any other returns
or meets a number that is not finite. No call makes an access out of range, whatever the sizes of
the memory and whichever functions made the plans (`Tape.calls_settled`).
-/

namespace SparseDiff

namespace Strict

open Run

variable {F : Type}

theorem fromProducts_eq
    {plan : HessianPlan} (htabled : plan.Tabled) {products : Array (Array F)} {b : Batch}
    (hproducts : products.size = b.stop - b.start)
    (hrows : ∀ row ∈ products, row.size = plan.pattern.nrow) {r c : Nat}
    (hc : c ∈ plan.pattern.row r) :
    fromProducts products b plan.coloring r c =
      .ok (Tape.fromProducts products b plan.coloring r c) := by
  have hcolor := Coloring.color_eq (c := plan.coloring) (v := c)
    (by rw [htabled.coloring]; exact htabled.wellFormed.lt_ncol hc)
  unfold fromProducts Tape.fromProducts
  rw [hcolor]
  simp only [bind, Except.bind]
  cases plan.coloring.colorOf c with
  | none => rfl
  | some color =>
      simp only [Option.bind_some]
      split
      · next hin =>
          have hlt : color - b.start < products.size := by omega
          simp only [inRange_eq hlt]
          refine entryAt_eq ?_
          rw [hrows _ (by simp [Array.getD_eq_getD_getElem?, hlt])]
          exact Pattern.lt_nrow_of_mem_row hc
      · rfl

section Assembly

variable [Zero F] [One F] [Add F] [Mul F] [Calculus F] {f : Tape F} {m : Memory F}
  {s : MemorySizes} {xs : List (List F)}

theorem same_hessianProducts
    (hf : f.WellFormed) (hm : m.HasSizes s) (hwork : f.full.size ≤ s.work)
    (hfit : FitLists f.inputPatterns xs) (o : Nat) {i : Nat} (hi : i < f.nIn)
    {tangents : List (Nat → Nat → F)} (hnfwd : tangents.length ≤ s.nfwd) (hnadj : 1 ≤ s.nadj) :
    Same (hessianProducts f (f.segmentsAt f.full) xs o i tangents)
      (f.hessianProducts (f.segmentsAt f.full) xs o i tangents) m fun products m' =>
        List.Forall₂ (fun _ row => row.length = f.inputLength i) (List.range tangents.length)
          products ∧ m'.HasSizes s := by
  have hsound := hf.full_sound fun _ => True
  have hsecond : s.second = s.nfwd := if_pos hnadj
  refine (same_loadInputs hf hsound hm hwork hfit).bind fun _ m₁ hm₁ => ?_
  refine (same_directions hnfwd hm₁ fun tangent _ d hd m' hm' => ?_).bind fun _ m₂ hm₂ => ?_
  · exact (same_loadTangent hm' hd _ _).bind fun _ m'' hm'' =>
      same_clearAdjointTangent hm'' (hsecond ▸ hd)
  refine (same_forwardSweep hf hsound hm₂ hwork hnfwd _).bind fun _ m₃ hm₃ => ?_
  refine (same_clearAdjoint hm₃ hnadj).bind fun _ m₄ hm₄ => ?_
  refine (same_seedAdjoint hm₄ hnadj _ _).bind fun _ m₅ hm₅ => ?_
  refine (same_secondOrderSweep hm₅ hnfwd hnadj _ _ _).bind fun _ m₆ hm₆ => ?_
  refine same_mapM (fun d hd m' hm' => ?_) hm₆
  have hd' := List.mem_range.1 hd
  exact same_takeInputAdjointTangent hf hm' hwork (by omega) hi

theorem same_hessianBatch
    (hf : f.WellFormed) (hm : m.HasSizes s) (hwork : f.full.size ≤ s.work)
    (hfit : FitLists f.inputPatterns xs) {plan : HessianPlan} (hmatches : plan.Matches f)
    (htabled : plan.Tabled) {b : Batch} (hsize : b.stop - b.start ≤ s.nfwd) (hnadj : 1 ≤ s.nadj)
    {values : Array F} (hvalues : values.size = plan.pattern.nnz) :
    Same (hessianBatch f (f.segmentsAt f.full) xs plan b values)
      (f.hessianBatch (f.segmentsAt f.full) xs plan b values) m fun values' m' =>
        values'.size = plan.pattern.nnz ∧ m'.HasSizes s := by
  have hlength : (b.members.map (Tape.colorTangent (F := F) plan.input plan.coloring)).length =
      b.stop - b.start := by
    rw [List.length_map, Batch.length_members]
  refine Same.after (gives_inRange ?_) ?_
  · rw [htabled.coloring, hmatches.ncol]
  refine (same_hessianProducts hf hm hwork hfit _ hmatches.input (hlength ▸ hsize) hnadj).bind
    fun products m' h => ?_
  obtain ⟨hproducts, hm'⟩ := h
  have hcount := hproducts.length_eq
  rw [List.length_range, hlength] at hcount
  have hrows : ∀ row ∈ (products.map List.toArray).toArray, row.size = plan.pattern.nrow := by
    intro row hrow
    obtain ⟨ys, hys, rfl⟩ := List.mem_map.1 (List.mem_toArray.1 hrow)
    obtain ⟨d, hd⟩ := List.mem_iff_getElem?.1 hys
    obtain ⟨_, -, hrow⟩ := getElem?_of_forall₂ hproducts hd
    rw [hmatches.nrow, ← hrow]
    rfl
  have hoverlay := overlay_eq (fun r c hc => fromProducts_eq htabled (b := b)
    (by simpa using hcount.symm) hrows hc) hvalues
  dsimp only
  rw [hoverlay]
  exact same_refl (ends_pure.2 ⟨(size_overlay ..).trans hvalues, hm'⟩)

theorem same_hessianWithPlan
    (hf : f.WellFormed) (hm : m.WellSized) {plan : HessianPlan} (htabled : plan.Tabled)
    (xs : List (List F)) :
    Same (hessianWithPlan f xs plan) (f.hessianWithPlan xs plan) m fun _ _ => True := by
  refine same_get.bind fun _ _ h => ?_
  obtain ⟨rfl, rfl⟩ := h
  refine (same_check _).bind fun _ _ h => ?_
  obtain ⟨hcheck, rfl⟩ := h
  have haccepts := Tape.acceptsHessian_of_checkHessian hcheck
  have hmatches := (Tape.checkHessian_eq_ok_iff.1 hcheck).1
  refine (same_ofExcept rfl).bind fun tape _ h => ?_
  obtain ⟨htape, rfl⟩ := h
  rw [Tape.segments_full hf] at htape
  cases htape
  refine Same.bind (same_foldlM (I := fun values m' => values.size = plan.pattern.nnz ∧
    m'.HasSizes m.sizes) (fun b hb values m' h => ?_) ⟨by simp [zeroValues], hm, rfl⟩)
    fun _ _ _ => same_refl trivial
  have hstop := (stop_of_mem_batches hb).1
  exact same_hessianBatch hf h.2 haccepts.work haccepts.fit hmatches htabled (by omega)
    haccepts.nadj h.1

end Assembly

/-- A sequence depends on its second step only where the first returns. -/
theorem bind_congr_of_ok
    {ε α β : Type} {x : Except ε α} {f g : α → Except ε β} (h : ∀ a, x = .ok a → f a = g a) :
    (x >>= f) = (x >>= g) := by
  cases x with
  | error e => rfl
  | ok a => exact h a rfl

theorem mapM_congr_of_mem
    {ε α β : Type} {f g : α → Except ε β} {xs : List α} (h : ∀ x ∈ xs, f x = g x) :
    xs.mapM f = xs.mapM g := by
  induction xs with
  | nil => rfl
  | cons x xs ih =>
      rw [List.mapM_cons, List.mapM_cons, h x (List.mem_cons_self ..),
        ih fun y hy => h y (List.mem_cons_of_mem _ hy)]

/-- A run with checked accesses, and what is made of its result. -/
theorem alone_bind_congr
    {α β : Type} {x y : Run F α} {m : Memory F} {Q : α → Memory F → Prop} (h : Same x y m Q)
    {g g' : α → Except Failure β} (hg : ∀ a m', Q a m' → g a = g' a) :
    (x.alone m >>= g) = (y.alone m >>= g') := by
  have halone : x.alone m = y.alone m := congrArg Prod.fst h.run_eq
  rw [halone]
  refine bind_congr_of_ok fun a ha => ?_
  obtain ⟨m', hgives⟩ := alone_eq_ok_iff.1 ha
  exact hg a m' (h.ends.of_gives hgives)

theorem hasSizes_memory
    [Zero F] (f : Tape F) (nfwd nadj : Nat) :
    (f.memory nfwd nadj : Memory F).HasSizes (f.requiredMemory nfwd nadj) :=
  ⟨Memory.wellSized_new _, rfl⟩

section Parts

variable [Zero F] [One F] [Add F] [Mul F] [Calculus F] {f : Tape F} {xs : List (List F)}

theorem forwardPart_eq
    (hf : f.WellFormed) (hfit : FitLists f.inputPatterns xs) {plan : JacobianPlan}
    (hfits : plan.Fits f) (htabled : plan.Tabled) (b : Batch) :
    forwardPart f (f.segmentsAt (f.layout 0)) xs plan b =
      f.forwardPart (f.segmentsAt (f.layout 0)) xs plan b := by
  have hdirs : ∀ dir ∈ b.select (directions JacobianPlan.nfwd [plan]),
      [plan][dir.block]? = some dir.plan := fun _ => block_of_mem_select
  have hreadable : Readable f [plan] := by simpa [Readable] using ⟨hfits, htabled⟩
  refine alone_bind_congr (same_forwardDirections hf (hasSizes_memory f _ _) (Nat.le_refl _) hfit
    hreadable hdirs (Nat.le_refl _)) fun found m' h => ?_
  exact overlay_eq (fun r c hc => fromColumns_eq htabled hc fun _ _ =>
    h.1.size_sum? hdirs rfl) (by simp [zeroValues])

theorem adjointPart_eq
    (hf : f.WellFormed) (hfit : FitLists f.inputPatterns xs) {plan : JacobianPlan}
    (hfits : plan.Fits f) (htabled : plan.Tabled) (op : String) {size : Nat} (hsize : 1 ≤ size)
    {b : Batch} (hb : b ∈ batches plan.nadj size) :
    adjointPart f op (f.segmentsAt f.full) xs plan b =
      f.adjointPart op (f.segmentsAt f.full) xs plan b := by
  have hdirs : ∀ dir ∈ b.select (directions JacobianPlan.nadj [plan]),
      [plan][dir.block]? = some dir.plan := fun _ => block_of_mem_select
  have hreadable : Readable f [plan] := by simpa [Readable] using ⟨hfits, htabled⟩
  have hmemory := hasSizes_memory f 0 (b.select (directions JacobianPlan.nadj [plan])).length
  have hwork := Tape.full_le_requiredMemory (f := f) (select_directions_ne_nil hsize hb) 0
  refine alone_bind_congr ((same_loadValues hf hmemory hwork hfit op).bind fun _ m' hm' =>
    same_adjointDirections hf hm' hwork hreadable hdirs (Nat.le_refl _)) fun found m' h => ?_
  exact overlay_eq (fun r c hc => fromRows_eq htabled hc fun _ _ =>
    h.1.size_sum? hdirs rfl) (by simp [zeroValues])

theorem jacobianByParts_eq
    (hf : f.WellFormed) (hmax : 1 ≤ f.config.maxDirections) {plan : JacobianPlan}
    (htabled : plan.Tabled) (xs : List (List F)) :
    jacobianByParts f xs plan = f.jacobianByParts xs plan := by
  refine bind_congr_of_ok fun _ hplan => bind_congr_of_ok fun _ hinputs => ?_
  have hfits := Tape.checkJacobianPlan_eq_ok_iff.1 (orReject_eq_ok_iff.1 hplan)
  have hfit := checkLists_eq_ok_iff.1 (orReject_eq_ok_iff.1 hinputs)
  refine bind_congr_of_ok fun shared hshared => bind_congr_of_ok fun full hfull => ?_
  rw [Tape.segments_of_sound hf (Tape.layout_sound hf 0)] at hshared
  cases hshared
  rw [Tape.segments_full hf] at hfull
  cases hfull
  rw [mapM_congr_of_mem fun b _ => forwardPart_eq hf hfit hfits htabled b,
    mapM_congr_of_mem fun b hb => adjointPart_eq hf hfit hfits htabled "jacobian_par" hmax hb]

theorem hessianByParts_eq
    (hf : f.WellFormed) {plan : HessianPlan}
    (htabled : plan.Tabled) (xs : List (List F)) :
    hessianByParts f xs plan = f.hessianByParts xs plan := by
  refine bind_congr_of_ok fun _ hplan => bind_congr_of_ok fun _ hinputs => ?_
  have hmatches := Tape.checkHessianPlan_eq_ok_iff.1 (orReject_eq_ok_iff.1 hplan)
  have hfit := checkLists_eq_ok_iff.1 (orReject_eq_ok_iff.1 hinputs)
  refine bind_congr_of_ok fun tape htape => ?_
  rw [Tape.segments_full hf] at htape
  cases htape
  rw [mapM_congr_of_mem fun b _ => ?_]
  have hvalues : (zeroValues plan.pattern : Array F).size = plan.pattern.nnz := by simp [zeroValues]
  have hsame := same_hessianBatch hf (hasSizes_memory f b.members.length 1) (Nat.le_refl _) hfit
    hmatches htabled b.length_members.ge (Nat.le_refl _) hvalues
  exact congrArg Prod.fst hsame.run_eq

end Parts

end Strict

theorem Run.Ends.failsAs
    {F α : Type} {x : Run F α} {m : Memory F} {Q : α → Memory F → Prop} {E : Failure → Prop}
    (h : Run.Ends x m Q E) :
    FailsAs E (x.alone m) :=
  ⟨fun _ he => (Run.ends_iff_of_error he).1 h⟩

/-- The refusal of a request for a length, an index or the size of a memory. -/
def Error.IsDimension (e : Error) : Prop :=
  ∃ op cause, e = .dimension op cause

/-- The refusal of a memory that is too small. -/
def Error.IsShortage (e : Error) : Prop :=
  ∃ op what needed held, e = .dimension op (.memory what needed held)

/-- The refusal of a request for a length or an index. -/
def Error.IsMismatch (e : Error) : Prop :=
  e.IsDimension ∧ ¬ e.IsShortage

theorem Error.IsShortage.isDimension
    {e : Error} (h : e.IsShortage) :
    e.IsDimension := by
  obtain ⟨op, what, needed, held, rfl⟩ := h
  exact ⟨op, _, rfl⟩

theorem failsAs_dimension
    {α : Type} (op : String) {cause : DimensionCause}
    (h : ∀ what needed held, cause ≠ .memory what needed held) :
    FailsAs Error.IsMismatch (.error (.dimension op cause) : Except Error α) := by
  refine failsAs_error ⟨⟨op, cause, rfl⟩, ?_⟩
  rintro ⟨_, what, needed, held, heq⟩
  cases heq
  exact h what needed held rfl

section Checks

theorem MemorySizes.failsAs_check
    (op : String) (held needed : MemorySizes) :
    FailsAs Error.IsShortage (held.check op needed) := by
  unfold MemorySizes.check
  repeat' split
  all_goals first | exact failsAs_ok () | exact failsAs_error ⟨_, _, _, _, rfl⟩

variable {F : Type}

theorem failsAs_checkNonzeros
    (op : String) (what : Nat → Quantity) (index : Nat) (patterns : List Pattern)
    (lists : List (List F)) :
    FailsAs Error.IsMismatch (checkNonzeros op what index patterns lists) := by
  fun_induction checkNonzeros with
  | case1 => exact failsAs_dimension _ nofun
  | case2 _ _ _ _ _ _ ih => exact ih
  | case3 => exact failsAs_ok ()

theorem failsAs_checkLists
    (op : String) (count : Quantity) (what : Nat → Quantity) (patterns : List Pattern)
    (lists : List (List F)) :
    FailsAs Error.IsMismatch (checkLists op count what patterns lists) := by
  unfold checkLists
  split
  · exact failsAs_dimension _ nofun
  · exact failsAs_checkNonzeros ..

namespace Tape

theorem failsAs_checkSeeds
    (op : String) (count : Nat → Quantity) (what : Nat → Nat → Quantity)
    (patterns : List Pattern) (d : Nat) (seeds : List (List (List F))) :
    FailsAs Error.IsMismatch (checkSeeds op count what patterns d seeds) := by
  induction seeds generalizing d with
  | nil => exact failsAs_ok ()
  | cons seed seeds ih => exact (failsAs_checkLists ..).bind fun _ _ => ih _

variable (f : Tape F) (op : String) (xs : List (List F))

theorem failsAs_checkEvaluation
    (sizes : MemorySizes) (fwdSeeds adjSeeds : List (List (List F))) :
    FailsAs Error.IsDimension (f.checkEvaluation op sizes xs fwdSeeds adjSeeds) := by
  refine ((failsAs_checkLists ..).imp fun _ h => h.1).bind fun _ _ => ?_
  refine ((failsAs_checkSeeds ..).imp fun _ h => h.1).bind fun _ _ => ?_
  refine ((failsAs_checkSeeds ..).imp fun _ h => h.1).bind fun _ _ => ?_
  exact (MemorySizes.failsAs_check ..).imp fun _ h => h.isDimension

theorem failsAs_checkBlock
    (o i : Nat) :
    FailsAs Error.IsMismatch (f.checkBlock op o i) := by
  refine FailsAs.bind ?_ fun _ _ => FailsAs.bind ?_ fun _ _ => failsAs_ok _
  · unfold outputPattern
    split
    · exact failsAs_ok _
    · exact failsAs_dimension _ nofun
  · unfold inputPattern
    split
    · exact failsAs_ok _
    · exact failsAs_dimension _ nofun

theorem failsAs_checkPlanShape
    (expected got : Nat × Nat) :
    FailsAs Error.IsMismatch (checkPlanShape op expected got) := by
  unfold checkPlanShape
  repeat' split
  all_goals first | exact failsAs_ok () | exact failsAs_dimension _ nofun

theorem failsAs_checkJacobianPlan
    (plan : JacobianPlan) :
    FailsAs Error.IsMismatch (f.checkJacobianPlan op plan) :=
  (f.failsAs_checkBlock ..).bind fun _ _ => failsAs_checkPlanShape ..

theorem failsAs_checkJacobians
    (sizes : MemorySizes) (plans : List JacobianPlan) :
    FailsAs Error.IsDimension (f.checkJacobians op sizes xs plans) := by
  refine (failsAs_forM fun plan _ => (f.failsAs_checkJacobianPlan op plan).imp
    fun _ h => h.1).bind fun _ _ => ?_
  refine ((failsAs_checkLists ..).imp fun _ h => h.1).bind fun _ _ => ?_
  exact (MemorySizes.failsAs_check ..).imp fun _ h => h.isDimension

theorem failsAs_checkHessianPlan
    (plan : HessianPlan) :
    FailsAs Error.IsMismatch (f.checkHessianPlan op plan) := by
  refine (f.failsAs_checkBlock ..).bind fun _ _ => FailsAs.bind ?_ fun _ _ =>
    failsAs_checkPlanShape ..
  unfold checkScalarOutput
  split
  · exact failsAs_ok ()
  · exact failsAs_dimension _ nofun

theorem failsAs_checkHessian
    (sizes : MemorySizes) (plan : HessianPlan) :
    FailsAs Error.IsDimension (f.checkHessian op sizes xs plan) := by
  refine ((f.failsAs_checkHessianPlan ..).imp fun _ h => h.1).bind fun _ _ => ?_
  refine ((failsAs_checkLists ..).imp fun _ h => h.1).bind fun _ _ => ?_
  exact (MemorySizes.failsAs_check ..).imp fun _ h => h.isDimension

end Tape

end Checks

/--
How a call ends that is in order where `fits` holds. `strict` is the call with every access
checked: it ends alike, and not for an access out of range. The call is refused for a dimension
exactly if it is not in order; otherwise it returns or meets a number that is not finite.
-/
structure Settled {α : Type} (fits : Prop) (strict x : Except Failure α) : Prop where
  same : strict = x
  inRange : strict ≠ .error .outOfBounds
  dimension_iff : (∃ op cause, x = .error (.rejected (.dimension op cause))) ↔ ¬ fits
  settles : fits → (∃ a, x = .ok a) ∨ ∃ op node k, x = .error (.rejected (.numeric op node k))

/-- The same of a call on a memory, which a refused call leaves as it is. -/
structure Run.Settled {F α : Type} (fits : Prop) (strict x : Run F α) (m : Memory F) : Prop where
  result : SparseDiff.Settled fits (strict.alone m) (x.alone m)
  unchanged : ¬ fits → (x.run.run m).2 = m

section Settled

variable {α : Type} {fits : Prop} {strict x : Except Failure α} {accepted : Except Error Unit}

/-- A call is settled by a check that decides whether it is in order. -/
theorem settled_of_check
    (hsame : strict = x) (hiff : accepted = .ok () ↔ fits)
    (hdimension : FailsAs Error.IsDimension accepted)
    (hrefused : ∀ e, accepted = .error e → x = .error (.rejected e))
    (hends : fits → FailsAs Failure.IsNumeric x) :
    Settled fits strict x := by
  subst hsame
  cases haccepted : accepted with
  | ok _ =>
      have hfits : fits := hiff.1 haccepted
      have hnumeric := (hends hfits).of_error
      refine ⟨rfl, fun h => ?_, iff_of_false ?_ fun h => h hfits, fun _ => ?_⟩
      · obtain ⟨_, _, _, hcontra⟩ := hnumeric _ h
        cases hcontra
      · rintro ⟨op, cause, h⟩
        obtain ⟨_, _, _, hcontra⟩ := hnumeric _ h
        cases hcontra
      · cases hx : strict with
        | ok a => exact .inl ⟨a, rfl⟩
        | error e =>
            obtain ⟨op, node, k, rfl⟩ := hnumeric e hx
            exact .inr ⟨op, node, k, rfl⟩
  | error e =>
      have hfits : ¬ fits := fun h => by
        rw [hiff.2 h] at haccepted
        cases haccepted
      have hx := hrefused e haccepted
      obtain ⟨op, cause, rfl⟩ := hdimension.of_error e haccepted
      exact ⟨rfl, by rw [hx]; simp, iff_of_true ⟨op, cause, hx⟩ hfits, fun h => absurd h hfits⟩

/-- A call that checks its plan and its inputs first. -/
theorem settled_of_checks
    {plan inputs : Except Error Unit} {rest : Except Failure α}
    (hsame : strict = (orReject plan >>= fun _ => orReject inputs >>= fun _ => rest))
    (hiff : plan = .ok () ∧ inputs = .ok () ↔ fits) (hplan : FailsAs Error.IsMismatch plan)
    (hinputs : FailsAs Error.IsMismatch inputs) (hends : fits → FailsAs Failure.IsNumeric rest) :
    Settled fits strict (orReject plan >>= fun _ => orReject inputs >>= fun _ => rest) := by
  refine settled_of_check hsame ?_ ((hplan.bind fun _ _ => hinputs).imp fun _ h => h.1)
    (fun e he => ?_) fun hfits => ?_
  · rw [← hiff, bind_eq_ok_iff]
    exact ⟨fun ⟨_, h⟩ => h, fun h => ⟨(), h⟩⟩
  · cases plan with
    | error _ =>
        cases he
        rfl
    | ok _ =>
        have hinputs : inputs = .error e := he
        rw [hinputs]
        rfl
  · obtain ⟨hplan, hinputs⟩ := hiff.2 hfits
    rw [hplan, hinputs]
    exact hends hfits

theorem Run.settled_of_check
    {F : Type} {strict x : Run F α} {m : Memory F} {Q R : α → Memory F → Prop}
    (hsame : Same strict x m Q) (hiff : accepted = .ok () ↔ fits)
    (hdimension : FailsAs Error.IsDimension accepted)
    (hrefused : ∀ e, accepted = .error e → x.run.run m = (.error (.rejected e), m))
    (hends : accepted = .ok () → Ends x m R Failure.IsNumeric) :
    Run.Settled fits strict x m := by
  refine ⟨SparseDiff.settled_of_check (congrArg Prod.fst hsame.run_eq) hiff hdimension
    (fun e he => congrArg Prod.fst (hrefused e he)) fun h => (hends (hiff.2 h)).failsAs,
    fun h => ?_⟩
  cases haccepted : accepted with
  | ok _ => exact absurd (hiff.1 haccepted) h
  | error e => rw [hrefused e haccepted]

end Settled

/-- The memory is large enough in every respect. -/
structure MemorySizes.Covers (held needed : MemorySizes) : Prop where
  work : needed.work ≤ held.work
  nfwd : needed.nfwd ≤ held.nfwd
  nadj : needed.nadj ≤ held.nadj
  second : needed.second ≤ held.second

theorem MemorySizes.check_eq_ok_iff_covers
    {op : String} {held needed : MemorySizes} :
    held.check op needed = .ok () ↔ held.Covers needed := by
  rw [MemorySizes.check_eq_ok_iff]
  exact ⟨fun ⟨h₁, h₂, h₃, h₄⟩ => ⟨h₁, h₂, h₃, h₄⟩, fun h => ⟨h.work, h.nfwd, h.nadj, h.second⟩⟩

namespace Tape

variable {F : Type}

/--
Every plan names a block of the tape and has its shape, the inputs have the right lengths, and the
memory is large enough for one direction of every kind that some plan has.
-/
structure FitsJacobians (f : Tape F) (sizes : MemorySizes) (xs : List (List F))
    (plans : List JacobianPlan) : Prop where
  fitPlans : ∀ plan ∈ plans, plan.Fits f
  fitInputs : FitLists f.inputPatterns xs
  memory : sizes.Covers (f.leastMemory (directions JacobianPlan.nfwd plans).length
    (directions JacobianPlan.nadj plans).length)

/-- The same for a Hessian, whose output is a dense scalar. -/
structure FitsHessian (f : Tape F) (sizes : MemorySizes) (xs : List (List F))
    (plan : HessianPlan) : Prop where
  fitPlan : plan.Matches f
  fitInputs : FitLists f.inputPatterns xs
  memory : sizes.Covers (f.leastHessianMemory plan)

variable {f : Tape F} {op : String} {sizes : MemorySizes} {xs : List (List F)}

theorem checkJacobians_eq_ok_iff_fits
    {plans : List JacobianPlan} :
    f.checkJacobians op sizes xs plans = .ok () ↔ f.FitsJacobians sizes xs plans := by
  rw [checkJacobians_eq_ok_iff, MemorySizes.check_eq_ok_iff_covers]
  exact ⟨fun ⟨h₁, h₂, h₃⟩ => ⟨h₁, h₂, h₃⟩, fun h => ⟨h.fitPlans, h.fitInputs, h.memory⟩⟩

theorem checkHessian_eq_ok_iff_fits
    {plan : HessianPlan} :
    f.checkHessian op sizes xs plan = .ok () ↔ f.FitsHessian sizes xs plan := by
  rw [checkHessian_eq_ok_iff, MemorySizes.check_eq_ok_iff_covers]
  exact ⟨fun ⟨h₁, h₂, h₃⟩ => ⟨h₁, h₂, h₃⟩, fun h => ⟨h.fitPlan, h.fitInputs, h.memory⟩⟩

section Calls

variable [Zero F] [Add F] [Mul F] [Calculus F] {m : Memory F}

theorem settled_evaluate
    (hf : f.WellFormed) (hm : m.WellSized) (xs : List (List F))
    (fwdSeeds adjSeeds : List (List (List F))) :
    Run.Settled (f.Accepts m.sizes xs fwdSeeds adjSeeds)
      (Strict.evaluate f xs fwdSeeds adjSeeds) (f.evaluate xs fwdSeeds adjSeeds) m :=
  Run.settled_of_check (Strict.same_evaluate hf hm xs fwdSeeds adjSeeds) checkEvaluation_eq_ok_iff
    (f.failsAs_checkEvaluation ..) (fun _ he => run_evaluate_of_check_error he)
    (ends_checkedEvaluate hf hm)

variable [One F]

theorem settled_jacobianWithPlan
    (hf : f.WellFormed) (hm : m.WellSized) {plan : JacobianPlan} (htabled : plan.Tabled)
    (xs : List (List F)) :
    Run.Settled (f.FitsJacobians m.sizes xs [plan])
      (Strict.jacobianWithPlan f xs plan) (f.jacobianWithPlan xs plan) m := by
  refine Run.settled_of_check (R := fun _ _ => True) (Strict.same_jacobianWithPlan hf hm htabled xs)
    checkJacobians_eq_ok_iff_fits (f.failsAs_checkJacobians jacobianOp xs m.sizes [plan])
    (fun e he => ?_) fun hok => ?_
  · rw [jacobianWithPlan, Run.run_bind, run_jacobianValues_of_check_error he]
  · exact Run.ends_bind.2 ((ends_jacobianValues hf hm hok).imp (fun _ _ _ => trivial)
      fun _ he => he)

theorem settled_jacobianBlocksWithPlans
    (hf : f.WellFormed) (hm : m.WellSized) {plans : List JacobianPlan}
    (htabled : ∀ plan ∈ plans, plan.Tabled) (xs : List (List F)) :
    Run.Settled (f.FitsJacobians m.sizes xs plans)
      (Strict.jacobianBlocksWithPlans f xs plans) (f.jacobianBlocksWithPlans xs plans) m := by
  refine Run.settled_of_check (R := fun _ _ => True)
    (Strict.same_jacobianBlocksWithPlans hf hm htabled xs) checkJacobians_eq_ok_iff_fits
    (f.failsAs_checkJacobians "jacobian_blocks" xs m.sizes plans) (fun e he => ?_) fun hok => ?_
  · rw [jacobianBlocksWithPlans, Run.run_bind, run_jacobianValues_of_check_error he]
  · exact Run.ends_bind.2 ((ends_jacobianValues hf hm hok).imp (fun _ _ _ => trivial)
      fun _ he => he)

theorem settled_hessianWithPlan
    (hf : f.WellFormed) (hm : m.WellSized) {plan : HessianPlan} (htabled : plan.Tabled)
    (xs : List (List F)) :
    Run.Settled (f.FitsHessian m.sizes xs plan)
      (Strict.hessianWithPlan f xs plan) (f.hessianWithPlan xs plan) m :=
  Run.settled_of_check (Strict.same_hessianWithPlan hf hm htabled xs) checkHessian_eq_ok_iff_fits
    (f.failsAs_checkHessian ..) (fun _ he => run_hessianWithPlan_of_check_error he)
    (answers_hessianWithPlan hf hm xs plan).ends

end Calls

section Parts

variable [Zero F] [One F] [Add F] [Mul F] [Calculus F]

theorem failsAs_forwardPart
    (hf : f.WellFormed) (hfit : FitLists f.inputPatterns xs) {plan : JacobianPlan}
    (hfits : plan.Fits f) (b : Batch) :
    FailsAs Failure.IsNumeric (f.forwardPart (f.segmentsAt (f.layout 0)) xs plan b) := by
  have houtput : ∀ dir ∈ b.select (directions JacobianPlan.nfwd [plan]),
      dir.plan.output < f.nOut := fun _ hdir => (hfits.range_of_mem_select hdir).1
  have hsweep := guarded_forwardDirections hf (Strict.hasSizes_memory f _ _).wellSized
    (Nat.le_refl _) hfit (Nat.le_refl _) houtput
  exact hsweep.ends.failsAs.bind fun _ _ => failsAs_ok _

theorem failsAs_adjointPart
    (hf : f.WellFormed) (hfit : FitLists f.inputPatterns xs) {plan : JacobianPlan}
    (hfits : plan.Fits f) (op : String) {size : Nat} (hsize : 1 ≤ size) {b : Batch}
    (hb : b ∈ batches plan.nadj size) :
    FailsAs Failure.IsNumeric (f.adjointPart op (f.segmentsAt f.full) xs plan b) := by
  have hwork := full_le_requiredMemory (f := f)
    (select_directions_ne_nil hsize hb) 0
  have hloaded := (guarded_loadValues hf (Strict.hasSizes_memory f _ _).wellSized hwork hfit
    op).ends
  refine FailsAs.bind (Run.Ends.failsAs (Q := fun _ _ => True) (Run.ends_bind.2
    (hloaded.imp (fun _ m' h => ?_) fun _ he => he))) fun _ _ => failsAs_ok _
  obtain ⟨⟨hsized, hsizes, -⟩, -⟩ := h
  exact (ends_adjointDirections hf hsized (by rw [hsizes]; exact hwork)
    fun _ => hfits.range_of_mem_select).imp
    (fun _ _ _ => trivial) fun _ he => he

theorem failsAs_hessianPart
    (hf : f.WellFormed) (hfit : FitLists f.inputPatterns xs) {plan : HessianPlan}
    (hmatches : plan.Matches f) {size : Nat} (hsize : 1 ≤ size) {b : Batch}
    (hb : b ∈ batches plan.coloring.ncolors size) :
    FailsAs Failure.IsNumeric (f.hessianPart (f.segmentsAt f.full) xs plan b) := by
  have hpos := List.length_pos_iff.2 (members_ne_nil (fun _ => hsize) hb)
  exact (ends_hessianBatch hf (Strict.hasSizes_memory f _ _).wellSized hmatches.fits
    ⟨hfit, Nat.le_refl _, fun _ => hpos, Nat.le_refl _⟩ b.length_members.ge _).failsAs

/-- The parts of a Jacobian check the plan and the inputs, but no memory of the caller. -/
theorem settled_jacobianByParts
    (hf : f.WellFormed) (hmax : 1 ≤ f.config.maxDirections) {plan : JacobianPlan}
    (htabled : plan.Tabled) (xs : List (List F)) :
    Settled (plan.Fits f ∧ FitLists f.inputPatterns xs) (Strict.jacobianByParts f xs plan)
      (f.jacobianByParts xs plan) := by
  refine settled_of_checks (Strict.jacobianByParts_eq hf hmax htabled xs)
    (and_congr checkJacobianPlan_eq_ok_iff checkLists_eq_ok_iff) (f.failsAs_checkJacobianPlan ..)
    (failsAs_checkLists ..) fun h => ?_
  rw [segments_of_sound hf (layout_sound hf 0), segments_full hf]
  refine (failsAs_mapM fun b _ => failsAs_forwardPart hf h.2 h.1 b).bind fun _ _ => ?_
  exact (failsAs_mapM fun b hb => failsAs_adjointPart hf h.2 h.1 _ hmax hb).bind fun _ _ =>
    failsAs_ok _

theorem settled_hessianByParts
    (hf : f.WellFormed) (hmax : 1 ≤ f.config.maxDirections) {plan : HessianPlan}
    (htabled : plan.Tabled) (xs : List (List F)) :
    Settled (plan.Matches f ∧ FitLists f.inputPatterns xs) (Strict.hessianByParts f xs plan)
      (f.hessianByParts xs plan) := by
  refine settled_of_checks (Strict.hessianByParts_eq hf htabled xs)
    (and_congr checkHessianPlan_eq_ok_iff checkLists_eq_ok_iff) (f.failsAs_checkHessianPlan ..)
    (failsAs_checkLists ..) fun h => ?_
  rw [segments_full hf]
  exact (failsAs_mapM fun b hb => failsAs_hessianPart hf h.2 h.1 hmax hb).bind fun _ _ =>
    failsAs_ok _

end Parts

section Compiled

variable {F : Type} [Zero F] [One F] [Add F] [Sub F] [Neg F] [Mul F] [Div F] [Elementary F]
  [ElementText F]

/--
No call about a compiled tape makes an access out of range, on a memory of any sizes, for inputs
and seeds of any lengths, and for plans of any compiled function, over any arithmetic. An
evaluation, a Jacobian, Jacobian blocks and a Hessian are refused for a dimension exactly if an
index, a length, the shape of a plan, the output of a Hessian or the memory does not fit, and then
the memory is as before; otherwise they return or meet a number that is not finite. Jacobians and
Hessians by independent batches, which take no memory, end in these ways too.
-/
theorem calls_settled
    {g : Graph F} {inputs outputs : List NodeId} {config : Config} {f : Tape F}
    (hbare : g.BareLeaves) (hcompile : compile g inputs outputs config = .ok f)
    (hmax : 1 ≤ config.maxDirections) {m : Memory F} (hm : m.WellSized) (xs : List (List F)) :
    (∀ fwdSeeds adjSeeds, Run.Settled (f.Accepts m.sizes xs fwdSeeds adjSeeds)
      (Strict.evaluate f xs fwdSeeds adjSeeds) (f.evaluate xs fwdSeeds adjSeeds) m) ∧
    (∀ plan : JacobianPlan, plan.Built →
      Run.Settled (f.FitsJacobians m.sizes xs [plan])
        (Strict.jacobianWithPlan f xs plan) (f.jacobianWithPlan xs plan) m ∧
      Settled (plan.Fits f ∧ FitLists f.inputPatterns xs)
        (Strict.jacobianByParts f xs plan) (f.jacobianByParts xs plan)) ∧
    (∀ plans : List JacobianPlan, (∀ plan ∈ plans, plan.Built) →
      Run.Settled (f.FitsJacobians m.sizes xs plans)
        (Strict.jacobianBlocksWithPlans f xs plans) (f.jacobianBlocksWithPlans xs plans) m) ∧
    ∀ plan : HessianPlan, plan.Built →
      Run.Settled (f.FitsHessian m.sizes xs plan)
        (Strict.hessianWithPlan f xs plan) (f.hessianWithPlan xs plan) m ∧
      Settled (plan.Matches f ∧ FitLists f.inputPatterns xs)
        (Strict.hessianByParts f xs plan) (f.hessianByParts xs plan) := by
  obtain ⟨order, h⟩ := compiled_of_compile hbare hcompile
  have hf := h.wellFormed
  have hmax' := h.one_le_maxDirections hmax
  refine ⟨?_, ?_, ?_, ?_⟩
  · intro fwdSeeds adjSeeds
    exact settled_evaluate hf hm xs fwdSeeds adjSeeds
  · intro plan hbuilt
    have hserial := settled_jacobianWithPlan hf hm hbuilt.tabled xs
    have hparts := settled_jacobianByParts hf hmax' hbuilt.tabled xs
    exact ⟨hserial, hparts⟩
  · intro plans hbuilt
    have htabled : ∀ plan ∈ plans, plan.Tabled := fun plan hplan => (hbuilt plan hplan).tabled
    exact settled_jacobianBlocksWithPlans hf hm htabled xs
  · intro plan hbuilt
    have hserial := settled_hessianWithPlan hf hm hbuilt.tabled xs
    have hparts := settled_hessianByParts hf hmax' hbuilt.tabled xs
    exact ⟨hserial, hparts⟩

end Compiled

/-- A plan by columns comes from a tape that asks for them. -/
theorem built_quotientColumns :
    quotientColumns.Built :=
  ⟨Extended, inferInstance, inferInstance, inferInstance, Graph.quotient, [0], [3],
    { mode := .forward }, { quotient 8 with config := { mode := .forward } }, 0, 0,
    Graph.bareLeaves_quotient, by cbv, by cbv⟩

theorem built_quotientHessian :
    quotientHessian.Built :=
  ⟨Extended, inferInstance, inferInstance, inferInstance, Graph.quotient, [0], [3],
    { maxDirections := 8 }, quotient 8, 0, 0, Graph.bareLeaves_quotient, compile_quotient 8,
    by cbv⟩

/-- A memory without tangents is too small for columns and for a Hessian, not for an evaluation. -/
theorem calls_settled_quotient :
    let m : Memory Extended := (quotient 8).memory 0 1
    ((∃ e, ((quotient 8).evaluate quotientInputs [] [[[1]]]).alone m = .ok e) ∨
      ∃ op node k, ((quotient 8).evaluate quotientInputs [] [[[1]]]).alone m =
        .error (.rejected (.numeric op node k))) ∧
    (∃ op cause, ((quotient 8).jacobianWithPlan quotientInputs quotientColumns).alone m =
      .error (.rejected (.dimension op cause))) ∧
    (((quotient 8).jacobianWithPlan quotientInputs quotientColumns).run.run m).2 = m ∧
    (∃ op cause, ((quotient 8).jacobianBlocksWithPlans quotientInputs [quotientColumns]).alone m =
      .error (.rejected (.dimension op cause))) ∧
    (∃ op cause, ((quotient 8).hessianWithPlan quotientInputs quotientHessian).alone m =
      .error (.rejected (.dimension op cause))) ∧
    Strict.jacobianByParts (quotient 8) quotientInputs quotientColumns =
      (quotient 8).jacobianByParts quotientInputs quotientColumns ∧
    Strict.hessianByParts (quotient 8) quotientInputs quotientHessian =
      (quotient 8).hessianByParts quotientInputs quotientHessian := by
  have hm := Memory.wellSized_new (F := Extended) ((quotient 8).requiredMemory 0 1)
  obtain ⟨hevaluate, hjacobian, hblocks, hhessian⟩ := calls_settled Graph.bareLeaves_quotient
    (compile_quotient 8) (by decide) hm quotientInputs
  have hcolumns := hjacobian quotientColumns built_quotientColumns
  have hproducts := hhessian quotientHessian built_quotientHessian
  have haccepted : (quotient 8).checkEvaluation "evaluate" ((quotient 8).requiredMemory 0 1)
      quotientInputs [] [[[1]]] = .ok () := by cbv
  have hshort : ¬ (1 ≤ 0) := by decide
  have hjacobians : ¬ (quotient 8).FitsJacobians ((quotient 8).requiredMemory 0 1) quotientInputs
      [quotientColumns] := fun h => hshort h.memory.nfwd
  exact ⟨(hevaluate [] [[[1]]]).result.settles (checkEvaluation_eq_ok_iff.1 haccepted),
    hcolumns.1.result.dimension_iff.2 hjacobians, hcolumns.1.unchanged hjacobians,
    (hblocks _ (by simpa using built_quotientColumns)).result.dimension_iff.2 hjacobians,
    hproducts.1.result.dimension_iff.2 fun h => hshort h.memory.nfwd, hcolumns.2.same,
    hproducts.2.same⟩

end Tape

end SparseDiff
