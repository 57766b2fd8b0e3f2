import SparseDiff.Assembly.Hessian
import SparseDiff.Proofs.SecondOrder

/-!
# The shape of a memory

No call changes how many arrays a memory has or how long they are, not even a call that fails
midway (`Run.KeepsShape`). So whatever calls of whatever functions a memory has been through, it
is again a memory of its sizes, and its contents may be anything.
-/

namespace SparseDiff

variable {F : Type}

namespace Run

variable {α β : Type}

/-- From a memory with its arrays a computation leaves one of the same sizes, also if it fails. -/
structure KeepsShape (x : Run F α) : Prop where
  after : ∀ m : Memory F, m.WellSized →
    (x.run.run m).2.WellSized ∧ (x.run.run m).2.sizes = m.sizes

theorem keepsShape_pure
    (a : α) :
    KeepsShape (pure a : Run F α) :=
  ⟨fun _ hm => ⟨hm, rfl⟩⟩

theorem keepsShape_throw
    (e : Failure) :
    KeepsShape (throw e : Run F α) :=
  ⟨fun _ hm => ⟨hm, rfl⟩⟩

theorem keepsShape_get :
    KeepsShape (get : Run F (Memory F)) :=
  ⟨fun _ hm => ⟨hm, rfl⟩⟩

theorem keepsShape_ofExcept
    (e : Except Failure α) :
    KeepsShape (ofExcept e : Run F α) := by
  cases e with
  | ok a => exact keepsShape_pure a
  | error e => exact keepsShape_throw e

theorem keepsShape_modify
    {g : Memory F → Memory F}
    (hg : ∀ m : Memory F, m.WellSized → (g m).WellSized ∧ (g m).sizes = m.sizes) :
    KeepsShape (modify g : Run F Unit) :=
  ⟨fun m hm => hg m hm⟩

theorem KeepsShape.bind
    {x : Run F α} {f : α → Run F β} (hx : KeepsShape x) (hf : ∀ a, KeepsShape (f a)) :
    KeepsShape (x >>= f) := by
  refine ⟨fun m hm => ?_⟩
  obtain ⟨hsized, hsizes⟩ := hx.after m hm
  rw [run_bind]
  generalize x.run.run m = outcome at hsized hsizes
  obtain ⟨r, m'⟩ := outcome
  cases r with
  | error e => exact ⟨hsized, hsizes⟩
  | ok a =>
      obtain ⟨hsized', hsizes'⟩ := (hf a).after m' hsized
      exact ⟨hsized', hsizes'.trans hsizes⟩

theorem keepsShape_requireSlots
    (slots : List Nat) :
    KeepsShape (requireSlots slots : Run F Unit) := by
  refine keepsShape_get.bind fun m => ?_
  split
  · exact keepsShape_pure ()
  · exact keepsShape_throw _

theorem keepsShape_forM
    {f : α → Run F Unit} {xs : List α} (hf : ∀ x ∈ xs, KeepsShape (f x)) :
    KeepsShape (xs.forM f) := by
  induction xs with
  | nil => exact keepsShape_pure ()
  | cons x xs ih =>
      exact (hf x (List.mem_cons_self ..)).bind fun _ =>
        ih fun y hy => hf y (List.mem_cons_of_mem _ hy)

theorem keepsShape_mapM
    {f : α → Run F β} (hf : ∀ x, KeepsShape (f x)) (xs : List α) :
    KeepsShape (xs.mapM f) := by
  induction xs with
  | nil =>
      rw [List.mapM_nil]
      exact keepsShape_pure []
  | cons x xs ih =>
      rw [List.mapM_cons]
      exact (hf x).bind fun y => ih.bind fun ys => keepsShape_pure _

theorem keepsShape_foldlM
    {f : β → α → Run F β} (hf : ∀ b x, KeepsShape (f b x)) (b : β) (xs : List α) :
    KeepsShape (xs.foldlM f b) := by
  induction xs generalizing b with
  | nil => exact keepsShape_pure b
  | cons x xs ih =>
      rw [List.foldlM_cons]
      exact (hf b x).bind fun b' => ih b'

end Run

open Run

section Sweeps

/-- A change of the adjoints that keeps the lengths of their arrays. -/
theorem keepsShape_modifyAdj
    {g : Memory F → Array (Array F)}
    (hg : ∀ m : Memory F, m.WellSized → Sized m.sizes.nadj m.sizes.work (g m)) :
    KeepsShape (modify fun m => { m with adj := g m } : Run F Unit) :=
  keepsShape_modify fun m hm => ⟨⟨hm.values, hm.fwd, hg m hm, hm.adjFwd⟩, rfl⟩

/-- The same of the adjoint tangents. -/
theorem keepsShape_modifyAdjFwd
    {g : Memory F → Array (Array F)}
    (hg : ∀ m : Memory F, m.WellSized → Sized m.sizes.second m.sizes.work (g m)) :
    KeepsShape (modify fun m => { m with adjFwd := g m } : Run F Unit) :=
  keepsShape_modify fun m hm => ⟨⟨hm.values, hm.fwd, hm.adj, hg m hm⟩, rfl⟩

theorem keepsShape_checkAdjoints
    [Calculus F] (check : Bool) (op : String) (node : NodeId) (k : Nat) (lams : List F) :
    KeepsShape (checkAdjoints check op node k lams) := by
  unfold checkAdjoints
  split
  · exact keepsShape_throw _
  · exact keepsShape_pure ()

namespace Tape

variable (f : Tape F)

theorem keepsShape_loadInputs
    (l : Layout) (xs : List (List F)) :
    KeepsShape (f.loadInputs l xs) := by
  refine keepsShape_forM fun item _ => (keepsShape_ofExcept _).bind fun start => ?_
  refine (keepsShape_requireSlots _).bind fun _ => keepsShape_modify fun m hm => ?_
  exact ⟨⟨by simpa using hm.values, hm.fwd, hm.adj, hm.adjFwd⟩, rfl⟩

theorem keepsShape_loadTangent
    (l : Layout) (d : Nat) (seed : Nat → Nat → F) :
    KeepsShape (f.loadTangent l d seed) := by
  refine keepsShape_forM fun item _ => (keepsShape_ofExcept _).bind fun start => ?_
  refine (keepsShape_requireSlots _).bind fun _ => keepsShape_modify fun m hm => ?_
  exact ⟨⟨hm.values, hm.fwd.modify d fun w => size_writeAt .., hm.adj, hm.adjFwd⟩, rfl⟩

theorem keepsShape_seedAdjoint
    [Add F] (d o : Nat) (seed : Nat → F) :
    KeepsShape (f.seedAdjoint d o seed) := by
  have hsize : ∀ (start : Nat) (ks : List Nat) (w : Array F),
      (ks.foldl (fun w k => w.modify (start + k) (· + seed k)) w).size = w.size := by
    intro start ks
    induction ks with
    | nil => exact fun w => rfl
    | cons k ks ih => exact fun w => (ih _).trans (by simp)
  unfold seedAdjoint
  split
  · refine (keepsShape_ofExcept _).bind fun start => (keepsShape_requireSlots _).bind fun _ => ?_
    exact keepsShape_modifyAdj fun _ hm => hm.adj.modify d fun w => hsize start _ w
  · exact keepsShape_throw _

variable [Zero F]

theorem keepsShape_clearAdjoint
    (d : Nat) :
    KeepsShape (clearAdjoint d : Run F Unit) :=
  keepsShape_modifyAdj fun _ hm => hm.adj.modify d fun w => by simp

theorem keepsShape_clearAdjointTangent
    (d : Nat) :
    KeepsShape (clearAdjointTangent d : Run F Unit) :=
  keepsShape_modifyAdjFwd fun _ hm => hm.adjFwd.modify d fun w => by simp

theorem keepsShape_takeInputAdjoint
    (d i : Nat) :
    KeepsShape (f.takeInputAdjoint d i) := by
  refine (keepsShape_ofExcept _).bind fun range => (keepsShape_requireSlots _).bind fun _ => ?_
  refine keepsShape_get.bind fun _ => KeepsShape.bind ?_ fun _ => keepsShape_pure _
  exact keepsShape_modifyAdj fun _ hm => hm.adj.modify d fun w => size_writeAt ..

theorem keepsShape_takeInputAdjointTangent
    (d i : Nat) :
    KeepsShape (f.takeInputAdjointTangent d i) := by
  refine (keepsShape_ofExcept _).bind fun range => (keepsShape_requireSlots _).bind fun _ => ?_
  refine keepsShape_get.bind fun _ => KeepsShape.bind ?_ fun _ => keepsShape_pure _
  exact keepsShape_modifyAdjFwd fun _ hm => hm.adjFwd.modify d fun w => size_writeAt ..

end Tape

variable [Zero F] [Add F] [Mul F] [Calculus F]

namespace Cell

theorem keepsShape_forward
    (nfwd dest : Nat) (c : Cell F) :
    KeepsShape (c.forward nfwd dest) := by
  unfold Cell.forward
  split
  · exact keepsShape_pure ()
  · refine (keepsShape_requireSlots _).bind fun _ => keepsShape_modify fun m hm => ?_
    refine ⟨⟨?_, ?_, hm.adj, hm.adjFwd⟩, rfl⟩
    · simpa [advance] using hm.values
    · exact hm.fwd.updateFirst nfwd fun _ _ => by simp

theorem keepsShape_adjoint
    (check : Bool) (op : String) (nadj : Nat) (node : NodeId) (k dest : Nat) (c : Cell F) :
    KeepsShape (c.adjoint check op nadj node k dest) := by
  unfold Cell.adjoint
  split
  · exact keepsShape_pure ()
  · refine (keepsShape_requireSlots _).bind fun _ => keepsShape_get.bind fun _ => ?_
    refine KeepsShape.bind ?_ fun _ => ?_
    · exact keepsShape_modifyAdj fun _ hm => hm.adj.updateFirst _ fun _ _ => by simp
    · split
      · exact keepsShape_pure ()
      · refine (keepsShape_checkAdjoints ..).bind fun _ =>
          (keepsShape_requireSlots _).bind fun _ => ?_
        exact keepsShape_modifyAdj fun _ hm => hm.adj.updateFirst _ fun _ _ => by simp

theorem keepsShape_secondOrder
    (check : Bool) (op : String) (nfwd : Nat) (node : NodeId) (k dest : Nat) (c : Cell F) :
    KeepsShape (c.secondOrder check op nfwd node k dest) := by
  unfold Cell.secondOrder
  split
  · exact keepsShape_pure ()
  · refine (keepsShape_requireSlots _).bind fun _ => keepsShape_get.bind fun _ =>
      keepsShape_get.bind fun _ => KeepsShape.bind ?_ fun _ => ?_
    · exact keepsShape_modify fun _ hm => ⟨⟨hm.values, hm.fwd, hm.adj.updateFirst _ fun _ _ => by
        simp, hm.adjFwd.updateFirst _ fun _ _ => by simp⟩, rfl⟩
    · split
      · exact keepsShape_pure ()
      · refine (keepsShape_checkAdjoints ..).bind fun _ =>
          (keepsShape_requireSlots _).bind fun _ => ?_
        exact keepsShape_modify fun _ hm => ⟨⟨hm.values, hm.fwd, hm.adj.updateFirst _ fun _ _ => by
          simp, hm.adjFwd.updateFirst _ fun _ _ => size_backwardTangent ..⟩, rfl⟩

end Cell

theorem keepsShape_segment
    (check : Bool) (op : String) (nfwd : Nat) (s : Segment F) :
    KeepsShape (s.forward check op nfwd) := by
  refine keepsShape_get.bind fun m => KeepsShape.bind ?_ fun _ => ?_
  · exact keepsShape_forM fun item _ => Cell.keepsShape_forward ..
  · split
    · refine keepsShape_get.bind fun _ => ?_
      split
      · exact keepsShape_throw _
      · exact keepsShape_pure ()
    · exact keepsShape_pure ()

theorem keepsShape_forwardSweep
    (check : Bool) (op : String) (nfwd : Nat) (tape : List (Segment F)) :
    KeepsShape (forwardSweep check op nfwd tape) :=
  keepsShape_forM fun s _ => keepsShape_segment check op nfwd s

theorem keepsShape_adjointSweep
    (check : Bool) (op : String) (nadj : Nat) (tape : List (Segment F)) :
    KeepsShape (adjointSweep check op nadj tape) :=
  keepsShape_forM fun _ _ => keepsShape_forM fun _ _ => Cell.keepsShape_adjoint ..

theorem keepsShape_secondOrderSweep
    (check : Bool) (op : String) (nfwd : Nat) (tape : List (Segment F)) :
    KeepsShape (secondOrderSweep check op nfwd tape) :=
  keepsShape_forM fun _ _ => keepsShape_forM fun _ _ => Cell.keepsShape_secondOrder ..

end Sweeps

namespace Tape

variable [Zero F] [Add F] [Mul F] [Calculus F] (f : Tape F)

theorem keepsShape_adjointSensitivities
    (op : String) (tape : List (Segment F)) (seeds : List (List (List F))) :
    KeepsShape (f.adjointSensitivities op tape seeds) := by
  refine KeepsShape.bind ?_ fun _ => (keepsShape_adjointSweep ..).bind fun _ => ?_
  · exact keepsShape_forM fun item _ => (keepsShape_clearAdjoint _).bind fun _ =>
      keepsShape_forM fun o _ => f.keepsShape_seedAdjoint ..
  · exact keepsShape_mapM
      (fun d => keepsShape_mapM (fun i => f.keepsShape_takeInputAdjoint d i) _) _

theorem keepsShape_evaluate
    (xs : List (List F)) (fwdSeeds adjSeeds : List (List (List F))) :
    KeepsShape (f.evaluate xs fwdSeeds adjSeeds) := by
  refine keepsShape_get.bind fun m => (keepsShape_ofExcept _).bind fun _ => ?_
  refine (f.keepsShape_loadInputs _ _).bind fun _ => KeepsShape.bind ?_ fun _ => ?_
  · exact keepsShape_forM fun item _ => f.keepsShape_loadTangent ..
  refine (keepsShape_ofExcept _).bind fun tape => (keepsShape_forwardSweep ..).bind fun _ => ?_
  refine keepsShape_get.bind fun _ => (keepsShape_ofExcept _).bind fun _ =>
    KeepsShape.bind ?_ fun _ => ?_
  · exact keepsShape_mapM (fun _ => keepsShape_ofExcept _) _
  split
  · exact (keepsShape_pure _).bind fun _ => keepsShape_pure _
  · exact (f.keepsShape_adjointSensitivities ..).bind fun _ => keepsShape_pure _

variable [One F]

theorem keepsShape_forwardDirections
    (tape : List (Segment F)) (xs : List (List F)) (dirs : List Direction) :
    KeepsShape (f.forwardDirections tape xs dirs) := by
  refine (f.keepsShape_loadInputs _ _).bind fun _ => KeepsShape.bind ?_ fun _ => ?_
  · exact keepsShape_forM fun item _ => f.keepsShape_loadTangent ..
  refine (keepsShape_forwardSweep ..).bind fun _ => keepsShape_get.bind fun m => ?_
  exact keepsShape_mapM (fun item => (keepsShape_ofExcept _).bind fun _ => keepsShape_pure _) _

theorem keepsShape_adjointDirections
    (tape : List (Segment F)) (dirs : List Direction) :
    KeepsShape (f.adjointDirections tape dirs) := by
  refine KeepsShape.bind ?_ fun _ => (keepsShape_adjointSweep ..).bind fun _ => ?_
  · exact keepsShape_forM fun item _ => (keepsShape_clearAdjoint _).bind fun _ =>
      f.keepsShape_seedAdjoint ..
  · exact keepsShape_mapM (fun item => (f.keepsShape_takeInputAdjoint ..).bind fun _ =>
      keepsShape_pure _) _

theorem keepsShape_jacobianValues
    (op : String) (xs : List (List F)) (plans : List JacobianPlan) :
    KeepsShape (f.jacobianValues op xs plans) := by
  refine keepsShape_get.bind fun m => (keepsShape_ofExcept _).bind fun _ =>
    KeepsShape.bind ?_ fun _ => ?_
  · exact (keepsShape_ofExcept _).bind fun tape => keepsShape_foldlM (fun values b =>
      (f.keepsShape_forwardDirections ..).bind fun _ => keepsShape_pure _) _ _
  · split
    · exact keepsShape_pure _
    · refine (keepsShape_ofExcept _).bind fun tape => KeepsShape.bind ?_ fun _ => ?_
      · exact (f.keepsShape_loadInputs ..).bind fun _ => keepsShape_forwardSweep ..
      · exact keepsShape_foldlM (fun values b =>
          (f.keepsShape_adjointDirections ..).bind fun _ => keepsShape_pure _) _ _

theorem keepsShape_jacobianWithPlan
    (xs : List (List F)) (plan : JacobianPlan) :
    KeepsShape (f.jacobianWithPlan xs plan) :=
  (f.keepsShape_jacobianValues ..).bind fun _ => keepsShape_pure _

theorem keepsShape_jacobianBlocksWithPlans
    (xs : List (List F)) (plans : List JacobianPlan) :
    KeepsShape (f.jacobianBlocksWithPlans xs plans) :=
  (f.keepsShape_jacobianValues ..).bind fun _ => keepsShape_pure _

theorem keepsShape_hessianWithPlan
    (xs : List (List F)) (plan : HessianPlan) :
    KeepsShape (f.hessianWithPlan xs plan) := by
  have hproducts : ∀ tape tangents,
      KeepsShape (f.hessianProducts tape xs plan.output plan.input tangents) := by
    intro tape tangents
    refine (f.keepsShape_loadInputs ..).bind fun _ => KeepsShape.bind ?_ fun _ => ?_
    · exact keepsShape_forM fun item _ => (f.keepsShape_loadTangent ..).bind fun _ =>
        keepsShape_clearAdjointTangent _
    refine (keepsShape_forwardSweep ..).bind fun _ => (keepsShape_clearAdjoint _).bind fun _ => ?_
    refine (f.keepsShape_seedAdjoint ..).bind fun _ => (keepsShape_secondOrderSweep ..).bind
      fun _ => ?_
    exact keepsShape_mapM (fun d => f.keepsShape_takeInputAdjointTangent ..) _
  refine keepsShape_get.bind fun m => (keepsShape_ofExcept _).bind fun _ =>
    (keepsShape_ofExcept _).bind fun tape => KeepsShape.bind ?_ fun _ => keepsShape_pure _
  exact keepsShape_foldlM (fun values b => (hproducts ..).bind fun _ => keepsShape_pure _) _ _

end Tape

end SparseDiff
