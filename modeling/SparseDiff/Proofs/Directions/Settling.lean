import SparseDiff.Proofs.Directions.Adjoint
import SparseDiff.Proofs.Products

/-!
# Directions that are not skipped

A second-order sweep skips a cell only where no direction has anything to take, so next to a
busy direction an idle one is swept as well. It then adds zero times its tangents, and such a
product has to be zero for this to add nothing (`Absorbed`). It is: a sweep starts with a single
seed, on which all directions are busy, and from there on every adjoint tangent that a factor
zero makes zero stands in a slot whose tangent it makes zero too (`Phase`, `Stepping.phase`). So a
direction does the same steps among others and alone (`Stepping.tangentStep_eq_dotStep`).
-/

namespace SparseDiff

variable {F : Type}

/-- Zero times the number is zero. -/
def Absorbed [Zero F] [Mul F] [Calculus F] (x : F) : Prop :=
  Calculus.isZero (0 * x) = true

/--
A factor zero makes a product zero, unless the other factor is one that no sum and no product
gets rid of. Over the reals, and wherever else zero times a number is zero, nothing but the zero
test of zero is asked; among floating-point numbers zero times infinity or NaN is not zero, but
neither is it for a sum or a product with these.
-/
class Calculus.AbsorbingZero (F : Type) [Zero F] [Add F] [Mul F] [Calculus F] : Prop where
  isZero_zero : Calculus.isZero (0 : F) = true
  absorbed_of_isZero : ∀ x : F, Calculus.isZero x = true → Absorbed x
  absorbed_of_add : ∀ x y : F, Absorbed (x + y) → Absorbed x ∧ Absorbed y
  absorbed_of_mul : ∀ d x : F, Absorbed (d * x) → Absorbed x

section SeedMul

variable [Zero F] [Add F] [Mul F] [Calculus F] [Calculus.AbsorbingZero F]

theorem isZero_seedMul_zero
    {x : F} (h : Absorbed x) :
    Calculus.isZero (seedMul 0 x) = true := by
  unfold seedMul
  split
  · exact Calculus.AbsorbingZero.isZero_zero
  · exact h

theorem absorbed_of_seedMul
    {d x : F} (h : Absorbed (seedMul d x)) :
    Absorbed x := by
  unfold seedMul at h
  split at h
  · next hzero => exact Calculus.AbsorbingZero.absorbed_of_isZero x hzero
  · exact Calculus.AbsorbingZero.absorbed_of_mul d x h

end SeedMul

theorem getD_modifySlot_of_not_mem
    [Zero F] {slot : Option Nat} {p : Nat} (hp : p ∉ slot.toList) (acc : Array F) (g : F → F) :
    (modifySlot acc slot g).getD p 0 = acc.getD p 0 := by
  cases slot with
  | none => rfl
  | some s => exact getD_modify_ne (by simpa using hp) g

namespace Cell

section Targets

variable [Zero F] [Calculus F]

/-- The slots that a step backward adds to. -/
def targets (w : Array F) : Cell F → List Nat
  | input _ _ | constant _ => []
  | unary _ a => a.toList
  | binary _ a b => a.toList ++ b.toList
  | select tol cond source => if Calculus.selects (readSlot w cond) tol then [source] else []
  | copy source => [source]

theorem mem_slots_of_mem_targets
    {w : Array F} {c : Cell F} {q : Nat} (hq : q ∈ c.targets w) :
    q ∈ c.slots := by
  cases c with
  | select tol cond source =>
      simp only [targets] at hq
      split at hq
      · exact List.mem_append_right cond.toList hq
      · exact absurd hq List.not_mem_nil
  | input | constant | unary | binary | copy => exact hq

variable [Add F] [Mul F] {w : Array F} {c : Cell F} {p : Nat}

theorem getD_backward_of_not_target
    (hp : p ∉ c.targets w) (r lam : F) (acc : Array F) :
    (c.backward w r lam acc).getD p 0 = acc.getD p 0 := by
  cases c with
  | input | constant => rfl
  | unary op a => exact getD_modifySlot_of_not_mem hp ..
  | binary op a b =>
      obtain ⟨ha, hb⟩ := not_or.1 (mt List.mem_append.2 hp)
      exact (getD_modifySlot_of_not_mem hb ..).trans (getD_modifySlot_of_not_mem ha ..)
  | select tol cond source =>
      simp only [targets] at hp
      simp only [backward]
      split at hp
      · next h =>
          rw [if_pos h]
          exact getD_modify_ne (by simpa using hp) _
      · next h => rw [if_neg h]
  | copy source => exact getD_modify_ne (by simpa [targets] using hp) _

theorem getD_backwardTangent_of_not_target
    (hp : p ∉ c.targets w) (r lam : F) (t : Array F) (dlam : F) (acc : Array F) :
    (c.backwardTangent w r lam t dlam acc).getD p 0 = acc.getD p 0 := by
  cases c with
  | input | constant => rfl
  | unary op a => exact getD_modifySlot_of_not_mem hp ..
  | binary op a b =>
      obtain ⟨ha, hb⟩ := not_or.1 (mt List.mem_append.2 hp)
      exact (getD_modifySlot_of_not_mem hb ..).trans (getD_modifySlot_of_not_mem ha ..)
  | select tol cond source =>
      simp only [targets] at hp
      simp only [backwardTangent]
      split at hp
      · next h =>
          rw [if_pos h]
          exact getD_modify_ne (by simpa using hp) _
      · next h => rw [if_neg h]
  | copy source => exact getD_modify_ne (by simpa [targets] using hp) _

/-- Whether the cell hands on what it takes as it is. -/
def passes : Cell F → Bool
  | select .. | copy _ => true
  | _ => false

/-- A cell that hands on has one target at most. -/
theorem passes_iff_of_target
    {q : Nat} (hpass : c.passes = true) (hq : q ∈ c.targets w) :
    c.targets w = [q] ∧ (∀ r lam acc, c.backward w r lam acc = acc.modify q (· + lam)) ∧
      ∀ r lam t dlam acc, c.backwardTangent w r lam t dlam acc = acc.modify q (· + dlam) := by
  cases c with
  | input | constant | unary | binary => cases hpass
  | select tol cond source =>
      simp only [targets] at hq ⊢
      simp only [backward, backwardTangent]
      split at hq
      · next h =>
          rw [List.mem_singleton.1 hq]
          simp [h]
      · exact absurd hq List.not_mem_nil
  | copy source =>
      rw [List.mem_singleton.1 hq]
      exact ⟨rfl, fun _ _ _ => rfl, fun _ _ _ _ _ => rfl⟩

section Laws

variable [Calculus.AbsorbingZero F] {t acc : Array F} {r lam dlam : F}

/-- A tangent that a factor zero makes zero comes from tangents of this kind. -/
theorem absorbed_target_of_tangent
    (h : Absorbed (c.tangent w r t)) {q : Nat} (hq : q ∈ c.targets w) :
    Absorbed (t.getD q 0) := by
  have halong : ∀ (d : F) (a : Option Nat), Absorbed (along d t a) → q ∈ a.toList →
      Absorbed (t.getD q 0) := by
    intro d a h hq
    cases a with
    | none => exact absurd hq List.not_mem_nil
    | some s =>
        rw [List.mem_singleton.1 hq]
        exact absorbed_of_seedMul h
  cases c with
  | input | constant => exact absurd hq List.not_mem_nil
  | unary op a => exact halong _ a h hq
  | binary op a b =>
      obtain ⟨ha, hb⟩ := Calculus.AbsorbingZero.absorbed_of_add _ _ h
      rcases List.mem_append.1 hq with hq | hq
      · exact halong _ a ha hq
      · exact halong _ b hb hq
  | select tol cond source =>
      simp only [targets] at hq
      simp only [tangent] at h
      split at hq
      · next hsel =>
          rw [if_pos hsel] at h
          rwa [List.mem_singleton.1 hq]
      · exact absurd hq List.not_mem_nil
  | copy source => rwa [List.mem_singleton.1 hq]

/-- A tangent that a factor zero does not make zero leaves such an adjoint tangent behind. -/
theorem absorbed_of_backwardTangent
    (hpass : c.passes = false) {q : Nat} (hq : q ∈ c.targets w) (hsize : q < acc.size)
    (h : Absorbed ((c.backwardTangent w r lam t dlam acc).getD q 0)) :
    Absorbed (t.getD q 0) := by
  cases c with
  | input | constant => exact absurd hq List.not_mem_nil
  | select | copy => cases hpass
  | unary op a =>
      cases a with
      | none => exact absurd hq List.not_mem_nil
      | some s =>
          obtain rfl := List.mem_singleton.1 hq
          simp only [backwardTangent, modifySlot, getD_modify_self hsize] at h
          exact absorbed_of_seedMul (Calculus.AbsorbingZero.absorbed_of_add _ _ h).2
  | binary op a b =>
      simp only [backwardTangent] at h
      by_cases hb : q ∈ b.toList
      · cases b with
        | none => exact absurd hb List.not_mem_nil
        | some s =>
            obtain rfl := List.mem_singleton.1 hb
            rw [modifySlot, getD_modify_self (by simpa using hsize)] at h
            exact absorbed_of_seedMul (Calculus.AbsorbingZero.absorbed_of_add _ _ h).2
      · have ha : q ∈ a.toList := (List.mem_append.1 hq).resolve_right hb
        rw [getD_modifySlot_of_not_mem hb] at h
        cases a with
        | none => exact absurd ha List.not_mem_nil
        | some s =>
            obtain rfl := List.mem_singleton.1 ha
            rw [modifySlot, getD_modify_self hsize] at h
            exact absorbed_of_seedMul (Calculus.AbsorbingZero.absorbed_of_add _ _
              (Calculus.AbsorbingZero.absorbed_of_add _ _ h).1).2

variable [Calculus.NeutralZero F]

/--
Zero adjoints and zero adjoint tangents add nothing where a factor zero makes the tangents zero.
-/
theorem backwardTangent_of_isZero
    (hlam : Calculus.isZero lam = true) (hdlam : Calculus.isZero dlam = true)
    (ht : ∀ q ∈ c.targets w, Absorbed (t.getD q 0)) :
    c.backwardTangent w r lam t dlam acc = acc := by
  have hseed : ∀ d : F, seedMul d dlam = 0 := fun d => if_pos hdlam
  have hzero := Calculus.NeutralZero.add_zero (F := F)
  have hadd := fun x => Calculus.NeutralZero.add_isZero x dlam hdlam
  have hread : ∀ a : Option Nat, (∀ q ∈ a.toList, Absorbed (t.getD q 0)) →
      ∀ x : F, x + seedMul 0 (readSlot t a) = x := by
    intro a ha x
    refine Calculus.NeutralZero.add_isZero x _ (isZero_seedMul_zero ?_)
    cases a with
    | none =>
        exact Calculus.AbsorbingZero.absorbed_of_isZero 0 Calculus.AbsorbingZero.isZero_zero
    | some s => exact ha s (by simp)
  cases c with
  | input | constant => rfl
  | unary op a => simp [backwardTangent, hlam, hseed, hzero, hread a ht]
  | binary op a b =>
      have ha := hread a fun q hq => ht q (List.mem_append_left _ hq)
      have hb := hread b fun q hq => ht q (List.mem_append_right _ hq)
      simp [backwardTangent, hlam, hseed, hzero, ha, hb]
  | select tol cond source => simp [backwardTangent, hadd]
  | copy source => simp [backwardTangent, hadd]

end Laws

/-- A step on the adjoint tangents of one direction, skipped where there is nothing to take. -/
def dotStep (w : Array F) (s : Nat) (lam : F) (t : Array F) (c : Cell F) (acc : Array F) :
    Array F :=
  if c.isInput = false ∧ Calculus.isZero lam = true ∧ Calculus.isZero (acc.getD s 0) = true then
    acc.setIfInBounds s 0
  else
    c.tangentStep w s lam t acc

variable {s : Nat} {acc t : Array F}

/-- Away from its own slot, a step changes its targets only. -/
theorem getD_adjointStep_of_not_target
    (hps : p ≠ s) (hp : p ∉ c.targets w) :
    (c.adjointStep w s acc).getD p 0 = acc.getD p 0 := by
  unfold adjointStep
  split
  · rfl
  · rw [getD_backward_of_not_target hp, getD_setIfInBounds_ne hps]

theorem getD_dotStep_of_not_target
    (hps : p ≠ s) (hp : p ∉ c.targets w) (lam : F) :
    (c.dotStep w s lam t acc).getD p 0 = acc.getD p 0 := by
  by_cases hskip : c.isInput = false ∧ Calculus.isZero lam = true ∧
      Calculus.isZero (acc.getD s 0) = true
  · rw [dotStep, if_pos hskip, getD_setIfInBounds_ne hps]
  · rw [dotStep, if_neg hskip]
    unfold tangentStep
    split
    · rfl
    · rw [getD_backwardTangent_of_not_target hp, getD_setIfInBounds_ne hps]

/-- A step takes out what is in its own slot. -/
theorem getD_adjointStep_self
    (hinput : c.isInput = false) (hs : s < acc.size) (hown : s ∉ c.slots) :
    (c.adjointStep w s acc).getD s 0 = 0 := by
  rw [adjointStep, hinput, if_neg Bool.false_ne_true,
    getD_backward_of_not_target (fun h => hown (mem_slots_of_mem_targets h)),
    getD_setIfInBounds_self hs]

theorem getD_dotStep_self
    (hinput : c.isInput = false) (hs : s < acc.size) (hown : s ∉ c.slots) (lam : F) :
    (c.dotStep w s lam t acc).getD s 0 = 0 := by
  by_cases hskip : c.isInput = false ∧ Calculus.isZero lam = true ∧
      Calculus.isZero (acc.getD s 0) = true
  · rw [dotStep, if_pos hskip, getD_setIfInBounds_self hs]
  · rw [dotStep, if_neg hskip, tangentStep, hinput, if_neg Bool.false_ne_true,
      getD_backwardTangent_of_not_target (fun h => hown (mem_slots_of_mem_targets h)),
      getD_setIfInBounds_self hs]

end Targets

end Cell

section Together

variable [Zero F] [Mul F] [Calculus F]

/-- Nothing is left to be taken from slot `p`. -/
def Emptied (nfwd : Nat) (lams : Array F) (dots : Nat → Array F) (p : Nat) : Prop :=
  Calculus.isZero (lams.getD p 0) = true ∧
    ∀ d < nfwd, Calculus.isZero ((dots d).getD p 0) = true

/-- One slot has an adjoint, and there is nothing else. -/
def Seeded (nfwd : Nat) (lams : Array F) (dots : Nat → Array F) : Prop :=
  ∃ s₀, (∀ p, p ≠ s₀ → lams.getD p 0 = 0) ∧ ∀ d < nfwd, ∀ p, (dots d).getD p 0 = 0

/--
If something is left to be taken from `p`, the adjoint tangents that a factor zero makes zero
have tangents of this kind.
-/
def SettledAt (nfwd : Nat) (ts : Nat → Array F) (lams : Array F) (dots : Nat → Array F)
    (p : Nat) : Prop :=
  Emptied nfwd lams dots p ∨
    ∀ d < nfwd, Absorbed ((dots d).getD p 0) → Absorbed ((ts d).getD p 0)

variable {nfwd p : Nat} {ts dots dots' : Nat → Array F} {lams lams' : Array F}

theorem SettledAt.congr
    (h : SettledAt nfwd ts lams dots p) (hlams : lams'.getD p 0 = lams.getD p 0)
    (hdots : ∀ d < nfwd, (dots' d).getD p 0 = (dots d).getD p 0) :
    SettledAt nfwd ts lams' dots' p := by
  rcases h with ⟨hlam, hdot⟩ | habsorbed
  · refine .inl ⟨by rw [hlams, hlam], fun d hd => ?_⟩
    rw [hdots d hd, hdot d hd]
  · refine .inr fun d hd hdot => habsorbed d hd ?_
    rwa [← hdots d hd]

/--
The state of the directions during a sweep: the one seed is being handed on, or every slot is
settled.
-/
def Phase (nfwd : Nat) (ts : Nat → Array F) (lams : Array F) (dots : Nat → Array F) : Prop :=
  Seeded nfwd lams dots ∨ ∀ p, SettledAt nfwd ts lams dots p

/-- A phase is one of the first directions. -/
theorem Phase.congr
    (h : Phase nfwd ts lams dots) (hdots : ∀ d < nfwd, dots' d = dots d) :
    Phase nfwd ts lams dots' := by
  rcases h with ⟨s₀, hother, hnone⟩ | hsettled
  · refine .inl ⟨s₀, hother, fun d hd => ?_⟩
    rw [hdots d hd]
    exact hnone d hd
  · exact .inr fun p => (hsettled p).congr rfl fun d hd => by rw [hdots d hd]

end Together

variable [Zero F] [Add F] [Mul F] [Calculus F]

/-- Directions with tangents `ts` solve the equation of a cell with own slot `s`. -/
structure SolvedAt (n nfwd : Nat) (w : Array F) (ts : Nat → Array F) (s : Nat) (c : Cell F) :
    Prop where
  slot : s < n
  slots : ∀ q ∈ c.slots, q < n
  own : s ∉ c.slots
  solves : c.isInput = false → ∀ d < nfwd, (ts d).getD s 0 = c.tangent w (w.getD s 0) (ts d)

/-- A cell that is not an input steps in directions that solve its equation. -/
structure Stepping (n nfwd : Nat) (w : Array F) (ts : Nat → Array F) (lams : Array F)
    (dots : Nat → Array F) (s : Nat) (c : Cell F) : Prop extends SolvedAt n nfwd w ts s c where
  input : c.isInput = false
  lams : n ≤ lams.size
  dots : ∀ d < nfwd, n ≤ (dots d).size

namespace Stepping

variable {n nfwd : Nat} {w lams : Array F} {ts dots : Nat → Array F} {c : Cell F} {s p q d : Nat}

theorem lams_self
    (h : Stepping n nfwd w ts lams dots s c) :
    (c.adjointStep w s lams).getD s 0 = 0 := by
  have hs := h.slot
  have hroom := h.lams
  exact Cell.getD_adjointStep_self h.input (by omega) h.own

theorem dots_self
    (h : Stepping n nfwd w ts lams dots s c) (hd : d < nfwd) :
    (c.dotStep w s (lams.getD s 0) (ts d) (dots d)).getD s 0 = 0 := by
  have hs := h.slot
  have hroom := h.dots d hd
  exact Cell.getD_dotStep_self h.input (by omega) h.own _

/-- Slots that are not added to stay as they are. -/
theorem settledAt_of_not_target
    (hps : p ≠ s) (hp : p ∉ c.targets w) (hsettled : SettledAt nfwd ts lams dots p) :
    SettledAt nfwd ts (c.adjointStep w s lams)
      (fun d => c.dotStep w s (lams.getD s 0) (ts d) (dots d)) p :=
  hsettled.congr (Cell.getD_adjointStep_of_not_target hps hp)
    fun _ _ => Cell.getD_dotStep_of_not_target hps hp _

theorem lt_size_of_target
    (h : Stepping n nfwd w ts lams dots s c) (hq : q ∈ c.targets w) :
    q < (lams.setIfInBounds s 0).size ∧ ∀ d < nfwd, q < ((dots d).setIfInBounds s 0).size := by
  have hqn := h.slots q (Cell.mem_slots_of_mem_targets hq)
  have hroom := h.lams
  refine ⟨by rw [Array.size_setIfInBounds]; omega, fun d hd => ?_⟩
  have hroom := h.dots d hd
  rw [Array.size_setIfInBounds]
  omega

variable [Calculus.AbsorbingZero F]

/-- What is left after a step, in the own slot. -/
theorem settledAt_self
    (h : Stepping n nfwd w ts lams dots s c) :
    SettledAt nfwd ts (c.adjointStep w s lams)
      (fun d => c.dotStep w s (lams.getD s 0) (ts d) (dots d)) s := by
  refine .inl ⟨?_, fun d hd => ?_⟩
  · rw [h.lams_self]
    exact Calculus.AbsorbingZero.isZero_zero
  · rw [h.dots_self hd]
    exact Calculus.AbsorbingZero.isZero_zero

variable [Calculus.NeutralZero F]

/-- Where some direction has something to take, the others lose nothing by not being skipped. -/
theorem tangentStep_eq_dotStep
    (h : Stepping n nfwd w ts lams dots s c) (hphase : Phase nfwd ts lams dots)
    (hbusy : ¬ Emptied nfwd lams dots s) (hd : d < nfwd) :
    c.tangentStep w s (lams.getD s 0) (ts d) (dots d) =
      c.dotStep w s (lams.getD s 0) (ts d) (dots d) := by
  unfold Cell.dotStep
  split
  · next hskip =>
      obtain ⟨hinput, hlam, hdot⟩ := hskip
      rw [Cell.tangentStep, hinput, if_neg Bool.false_ne_true]
      refine Cell.backwardTangent_of_isZero hlam hdot fun q hq => ?_
      rcases hphase with ⟨s₀, hother, hnone⟩ | hsettled
      · refine absurd ⟨hlam, fun d hd => ?_⟩ hbusy
        rw [hnone d hd]
        exact Calculus.AbsorbingZero.isZero_zero
      · have htangent := (hsettled s).resolve_left hbusy d hd
          (Calculus.AbsorbingZero.absorbed_of_isZero _ hdot)
        rw [h.solves h.input d hd] at htangent
        exact Cell.absorbed_target_of_tangent htangent hq
  · rfl

/-- A busy step adds in every direction. -/
theorem dotStep_eq_of_busy
    (h : Stepping n nfwd w ts lams dots s c) (hphase : Phase nfwd ts lams dots)
    (hbusy : ¬ Emptied nfwd lams dots s) (hd : d < nfwd) :
    c.dotStep w s (lams.getD s 0) (ts d) (dots d) =
      c.backwardTangent w (w.getD s 0) (lams.getD s 0) (ts d) ((dots d).getD s 0)
        ((dots d).setIfInBounds s 0) := by
  rw [← h.tangentStep_eq_dotStep hphase hbusy hd, Cell.tangentStep, h.input,
    if_neg Bool.false_ne_true]

/-- A busy step of a cell that does arithmetic settles its targets. -/
theorem settledAt_of_arithmetic
    (h : Stepping n nfwd w ts lams dots s c) (hphase : Phase nfwd ts lams dots)
    (hbusy : ¬ Emptied nfwd lams dots s) (hpass : c.passes = false) (hq : q ∈ c.targets w) :
    SettledAt nfwd ts (c.adjointStep w s lams)
      (fun d => c.dotStep w s (lams.getD s 0) (ts d) (dots d)) q := by
  refine .inr fun d hd habsorbed => ?_
  dsimp only at habsorbed
  rw [h.dotStep_eq_of_busy hphase hbusy hd] at habsorbed
  exact Cell.absorbed_of_backwardTangent hpass hq ((h.lt_size_of_target hq).2 d hd) habsorbed

/-- A step that takes nothing leaves the phase as it is. -/
theorem phase_of_emptied
    (h : Stepping n nfwd w ts lams dots s c) (hphase : Phase nfwd ts lams dots)
    (hempty : Emptied nfwd lams dots s) :
    Phase nfwd ts (c.adjointStep w s lams)
      fun d => c.dotStep w s (lams.getD s 0) (ts d) (dots d) := by
  have hlams : ∀ p, p ≠ s → (c.adjointStep w s lams).getD p 0 = lams.getD p 0 := fun p hps => by
    rw [Cell.adjointStep, h.input, if_neg Bool.false_ne_true, Cell.backward_of_isZero hempty.1,
      getD_setIfInBounds_ne hps]
  have hdots : ∀ p, p ≠ s → ∀ d < nfwd,
      (c.dotStep w s (lams.getD s 0) (ts d) (dots d)).getD p 0 = (dots d).getD p 0 :=
    fun p hps d hd => by
      rw [Cell.dotStep, if_pos ⟨h.input, hempty.1, hempty.2 d hd⟩, getD_setIfInBounds_ne hps]
  rcases hphase with ⟨s₀, hother, hnone⟩ | hsettled
  · refine .inl ⟨s₀, fun p hp => ?_, fun d hd p => ?_⟩
    · by_cases hps : p = s
      · rw [hps, h.lams_self]
      · rw [hlams p hps, hother p hp]
    · by_cases hps : p = s
      · exact hps ▸ h.dots_self hd
      · exact (hdots p hps d hd).trans (hnone d hd p)
  · refine .inr fun p => ?_
    by_cases hps : p = s
    · exact hps ▸ h.settledAt_self
    · exact (hsettled p).congr (hlams p hps) (hdots p hps)

/-- The seed is handed on, or it is gone and every slot is settled. -/
theorem phase_of_seeded
    (h : Stepping n nfwd w ts lams dots s c) (hseeded : Seeded nfwd lams dots)
    (hbusy : ¬ Emptied nfwd lams dots s) :
    Phase nfwd ts (c.adjointStep w s lams)
      fun d => c.dotStep w s (lams.getD s 0) (ts d) (dots d) := by
  have hphase : Phase nfwd ts lams dots := .inl hseeded
  obtain ⟨s₀, hother, hnone⟩ := hseeded
  have hempty : ∀ p, p ≠ s₀ → Emptied nfwd lams dots p := fun p hp => by
    refine ⟨?_, fun d hd => ?_⟩
    · rw [hother p hp]
      exact Calculus.AbsorbingZero.isZero_zero
    · rw [hnone d hd]
      exact Calculus.AbsorbingZero.isZero_zero
  obtain rfl : s = s₀ := by
    by_contra hne
    exact hbusy (hempty s hne)
  by_cases hmoves : ∃ q ∈ c.targets w, c.passes = true
  · obtain ⟨q, hq, hpass⟩ := hmoves
    obtain ⟨htargets, hback, hbackTangent⟩ := Cell.passes_iff_of_target hpass hq
    obtain ⟨-, hrooms⟩ := h.lt_size_of_target hq
    have hqs : q ≠ s := fun heq => h.own (heq ▸ Cell.mem_slots_of_mem_targets hq)
    refine .inl ⟨q, fun p hp => ?_, fun d hd p => ?_⟩
    · by_cases hps : p = s
      · rw [hps, h.lams_self]
      · rw [Cell.getD_adjointStep_of_not_target hps (by simpa [htargets] using hp), hother p hps]
    · dsimp only
      by_cases hps : p = s
      · rw [hps, h.dots_self hd]
      · by_cases hpq : p = q
        · rw [hpq, h.dotStep_eq_of_busy hphase hbusy hd, hbackTangent,
            getD_modify_self (hrooms d hd), getD_setIfInBounds_ne hqs, hnone d hd, hnone d hd]
          exact Calculus.NeutralZero.add_zero 0
        · rw [Cell.getD_dotStep_of_not_target hps (by simpa [htargets] using hpq), hnone d hd]
  · refine .inr fun p => ?_
    by_cases hps : p = s
    · exact hps ▸ h.settledAt_self
    by_cases hp : p ∈ c.targets w
    · have hpass : c.passes = false := by simpa using fun hpass => hmoves ⟨p, hp, hpass⟩
      exact h.settledAt_of_arithmetic hphase hbusy hpass hp
    · exact settledAt_of_not_target hps hp (.inl (hempty p hps))

/-- Settled slots stay settled. -/
theorem settledAt_of_settled
    (h : Stepping n nfwd w ts lams dots s c) (hsettled : ∀ p, SettledAt nfwd ts lams dots p)
    (hbusy : ¬ Emptied nfwd lams dots s) (p : Nat) :
    SettledAt nfwd ts (c.adjointStep w s lams)
      (fun d => c.dotStep w s (lams.getD s 0) (ts d) (dots d)) p := by
  have hphase : Phase nfwd ts lams dots := .inr hsettled
  by_cases hps : p = s
  · exact hps ▸ h.settledAt_self
  by_cases hp : p ∈ c.targets w
  · cases hpass : c.passes with
    | false => exact h.settledAt_of_arithmetic hphase hbusy hpass hp
    | true =>
        -- what is handed on to `p` was settled in the own slot
        refine .inr fun d hd habsorbed => ?_
        dsimp only at habsorbed
        rw [h.dotStep_eq_of_busy hphase hbusy hd, (Cell.passes_iff_of_target hpass hp).2.2,
          getD_modify_self ((h.lt_size_of_target hp).2 d hd)] at habsorbed
        have htangent := (hsettled s).resolve_left hbusy d hd
          (Calculus.AbsorbingZero.absorbed_of_add _ _ habsorbed).2
        rw [h.solves h.input d hd] at htangent
        exact Cell.absorbed_target_of_tangent htangent hp
  · exact settledAt_of_not_target hps hp (hsettled p)

/-- A step leads from phase to phase. -/
theorem phase
    (h : Stepping n nfwd w ts lams dots s c) (hphase : Phase nfwd ts lams dots) :
    Phase nfwd ts (c.adjointStep w s lams)
      fun d => c.dotStep w s (lams.getD s 0) (ts d) (dots d) := by
  by_cases hempty : Emptied nfwd lams dots s
  · exact h.phase_of_emptied hphase hempty
  · rcases hphase with hseeded | hsettled
    · exact h.phase_of_seeded hseeded hempty
    · exact .inr (h.settledAt_of_settled hsettled hempty)

end Stepping

end SparseDiff
