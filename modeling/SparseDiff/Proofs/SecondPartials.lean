import SparseDiff.Proofs.Adjoint
import SparseDiff.Sweep.SecondOrder

/-!
# Second partial derivatives of a cell

Along a tangent the partials of a cell change (`Cell.secondAt`), and against a second tangent
this change is a symmetric form of the two (`Cell.quad`). A step of a second-order sweep does
to the adjoint tangents what a step of an adjoint sweep does to the adjoints, and adds the
adjoint times the change of the partials (`Cell.pullTangent`). Over a whole walk the adjoint
tangents are linear in the tangent, and against another one they gain the sum of all forms,
the curvature (`sum_pullTangentAll`).
-/

namespace SparseDiff

variable {F : Type} [CommRing F] [Calculus F]

namespace Cell

/-- Change of the partial derivative at slot `p` of a cell with value `r` along tangents `t`. -/
def secondAt (w : Array F) (r : F) (t : Array F) (p : Nat) : Cell F → F
  | unary op a =>
      if a = some p then Calculus.unarySecond op (readSlot w a) r * readSlot t a else 0
  | binary op a b =>
      let h := Calculus.binarySecond op (readSlot w a) (readSlot w b) r
      (if a = some p then h.1 * readSlot t a + h.2.1 * readSlot t b else 0) +
        if b = some p then h.2.1 * readSlot t a + h.2.2 * readSlot t b else 0
  | _ => 0

/-- Second derivative of a cell with value `r` along tangents `t` and `t'`. -/
def quad (w : Array F) (r : F) (t t' : Array F) : Cell F → F
  | unary op a => Calculus.unarySecond op (readSlot w a) r * readSlot t a * readSlot t' a
  | binary op a b =>
      let h := Calculus.binarySecond op (readSlot w a) (readSlot w b) r
      (h.1 * readSlot t a + h.2.1 * readSlot t b) * readSlot t' a +
        (h.2.1 * readSlot t a + h.2.2 * readSlot t b) * readSlot t' b
  | _ => 0

theorem quad_input
    {c : Cell F} (h : c.isInput = true) (w : Array F) (r : F) (t t' : Array F) :
    c.quad w r t t' = 0 := by
  cases c with
  | input i k => rfl
  | _ => simp [isInput] at h

/-- The partial derivative at a slot that the cell does not read stays zero. -/
theorem secondAt_eq_zero
    {c : Cell F} {p : Nat} (hp : p ∉ c.slots) (w : Array F) (r : F) (t : Array F) :
    c.secondAt w r t p = 0 := by
  cases c with
  | unary op a =>
      have ha : a ≠ some p := by simpa [slots] using hp
      simp [secondAt, ha]
  | binary op a b =>
      have hab : a ≠ some p ∧ b ≠ some p := by simpa [slots] using hp
      simp [secondAt, hab]
  | _ => rfl

/-- What a cell reads decides how its partials change. -/
theorem secondAt_congr
    {c : Cell F} {w w' t t' : Array F} (hw : ∀ s ∈ c.slots, w.getD s 0 = w'.getD s 0)
    (ht : ∀ s ∈ c.slots, t.getD s 0 = t'.getD s 0) (r : F) (p : Nat) :
    c.secondAt w r t p = c.secondAt w' r t' p := by
  have hread : ∀ (v v' : Array F) (a : Option Nat), (∀ s ∈ a.toList, v.getD s 0 = v'.getD s 0) →
      readSlot v a = readSlot v' a := by
    intro v v' a ha
    cases a with
    | none => rfl
    | some s => exact ha s (by simp)
  cases c with
  | unary op a => simp only [secondAt, hread w w' a hw, hread t t' a ht]
  | binary op a b =>
      have ha : ∀ {v v' : Array F}, (∀ s ∈ a.toList ++ b.toList, v.getD s 0 = v'.getD s 0) →
          readSlot v a = readSlot v' a := fun h =>
        hread _ _ a fun s hs => h s (List.mem_append_left _ hs)
      have hb : ∀ {v v' : Array F}, (∀ s ∈ a.toList ++ b.toList, v.getD s 0 = v'.getD s 0) →
          readSlot v b = readSlot v' b := fun h =>
        hread _ _ b fun s hs => h s (List.mem_append_right _ hs)
      simp only [secondAt, ha hw, ha ht, hb hw, hb ht]
  | _ => rfl

/-- The change of the partials is linear in the tangents. -/
theorem secondAt_eq_sum
    {ι : Type} {S : Finset ι} {a : ι → F} {ts : ι → Array F} {c : Cell F} {t : Array F}
    (ht : ∀ s ∈ c.slots, t.getD s 0 = ∑ k ∈ S, a k * (ts k).getD s 0) (w : Array F) (r : F)
    (p : Nat) :
    c.secondAt w r t p = ∑ k ∈ S, a k * c.secondAt w r (ts k) p := by
  have hread : ∀ b : Option Nat, (∀ s ∈ b.toList, s ∈ c.slots) →
      readSlot t b = ∑ k ∈ S, a k * readSlot (ts k) b := by
    intro b hb
    cases b with
    | none => simp [readSlot]
    | some s => exact ht s (hb s (by simp))
  cases c with
  | unary op b =>
      simp only [secondAt]
      split
      · rw [hread b fun s hs => hs, Finset.mul_sum]
        exact Finset.sum_congr rfl fun k _ => by ring
      · simp
  | binary op b b' =>
      have hb := hread b fun s hs => List.mem_append_left _ hs
      have hb' := hread b' fun s hs => List.mem_append_right _ hs
      have hhalf : ∀ (read : Prop) [Decidable read] (x y : F),
          (if read then x * readSlot t b + y * readSlot t b' else 0) =
            ∑ k ∈ S,
              a k * (if read then x * readSlot (ts k) b + y * readSlot (ts k) b' else 0) := by
        intro read _ x y
        split
        · rw [hb, hb', Finset.mul_sum, Finset.mul_sum, ← Finset.sum_add_distrib]
          exact Finset.sum_congr rfl fun k _ => by ring
        · simp
      simp only [secondAt, mul_add (a _), Finset.sum_add_distrib]
      exact congrArg₂ (· + ·) (hhalf _ _ _) (hhalf _ _ _)
  | _ => simp [secondAt]

/-- Against a second tangent, the change of the partials is the second derivative. -/
theorem sum_secondAt
    {c : Cell F} {n : Nat} (hslots : ∀ s ∈ c.slots, s < n) (w : Array F) (r : F)
    (t t' : Array F) :
    ∑ p ∈ Finset.range n, c.secondAt w r t p * t'.getD p 0 = c.quad w r t t' := by
  have hread : ∀ (x : F) (a : Option Nat), (∀ s ∈ a.toList, s < n) →
      ∑ p ∈ Finset.range n, (if a = some p then x else 0) * t'.getD p 0 = x * readSlot t' a := by
    intro x a ha
    rw [readSlot_eq_sum t' ha, Finset.mul_sum]
    refine Finset.sum_congr rfl fun p _ => ?_
    split <;> ring
  cases c with
  | unary op a => exact hread _ a hslots
  | binary op a b =>
      simp only [secondAt, quad, add_mul, Finset.sum_add_distrib,
        hread _ a fun s hs => hslots s (List.mem_append_left _ hs),
        hread _ b fun s hs => hslots s (List.mem_append_right _ hs)]
  | _ => simp [secondAt, quad]

end Cell

namespace Cell

/-- The adjoint tangent of slot `s` moves as an adjoint does, and the adjoint adds its share. -/
def pullTangent (w t : Array F) (lam dlam : Nat → F) (s : Nat) (c : Cell F) (p : Nat) : F :=
  c.pull w dlam s p + lam s * c.secondAt w (w.getD s 0) t p

/-- A slot that the cell neither writes nor reads keeps its adjoint tangent. -/
theorem pullTangent_eq_self
    {c : Cell F} {s p : Nat} (hs : p ≠ s) (hp : p ∉ c.slots) (w t : Array F)
    (lam dlam : Nat → F) :
    c.pullTangent w t lam dlam s p = dlam p := by
  rw [pullTangent, pull_eq_self hs hp, secondAt_eq_zero hp, mul_zero, add_zero]

/-- The adjoint tangent of a cell that is not an input leaves its slot. -/
theorem pullTangent_self
    {c : Cell F} (hinput : c.isInput = false) {s : Nat} (hs : s ∉ c.slots) (w t : Array F)
    (lam dlam : Nat → F) :
    c.pullTangent w t lam dlam s s = 0 := by
  rw [pullTangent, pull_self hinput hs, secondAt_eq_zero hs, mul_zero, add_zero]

/-- A step is linear in adjoints. -/
theorem pull_eq_sum
    {ι : Type} {S : Finset ι} {a : ι → F} {lams : ι → Nat → F} (w : Array F) (s : Nat)
    (c : Cell F) :
    c.pull w (fun p => ∑ k ∈ S, a k * lams k p) s =
      fun p => ∑ k ∈ S, a k * c.pull w (lams k) s p := by
  cases hinput : c.isInput with
  | true => simp only [pull_input hinput]
  | false =>
      funext p
      simp only [pull_of_not_input hinput, mul_add, Finset.sum_add_distrib, Finset.sum_mul,
        mul_assoc]
      congr 1
      split <;> simp

end Cell

/-- Adjoint tangents of all slots after a walk over cells and their slots. -/
def pullTangentAll (w t : Array F) : List (Nat × Cell F) → (Nat → F) → (Nat → F) → Nat → F
  | [], _, dlam => dlam
  | (s, c) :: visits, lam, dlam =>
      pullTangentAll w t visits (c.pull w lam s) (c.pullTangent w t lam dlam s)

/-- Sum of the second derivatives of all cells, each times the adjoint that the walk finds. -/
def curvature (w t t' : Array F) : List (Nat × Cell F) → (Nat → F) → F
  | [], _ => 0
  | (s, c) :: visits, lam =>
      lam s * c.quad w (w.getD s 0) t t' + curvature w t t' visits (c.pull w lam s)

theorem pullTangentAll_eq_self
    {p : Nat} (w t : Array F) :
    ∀ {visits : List (Nat × Cell F)}, (∀ v ∈ visits, p ∉ v.2.slots ∧ p ≠ v.1) →
      ∀ lam dlam : Nat → F, pullTangentAll w t visits lam dlam p = dlam p
  | [], _, _, _ => rfl
  | (s, c) :: visits, h, lam, dlam => by
      obtain ⟨hp, hs⟩ := h (s, c) (List.mem_cons_self ..)
      rw [pullTangentAll, pullTangentAll_eq_self w t fun v hv => h v (List.mem_cons_of_mem _ hv)]
      exact Cell.pullTangent_eq_self hs hp w t lam dlam

/-- After the walk only inputs have an adjoint tangent left. -/
theorem pullTangentAll_eq_zero
    (w t : Array F) :
    ∀ {visits : List (Nat × Cell F)}, ReadersFirst visits →
      (∀ v ∈ visits, v.1 ∉ v.2.slots) →
      ∀ {s : Nat} {c : Cell F}, (s, c) ∈ visits → c.isInput = false →
        ∀ lam dlam : Nat → F, pullTangentAll w t visits lam dlam s = 0
  | [], _, _, _, _, hmem, _, _, _ => by simp at hmem
  | v :: visits, hfirst, hself, s, c, hmem, hinput, lam, dlam => by
      obtain ⟨hhead, htail⟩ := List.pairwise_cons.1 hfirst
      rw [pullTangentAll]
      rcases List.mem_cons.1 hmem with heq | hrest
      · cases heq
        rw [pullTangentAll_eq_self w t hhead]
        exact Cell.pullTangent_self hinput (hself (s, c) (List.mem_cons_self ..)) w t lam dlam
      · exact pullTangentAll_eq_zero w t htail (fun v hv => hself v (List.mem_cons_of_mem _ hv))
          hrest hinput _ _

theorem pullTangentAll_congr
    {w w' t t' : Array F} :
    ∀ {visits : List (Nat × Cell F)},
      (∀ v ∈ visits, w.getD v.1 0 = w'.getD v.1 0 ∧
        ∀ r ∈ v.2.slots, w.getD r 0 = w'.getD r 0 ∧ t.getD r 0 = t'.getD r 0) →
      ∀ lam dlam : Nat → F,
        pullTangentAll w t visits lam dlam = pullTangentAll w' t' visits lam dlam
  | [], _, _, _ => rfl
  | (s, c) :: visits, h, lam, dlam => by
      obtain ⟨hs, hslots⟩ := h (s, c) (List.mem_cons_self ..)
      have hw : ∀ r ∈ c.slots, w.getD r 0 = w'.getD r 0 := fun r hr => (hslots r hr).1
      have hstep : c.pullTangent w t lam dlam s = c.pullTangent w' t' lam dlam s := by
        funext p
        rw [Cell.pullTangent, Cell.pullTangent, Cell.pull_congr hs hw, hs,
          Cell.secondAt_congr hw fun r hr => (hslots r hr).2]
      rw [pullTangentAll, pullTangentAll, Cell.pull_congr hs hw, hstep,
        pullTangentAll_congr fun v hv => h v (List.mem_cons_of_mem _ hv)]

/-- The whole walk is linear in the tangents. -/
theorem pullTangentAll_eq_sum
    {ι : Type} {S : Finset ι} {a : ι → F} {ts : ι → Array F} {w t : Array F} :
    ∀ {visits : List (Nat × Cell F)},
      (∀ v ∈ visits, ∀ s ∈ v.2.slots, t.getD s 0 = ∑ k ∈ S, a k * (ts k).getD s 0) →
      ∀ (lam : Nat → F) (dlams : ι → Nat → F) (p : Nat),
        pullTangentAll w t visits lam (fun p => ∑ k ∈ S, a k * dlams k p) p =
          ∑ k ∈ S, a k * pullTangentAll w (ts k) visits lam (dlams k) p
  | [], _, _, _, _ => rfl
  | (s, c) :: visits, h, lam, dlams, p => by
      have hstep : c.pullTangent w t lam (fun p => ∑ k ∈ S, a k * dlams k p) s =
          fun p => ∑ k ∈ S, a k * c.pullTangent w (ts k) lam (dlams k) s p := by
        funext p
        simp only [Cell.pullTangent, Cell.pull_eq_sum,
          Cell.secondAt_eq_sum (h (s, c) (List.mem_cons_self ..)), mul_add,
          Finset.sum_add_distrib, Finset.mul_sum]
        congr 1
        exact Finset.sum_congr rfl fun k _ => by ring
      rw [pullTangentAll, hstep]
      exact pullTangentAll_eq_sum (fun v hv => h v (List.mem_cons_of_mem _ hv)) _ _ p

/-- The whole walk adds the curvature to the sum of adjoint tangents times tangents. -/
theorem sum_pullTangentAll
    [Calculus.Exact F] {n : Nat} {w t t' : Array F} :
    ∀ {visits : List (Nat × Cell F)},
      (∀ v ∈ visits, v.1 < n ∧ (∀ r ∈ v.2.slots, r < n) ∧
        (v.2.isInput = false → t'.getD v.1 0 = v.2.tangent w (w.getD v.1 0) t')) →
      ∀ lam dlam : Nat → F,
        ∑ p ∈ Finset.range n, pullTangentAll w t visits lam dlam p * t'.getD p 0 =
          ∑ p ∈ Finset.range n, dlam p * t'.getD p 0 + curvature w t t' visits lam
  | [], _, lam, dlam => by simp [pullTangentAll, curvature]
  | (s, c) :: visits, h, lam, dlam => by
      obtain ⟨hs, hslots, ht⟩ := h (s, c) (List.mem_cons_self ..)
      have hstep : ∑ p ∈ Finset.range n, c.pullTangent w t lam dlam s p * t'.getD p 0 =
          ∑ p ∈ Finset.range n, dlam p * t'.getD p 0 + lam s * c.quad w (w.getD s 0) t t' := by
        simp only [Cell.pullTangent, add_mul, Finset.sum_add_distrib, mul_assoc]
        rw [Cell.sum_pull hs hslots ht, ← Finset.mul_sum, Cell.sum_secondAt hslots]
      rw [pullTangentAll, curvature,
        sum_pullTangentAll fun v hv => h v (List.mem_cons_of_mem _ hv), hstep, add_assoc]

/-- Numbers that every cell passes on with its second derivative: the walk loses the curvature. -/
theorem sum_pullAll_add_curvature
    [Calculus.Exact F] {n : Nat} {w t q : Array F} :
    ∀ {visits : List (Nat × Cell F)},
      (∀ v ∈ visits, v.1 < n ∧ (∀ r ∈ v.2.slots, r < n) ∧
        (v.2.isInput = false → q.getD v.1 0 =
          v.2.tangent w (w.getD v.1 0) q + v.2.quad w (w.getD v.1 0) t t)) →
      ∀ lam : Nat → F,
        ∑ p ∈ Finset.range n, pullAll w visits lam p * q.getD p 0 + curvature w t t visits lam =
          ∑ p ∈ Finset.range n, lam p * q.getD p 0
  | [], _, lam => by simp [pullAll, curvature]
  | (s, c) :: visits, h, lam => by
      obtain ⟨hs, hslots, hq⟩ := h (s, c) (List.mem_cons_self ..)
      have hstep := Cell.sum_pull_add hs hslots
        (fun hinput => Cell.quad_input hinput w (w.getD s 0) t t) hq lam
      have hrest := sum_pullAll_add_curvature (fun v hv => h v (List.mem_cons_of_mem _ hv))
        (c.pull w lam s)
      rw [pullAll, curvature, ← hstep, ← hrest]
      ring

end SparseDiff
