import SparseDiff.Proofs.Exact
import SparseDiff.Proofs.Memory
import SparseDiff.Proofs.Trace
import SparseDiff.Sweep.Adjoint
import Mathlib.Algebra.BigOperators.Ring.Finset
import Mathlib.Tactic.Ring

/-!
# Partial derivatives of a cell

Over exact arithmetic a cell has a partial derivative at every slot. Its tangent is the sum
of the partials times the tangents of the slots (`Cell.tangent_eq_sum`), and a step of an
adjoint sweep adds the same partials times its adjoint to the slots (`Cell.getD_backward`).
One is the transpose of the other, so a step that takes the adjoint out of its slot keeps
the sum of adjoints times tangents (`Cell.sum_pull`).
-/

namespace SparseDiff

variable {F : Type}

@[simp] theorem modifySlot_id
    {α : Type} (acc : Array α) (a : Option Nat) :
    modifySlot acc a (fun x => x) = acc := by
  cases a with
  | none => rfl
  | some s => exact modify_id acc s

@[simp] theorem size_modifySlot
    {α : Type} (acc : Array α) (a : Option Nat) (g : α → α) :
    (modifySlot acc a g).size = acc.size := by
  cases a with
  | none => rfl
  | some s => exact Array.size_modify

@[simp] theorem Cell.size_backward
    [Zero F] [Add F] [Mul F] [Calculus F] (w : Array F) (r lam : F) (acc : Array F) (c : Cell F) :
    (c.backward w r lam acc).size = acc.size := by
  cases c with
  | select tol cond source =>
      simp only [backward]
      split <;> simp
  | _ => simp [backward]

variable [CommRing F]

/-- The reading of a slot is a sum over all slots. -/
theorem readSlot_eq_sum
    (w : Array F) {a : Option Nat} {n : Nat} (ha : ∀ s ∈ a.toList, s < n) :
    readSlot w a = ∑ p ∈ Finset.range n, (if a = some p then 1 else 0) * w.getD p 0 := by
  cases a with
  | none => simp [readSlot]
  | some s =>
      have hs : s < n := ha s (by simp)
      simp [readSlot, hs]

/-- Adding at a slot changes this slot only. -/
theorem getD_modifySlot_add
    (acc : Array F) {a : Option Nat} (ha : ∀ s ∈ a.toList, s < acc.size) (x : F) (p : Nat) :
    (modifySlot acc a (· + x)).getD p 0 = acc.getD p 0 + if a = some p then x else 0 := by
  cases a with
  | none => simp [modifySlot]
  | some s =>
      by_cases hsp : s = p
      · subst hsp
        rw [modifySlot, getD_modify_self (ha s (by simp)), if_pos rfl]
      · rw [modifySlot, getD_modify_ne (Ne.symm hsp), if_neg (by simpa using hsp), add_zero]

variable [Calculus F]

namespace Cell

/-- Partial derivative of a cell with value `r` at slot `p`. -/
def partialAt (w : Array F) (r : F) (p : Nat) : Cell F → F
  | input _ _ | constant _ => 0
  | unary op a => if a = some p then Calculus.unaryDerivative op (readSlot w a) r else 0
  | binary op a b =>
      let d := Calculus.binaryPartials op (readSlot w a) (readSlot w b) r
      (if a = some p then d.1 else 0) + if b = some p then d.2 else 0
  | select tol cond source =>
      if Calculus.selects (readSlot w cond) tol then if source = p then 1 else 0 else 0
  | copy source => if source = p then 1 else 0

/-- A cell has no partial derivative at a slot that it does not read. -/
theorem partialAt_eq_zero
    {c : Cell F} {p : Nat} (hp : p ∉ c.slots) (w : Array F) (r : F) :
    c.partialAt w r p = 0 := by
  cases c with
  | input i k => rfl
  | constant v => rfl
  | unary op a =>
      have ha : a ≠ some p := by simpa [slots] using hp
      simp [partialAt, ha]
  | binary op a b =>
      have hab : a ≠ some p ∧ b ≠ some p := by simpa [slots] using hp
      simp [partialAt, hab]
  | select tol cond source =>
      have hsource : source ≠ p := by
        rintro rfl
        exact hp (by simp [slots])
      simp [partialAt, hsource]
  | copy source =>
      have hsource : source ≠ p := by
        rintro rfl
        exact hp (by simp [slots])
      simp [partialAt, hsource]

/-- The partials depend on the values at the slots that the cell reads. -/
theorem partialAt_congr
    {c : Cell F} {w w' : Array F} (h : ∀ s ∈ c.slots, w.getD s 0 = w'.getD s 0) (r : F)
    (p : Nat) :
    c.partialAt w r p = c.partialAt w' r p := by
  have hread : ∀ a : Option Nat, (∀ s ∈ a.toList, w.getD s 0 = w'.getD s 0) →
      readSlot w a = readSlot w' a := by
    intro a ha
    cases a with
    | none => rfl
    | some s => exact ha s (by simp)
  cases c with
  | input i k => rfl
  | constant v => rfl
  | unary op a => simp only [partialAt, hread a h]
  | binary op a b =>
      simp only [partialAt, hread a fun s hs => h s (List.mem_append_left _ hs),
        hread b fun s hs => h s (List.mem_append_right _ hs)]
  | select tol cond source =>
      simp only [partialAt, hread cond fun s hs => h s (List.mem_append_left _ hs)]
  | copy source => rfl

variable [Calculus.Exact F]

theorem along_eq_mul
    (d : F) (t : Array F) (a : Option Nat) :
    along d t a = d * readSlot t a := by
  cases a with
  | none => simp [along, readSlot]
  | some s => simp [along, readSlot, seedMul_eq_mul]

/-- The tangent of a cell is linear in the tangents of the slots that it reads. -/
theorem tangent_eq_sum
    {c : Cell F} {n : Nat} (hslots : ∀ s ∈ c.slots, s < n) (w : Array F) (r : F) (t : Array F) :
    c.tangent w r t = ∑ p ∈ Finset.range n, c.partialAt w r p * t.getD p 0 := by
  have hslot : ∀ (d : F) (a : Option Nat), (∀ s ∈ a.toList, s < n) →
      along d t a = ∑ p ∈ Finset.range n, (if a = some p then d else 0) * t.getD p 0 := by
    intro d a ha
    rw [along_eq_mul, readSlot_eq_sum t ha, Finset.mul_sum]
    refine Finset.sum_congr rfl fun p _ => ?_
    split <;> ring
  cases c with
  | input i k => simp [tangent, partialAt]
  | constant v => simp [tangent, partialAt]
  | unary op a => exact hslot _ a hslots
  | binary op a b =>
      have ha := hslot (Calculus.binaryPartials op (readSlot w a) (readSlot w b) r).1 a
        fun s hs => hslots s (List.mem_append_left _ hs)
      have hb := hslot (Calculus.binaryPartials op (readSlot w a) (readSlot w b) r).2 b
        fun s hs => hslots s (List.mem_append_right _ hs)
      simp only [tangent, partialAt, add_mul, Finset.sum_add_distrib, ← ha, ← hb]
  | select tol cond source =>
      have hsource : source < n := hslots source (by simp [slots])
      simp only [tangent, partialAt]
      split <;> simp [hsource]
  | copy source =>
      have hsource : source < n := hslots source (by simp [slots])
      simp [tangent, partialAt, hsource]

/-- A step backward adds the adjoint times the partials. -/
theorem getD_backward
    {c : Cell F} {acc : Array F} (hslots : ∀ s ∈ c.slots, s < acc.size) (w : Array F) (r lam : F)
    (p : Nat) :
    (c.backward w r lam acc).getD p 0 = acc.getD p 0 + lam * c.partialAt w r p := by
  have hmodify : ∀ source, source < acc.size →
      (acc.modify source (· + lam)).getD p 0 =
        acc.getD p 0 + lam * if source = p then 1 else 0 := by
    intro source hsource
    have h := getD_modifySlot_add acc (a := some source) (by simpa using hsource) lam p
    simpa [modifySlot] using h
  cases c with
  | input i k => simp [backward, partialAt]
  | constant v => simp [backward, partialAt]
  | unary op a =>
      simp only [backward, partialAt, getD_modifySlot_add acc hslots, seedMul_eq_mul]
      split <;> ring
  | binary op a b =>
      have ha : ∀ s ∈ a.toList, s < acc.size := fun s hs => hslots s (List.mem_append_left _ hs)
      have hb : ∀ s ∈ b.toList, s < acc.size := fun s hs => hslots s (List.mem_append_right _ hs)
      simp only [backward, partialAt]
      rw [getD_modifySlot_add _ (by simpa using hb), getD_modifySlot_add acc ha, seedMul_eq_mul,
        seedMul_eq_mul]
      split <;> split <;> ring
  | select tol cond source =>
      simp only [backward, partialAt]
      split
      · exact hmodify source (hslots source (by simp [slots]))
      · simp
  | copy source => exact hmodify source (hslots source (by simp [slots]))

end Cell

namespace Cell

variable {F : Type} [CommRing F] [Calculus F]

/-- The adjoint of slot `s` moves to the slots that its cell reads; inputs keep theirs. -/
def pull (w : Array F) (lam : Nat → F) (s : Nat) (c : Cell F) : Nat → F :=
  if c.isInput then lam
  else fun p => (if p = s then 0 else lam p) + lam s * c.partialAt w (w.getD s 0) p

theorem pull_input
    {c : Cell F} (h : c.isInput = true) (w : Array F) (lam : Nat → F) (s : Nat) :
    c.pull w lam s = lam :=
  if_pos h

theorem pull_of_not_input
    {c : Cell F} (h : c.isInput = false) (w : Array F) (lam : Nat → F) (s p : Nat) :
    c.pull w lam s p =
      (if p = s then 0 else lam p) + lam s * c.partialAt w (w.getD s 0) p := by
  simp [pull, h]

/-- A slot that the cell neither writes nor reads keeps its adjoint. -/
theorem pull_eq_self
    {c : Cell F} {s p : Nat} (hs : p ≠ s) (hp : p ∉ c.slots) (w : Array F) (lam : Nat → F) :
    c.pull w lam s p = lam p := by
  cases hinput : c.isInput with
  | true => rw [pull_input hinput]
  | false => rw [pull_of_not_input hinput, partialAt_eq_zero hp, if_neg hs, mul_zero, add_zero]

/-- The adjoint of a cell that is not an input leaves its slot. -/
theorem pull_self
    {c : Cell F} (hinput : c.isInput = false) {s : Nat} (hs : s ∉ c.slots) (w : Array F)
    (lam : Nat → F) :
    c.pull w lam s s = 0 := by
  rw [pull_of_not_input hinput, partialAt_eq_zero hs, if_pos rfl, mul_zero, add_zero]

theorem pull_congr
    {c : Cell F} {w w' : Array F} {s : Nat} (hs : w.getD s 0 = w'.getD s 0)
    (h : ∀ r ∈ c.slots, w.getD r 0 = w'.getD r 0) (lam : Nat → F) :
    c.pull w lam s = c.pull w' lam s := by
  unfold pull
  split
  · rfl
  · funext p
    rw [partialAt_congr h, hs]

/--
Adjoints times numbers that a cell passes on with a source `b`: what leaves the slot arrives at
the slots that the cell reads, but for the share of the source.
-/
theorem sum_pull_add
    [Calculus.Exact F] {c : Cell F} {n s : Nat} (hs : s < n) (hslots : ∀ r ∈ c.slots, r < n)
    {w t : Array F} {b : F} (hb : c.isInput = true → b = 0)
    (ht : c.isInput = false → t.getD s 0 = c.tangent w (w.getD s 0) t + b) (lam : Nat → F) :
    ∑ p ∈ Finset.range n, c.pull w lam s p * t.getD p 0 + lam s * b =
      ∑ p ∈ Finset.range n, lam p * t.getD p 0 := by
  cases hinput : c.isInput with
  | true => rw [pull_input hinput, hb hinput, mul_zero, add_zero]
  | false =>
      have hkept : ∑ p ∈ Finset.range n, (if p = s then 0 else lam p) * t.getD p 0 =
          (∑ p ∈ Finset.range n, lam p * t.getD p 0) - lam s * t.getD s 0 := by
        have hone : lam s * t.getD s 0 =
            ∑ p ∈ Finset.range n, if p = s then lam p * t.getD p 0 else 0 := by
          simp [hs]
        rw [hone, ← Finset.sum_sub_distrib]
        refine Finset.sum_congr rfl fun p _ => ?_
        split <;> ring
      have hmoved : ∑ p ∈ Finset.range n, lam s * c.partialAt w (w.getD s 0) p * t.getD p 0 =
          lam s * (t.getD s 0 - b) := by
        rw [ht hinput, add_sub_cancel_right, tangent_eq_sum hslots, Finset.mul_sum]
        exact Finset.sum_congr rfl fun p _ => by ring
      simp only [pull_of_not_input hinput, add_mul, Finset.sum_add_distrib, hkept, hmoved]
      ring

/-- Adjoints times tangents: what leaves the slot arrives at the slots that the cell reads. -/
theorem sum_pull
    [Calculus.Exact F] {c : Cell F} {n s : Nat} (hs : s < n) (hslots : ∀ r ∈ c.slots, r < n)
    {w t : Array F}
    (ht : c.isInput = false → t.getD s 0 = c.tangent w (w.getD s 0) t) (lam : Nat → F) :
    ∑ p ∈ Finset.range n, c.pull w lam s p * t.getD p 0 =
      ∑ p ∈ Finset.range n, lam p * t.getD p 0 := by
  have hsum := sum_pull_add (t := t) (b := 0) hs hslots (fun _ => rfl)
    (fun hinput => (ht hinput).trans (add_zero _).symm) lam
  rwa [mul_zero, add_zero] at hsum

end Cell

section Sweep

variable {F : Type} [CommRing F] [Calculus F]

/-- Adjoints of all slots after a walk over cells and their slots. -/
def pullAll (w : Array F) : List (Nat × Cell F) → (Nat → F) → Nat → F
  | [], lam => lam
  | (s, c) :: visits, lam => pullAll w visits (c.pull w lam s)

/-- The walk comes to a cell after all cells that read its slot. -/
def ReadersFirst (visits : List (Nat × Cell F)) : Prop :=
  visits.Pairwise fun a b => a.1 ∉ b.2.slots ∧ a.1 ≠ b.1

theorem pullAll_eq_self
    {p : Nat} (w : Array F) :
    ∀ {visits : List (Nat × Cell F)}, (∀ v ∈ visits, p ∉ v.2.slots ∧ p ≠ v.1) →
      ∀ lam : Nat → F, pullAll w visits lam p = lam p
  | [], _, lam => rfl
  | (s, c) :: visits, h, lam => by
      obtain ⟨hp, hs⟩ := h (s, c) (List.mem_cons_self ..)
      rw [pullAll, pullAll_eq_self w fun v hv => h v (List.mem_cons_of_mem _ hv)]
      exact Cell.pull_eq_self hs hp w lam

/-- After the walk only inputs have an adjoint left. -/
theorem pullAll_eq_zero
    (w : Array F) :
    ∀ {visits : List (Nat × Cell F)}, ReadersFirst visits →
      (∀ v ∈ visits, v.1 ∉ v.2.slots) →
      ∀ {s : Nat} {c : Cell F}, (s, c) ∈ visits → c.isInput = false →
        ∀ lam : Nat → F, pullAll w visits lam s = 0
  | [], _, _, _, _, hmem, _, _ => by simp at hmem
  | v :: visits, hfirst, hself, s, c, hmem, hinput, lam => by
      obtain ⟨hhead, htail⟩ := List.pairwise_cons.1 hfirst
      rw [pullAll]
      rcases List.mem_cons.1 hmem with heq | hrest
      · cases heq
        rw [pullAll_eq_self w hhead]
        exact Cell.pull_self hinput (hself (s, c) (List.mem_cons_self ..)) w lam
      · exact pullAll_eq_zero w htail (fun v hv => hself v (List.mem_cons_of_mem _ hv)) hrest
          hinput _

/-- The whole walk keeps the sum of adjoints times tangents. -/
theorem sum_pullAll
    [Calculus.Exact F] {n : Nat} {w t : Array F} :
    ∀ {visits : List (Nat × Cell F)},
      (∀ v ∈ visits, v.1 < n ∧ (∀ r ∈ v.2.slots, r < n) ∧
        (v.2.isInput = false → t.getD v.1 0 = v.2.tangent w (w.getD v.1 0) t)) →
      ∀ lam : Nat → F,
        ∑ p ∈ Finset.range n, pullAll w visits lam p * t.getD p 0 =
          ∑ p ∈ Finset.range n, lam p * t.getD p 0
  | [], _, lam => rfl
  | (s, c) :: visits, h, lam => by
      obtain ⟨hs, hslots, ht⟩ := h (s, c) (List.mem_cons_self ..)
      rw [pullAll, sum_pullAll fun v hv => h v (List.mem_cons_of_mem _ hv)]
      exact Cell.sum_pull hs hslots ht lam

theorem pullAll_congr
    {w w' : Array F} :
    ∀ {visits : List (Nat × Cell F)},
      (∀ v ∈ visits, w.getD v.1 0 = w'.getD v.1 0 ∧
        ∀ r ∈ v.2.slots, w.getD r 0 = w'.getD r 0) →
      ∀ lam : Nat → F, pullAll w visits lam = pullAll w' visits lam
  | [], _, _ => rfl
  | (s, c) :: visits, h, lam => by
      obtain ⟨hs, hslots⟩ := h (s, c) (List.mem_cons_self ..)
      rw [pullAll, pullAll, Cell.pull_congr hs hslots,
        pullAll_congr fun v hv => h v (List.mem_cons_of_mem _ hv)]

end Sweep

end SparseDiff
