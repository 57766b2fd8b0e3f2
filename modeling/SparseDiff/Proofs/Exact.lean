import SparseDiff.Proofs.Lowering
import Mathlib

/-!
# Exact arithmetic

Some results hold over every number type, others only where a sum is a sum. The latter ask
for a commutative ring whose zero test finds nothing but zero and whose numbers are all
finite; of division, comparisons and elementary functions they ask nothing. The whole
numbers are such a type, and a small graph over them serves as an example.
-/

namespace SparseDiff

section Classes

variable (F : Type) [Zero F]

/-- Tables over numbers without exceptional values. -/
class Calculus.Exact [Calculus F] : Prop where
  eq_zero : ∀ x : F, Calculus.isZero x = true → x = 0
  isFinite : ∀ x : F, Calculus.isFinite x = true

/-- Comparisons over numbers without exceptional values. -/
class Elementary.Exact [Elementary F] : Prop where
  eq_zero : ∀ x : F, Elementary.eq x 0 = true → x = 0
  isFinite : ∀ x : F, Elementary.isFinite x = true

/-- Numbers that the zero test finds are finite, and adding them changes nothing. -/
class Calculus.NeutralZero [Add F] [Calculus F] : Prop where
  add_zero : ∀ x : F, x + 0 = x
  add_isZero : ∀ x z : F, Calculus.isZero z = true → x + z = x
  isFinite_of_isZero : ∀ z : F, Calculus.isZero z = true → Calculus.isFinite z = true

end Classes

instance {F : Type} [Zero F] [One F] [Add F] [Sub F] [Neg F] [Mul F] [Div F] [Elementary F]
    [Elementary.Exact F] : Calculus.Exact F where
  eq_zero := Elementary.Exact.eq_zero
  isFinite := Elementary.Exact.isFinite

instance {F : Type} [CommRing F] [Calculus F] [Calculus.Exact F] : Calculus.NeutralZero F where
  add_zero x := by simp
  add_isZero x z hz := by simp [Calculus.Exact.eq_zero z hz]
  isFinite_of_isZero z _ := Calculus.Exact.isFinite z

/-- A product with a zero seed is zero anyway. -/
theorem seedMul_eq_mul
    {F : Type} [MulZeroClass F] [Calculus F] [Calculus.Exact F] (d t : F) :
    seedMul d t = d * t := by
  unfold seedMul
  split
  · next hzero => rw [Calculus.Exact.eq_zero t hzero, mul_zero]
  · rfl

/-- Whole numbers; the elementary functions may be anything. -/
instance : Elementary Int where
  sqrt x := x.natAbs.sqrt
  exp _ := 1
  log _ := 0
  sin x := x
  cos _ := 1
  tan x := x
  asin x := x
  acos _ := 0
  atan x := x
  sinh x := x
  cosh _ := 1
  tanh x := x
  abs x := x.natAbs
  floor x := x
  ceil x := x
  round x := x
  pow x n := x ^ n.toNat
  atan2 _ _ := 0
  lt x y := decide (x < y)
  le x y := decide (x ≤ y)
  eq x y := decide (x = y)
  isNaN _ := false
  isFinite _ := true

/-- Literals are rounded down to whole numbers. -/
instance ofScientificInt : OfScientific Int where
  ofScientific mantissa negative exponent :=
    if negative then mantissa / 10 ^ exponent else mantissa * 10 ^ exponent

instance : Elementary.Exact Int where
  eq_zero x h := by simpa [Elementary.eq] using h
  isFinite _ := rfl

instance : ElementText Int where
  reading x := .finite (decide (x < 0)) ⟨x.natAbs, 0, false⟩
  wideReading x := .finite (decide (x < 0)) ⟨x.natAbs, 0, false⟩
  cType := "long"
  rustType := "i64"

namespace Graph

/-- The graph of `(x₀ * x₁) • x` for a column `x` of two entries. -/
def scaling : Graph Int :=
  ⟨#[⟨.symbolic "x", [], ⟨1, #[[0], [0]]⟩⟩,
    ⟨.gather .slice [(0, 0)], [0], ⟨1, #[[0]]⟩⟩,
    ⟨.gather .slice [(0, 1)], [0], ⟨1, #[[0]]⟩⟩,
    ⟨.binary .mul, [1, 2], ⟨1, #[[0]]⟩⟩,
    ⟨.scalarMatrix .mul, [3, 0], ⟨1, #[[0], [0]]⟩⟩]⟩

theorem bareLeaves_scaling :
    scaling.BareLeaves := by
  simp [BareLeaves, scaling, NodeKind.isSymbolic]

theorem wellFormed_scaling :
    ∀ n ∈ scaling.nodes, n.pattern.WellFormed := by
  intro n hn
  have hcases : n.pattern = ⟨1, #[[0], [0]]⟩ ∨ n.pattern = ⟨1, #[[0]]⟩ := by
    simp only [scaling, List.mem_toArray, List.mem_cons, List.not_mem_nil, or_false] at hn
    rcases hn with rfl | rfl | rfl | rfl | rfl <;> simp
  rcases hcases with h | h <;> rw [h] <;> exact ⟨by simp, by simp⟩

end Graph

/-- The product and the scaled column as outputs, then the column itself. -/
def Tape.scaling : Tape Int :=
  match Tape.compile Graph.scaling [0] [3, 4, 0] {} with
  | .ok f => f
  | .error _ => ⟨Graph.scaling, #[], [], [], [], ⟨#[], 0⟩, ⟨#[], 0⟩, {}⟩

theorem Tape.compile_scaling :
    Tape.compile Graph.scaling [0] [3, 4, 0] {} = .ok Tape.scaling := by
  cbv

end SparseDiff
