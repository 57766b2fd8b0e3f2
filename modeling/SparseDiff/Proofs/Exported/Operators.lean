import SparseDiff.Proofs.Exported.Statements

/-!
# Rendered operators

What the expression of an operation means in the language it is written in. The functions that
it calls are those of the language (`Library`), its operators, literals and conditionals are
those of the number type, and every comparison with a NaN is false.

An expression means what the operation computes, up to the sign of zero, but for two ways to lose
a NaN (`operators_meaning`). The sign of a NaN is written as zero in both languages. The minimum
and the maximum in C leave out a NaN, whereas the operations return their second operand once a
comparison fails; this differs where only the second operand is a NaN. In Rust both are written
as the comparison that the operation makes.
-/

namespace SparseDiff

variable {F : Type}

/--
Comparisons with a NaN are false, other numbers are ordered, and only the zeros are different
numbers that are equal.
-/
class Elementary.Comparisons (F : Type) [Zero F] [Elementary F] : Prop where
  lt_nan : ∀ x y : F, Elementary.isNaN x = true ∨ Elementary.isNaN y = true →
    Elementary.lt x y = false
  le_nan : ∀ x y : F, Elementary.isNaN x = true ∨ Elementary.isNaN y = true →
    Elementary.le x y = false
  eq_nan : ∀ x y : F, Elementary.isNaN x = true ∨ Elementary.isNaN y = true →
    Elementary.eq x y = false
  le_eq_not_lt : ∀ x y : F, Elementary.isNaN x = false → Elementary.isNaN y = false →
    Elementary.le x y = !Elementary.lt y x
  eq_or_zeros : ∀ x y : F, Elementary.isNaN x = false → Elementary.isNaN y = false →
    Elementary.lt x y = false → Elementary.lt y x = false →
    x = y ∨ Elementary.eq x 0 = true ∧ Elementary.eq y 0 = true

/-- The same number up to the sign of zero, or a NaN on both sides. -/
inductive SameNumber [Zero F] [Elementary F] : F → F → Prop
  | refl (x : F) : SameNumber x x
  | zeros {x y : F} (hx : Elementary.eq x 0 = true) (hy : Elementary.eq y 0 = true) :
      SameNumber x y
  | nans {x y : F} (hx : Elementary.isNaN x = true) (hy : Elementary.isNaN y = true) :
      SameNumber x y

/-- A NaN is no number, and no number is a NaN. -/
theorem SameNumber.isNaN_eq
    [Zero F] [Elementary F] [Elementary.Comparisons F] {x y : F} (h : SameNumber x y) :
    Elementary.isNaN x = Elementary.isNaN y := by
  have hzero : ∀ z : F, Elementary.eq z 0 = true → Elementary.isNaN z = false := by
    intro z hz
    by_contra hnan
    have hne := Elementary.Comparisons.eq_nan z 0 (.inl (eq_true_of_ne_false hnan))
    exact Bool.false_ne_true (hne.symm.trans hz)
  cases h with
  | refl => rfl
  | zeros hx hy => rw [hzero x hx, hzero y hy]
  | nans hx hy => rw [hx, hy]

section Extremum

variable [Zero F] [Elementary F]

/-- A minimum or maximum that leaves out a NaN; of equal numbers it may return either. -/
structure Extremum (f : F → F → F) (before : F → F → Bool) : Prop where
  left_nan : ∀ x y, Elementary.isNaN x = true → Elementary.isNaN y = false → f x y = y
  right_nan : ∀ x y, Elementary.isNaN x = false → Elementary.isNaN y = true → f x y = x
  both_nan : ∀ x y, Elementary.isNaN x = true → Elementary.isNaN y = true →
    Elementary.isNaN (f x y) = true
  first : ∀ x y, before x y = true → f x y = x
  second : ∀ x y, before y x = true → f x y = y
  either : ∀ x y, Elementary.isNaN x = false → Elementary.isNaN y = false → f x y = x ∨ f x y = y

/-- The strict and the lax form of one comparison. -/
structure Comparison (before notAfter : F → F → Bool) : Prop where
  nan : ∀ x y, Elementary.isNaN x = true ∨ Elementary.isNaN y = true → notAfter x y = false
  number : ∀ x y, Elementary.isNaN x = false → Elementary.isNaN y = false →
    notAfter x y = !before y x
  tie : ∀ x y, Elementary.isNaN x = false → Elementary.isNaN y = false →
    before x y = false → before y x = false →
    x = y ∨ Elementary.eq x 0 = true ∧ Elementary.eq y 0 = true

theorem comparison_lt_le
    [Elementary.Comparisons F] :
    Comparison (F := F) Elementary.lt Elementary.le :=
  ⟨Elementary.Comparisons.le_nan, Elementary.Comparisons.le_eq_not_lt,
    Elementary.Comparisons.eq_or_zeros⟩

/-- A comparison read from right to left. -/
theorem Comparison.swap
    {before notAfter : F → F → Bool} (h : Comparison before notAfter) :
    Comparison (fun x y => before y x) fun x y => notAfter y x :=
  ⟨fun x y hnan => h.nan y x hnan.symm, fun x y hx hy => h.number y x hy hx,
    fun x y hx hy hxy hyx => h.tie x y hx hy hyx hxy⟩

/-- A function that leaves out a NaN chooses as the comparison does, wherever that may lose none. -/
theorem Extremum.sameNumber
    {f : F → F → F} {before notAfter : F → F → Bool} (hf : Extremum f before)
    (hcompare : Comparison before notAfter) {x y : F}
    (h : ¬ (Elementary.isNaN x = false ∧ Elementary.isNaN y = true)) :
    SameNumber (f x y) (if notAfter x y then x else y) := by
  cases hx : Elementary.isNaN x with
  | true =>
      rw [hcompare.nan x y (.inl hx), if_neg Bool.false_ne_true]
      cases hy : Elementary.isNaN y with
      | true => exact .nans (hf.both_nan x y hx hy) hy
      | false =>
          rw [hf.left_nan x y hx hy]
          exact .refl y
  | false =>
      have hy : Elementary.isNaN y = false := eq_false_of_ne_true fun hy => h ⟨hx, hy⟩
      rw [hcompare.number x y hx hy]
      cases hafter : before y x with
      | true =>
          rw [hf.second x y hafter]
          exact .refl y
      | false =>
          cases hbefore : before x y with
          | true =>
              rw [hf.first x y hbefore]
              exact .refl x
          | false =>
              -- A tie may go to either operand, so that zeros of both signs can change places.
              rcases hf.either x y hx hy with heq | heq
              · rw [heq]
                exact .refl x
              · rw [heq]
                rcases hcompare.tie x y hx hy hbefore hafter with rfl | ⟨hx, hy⟩
                · exact .refl x
                · exact .zeros hy hx

end Extremum

/-- The functions that a language offers under the names of operations. -/
structure Library (F : Type) where
  unary : UnaryOp → F → F
  binary : BinaryOp → F → F → F

section Meaning

variable [Zero F] [One F] [Add F] [Sub F] [Neg F] [Mul F] [Div F] [Elementary F]

/-- Called functions compute the operation, but for the minimum and the maximum. -/
structure Library.Documented (lib : Library F) : Prop where
  unary_eq : ∀ op x, lib.unary op x = op.eval x
  binary_eq : ∀ op x y, op.isNonsmooth = false → lib.binary op x y = op.eval x y
  minimum : Extremum (lib.binary .min) Elementary.lt
  maximum : Extremum (lib.binary .max) fun x y => Elementary.lt y x

variable {α : Type}

/-- Outcome of a test, where `read` gives the numbers of the leaves. -/
def Condition.holds (read : α → F) : Condition α → Bool
  | positive a => Elementary.lt 0 (read a)
  | negative a => Elementary.lt (read a) 0
  | within a tol => Elementary.lt (Elementary.abs (read a)) (read tol)
  | atMost a b => Elementary.le (read a) (read b)
  | atLeast a b => Elementary.le (read b) (read a)

/-- What an expression means where calls go to the functions of a library. -/
def Expr.meaning (lib : Library F) (read : α → F) : Expr α → F
  | .leaf a => read a
  | .whole n => SparseDiff.whole n
  | negate a => -meaning lib read a
  | arith op a b => op.eval (meaning lib read a) (meaning lib read b)
  | call op a => lib.unary op (meaning lib read a)
  | call₂ op a b => lib.binary op (meaning lib read a) (meaning lib read b)
  | choose cond yes no => if cond.holds read then meaning lib read yes else meaning lib read no

/-- The operation of a NaN is one, but its expression means a number. -/
def UnaryOp.LosesNaN (op : UnaryOp) (x : F) : Prop := op = .sign ∧ Elementary.isNaN x = true

instance (op : UnaryOp) (x : F) : Decidable (op.LosesNaN x) :=
  inferInstanceAs (Decidable (_ ∧ _))

/-- Both languages write two tests, and zero where neither holds. -/
theorem UnaryOp.meaning_expr_sign
    (lib : Library F) (t : Target) (read : α → F) (a : α) :
    (UnaryOp.sign.expr t a).meaning lib read =
      if Elementary.lt 0 (read a) then 1 else if Elementary.lt (read a) 0 then -1 else 0 :=
  rfl

section Library

variable {lib : Library F} (hlib : lib.Documented) (t : Target) (read : α → F) (a b : α)

include hlib

/-- A unary operation means what it computes, unless it is the sign of a NaN. -/
theorem UnaryOp.meaning_expr
    (op : UnaryOp) (h : ¬ op.LosesNaN (read a)) :
    (op.expr t a).meaning lib read = op.eval (read a) := by
  cases op with
  | sign =>
      have hnumber : Elementary.isNaN (read a) = false := eq_false_of_ne_true fun hx => h ⟨rfl, hx⟩
      rw [meaning_expr_sign, eval, SparseDiff.sign, hnumber]
      rfl
  | neg | sq => rfl
  | recip =>
      cases t with
      | c => rfl
      | rust => exact hlib.unary_eq .recip (read a)
  | _ => exact hlib.unary_eq _ (read a)

/-- The second operand alone is a NaN, and a function of C leaves it out. -/
def BinaryOp.LosesNaN (op : BinaryOp) (t : Target) (x y : F) : Prop :=
  t = .c ∧ op.isNonsmooth = true ∧ Elementary.isNaN x = false ∧ Elementary.isNaN y = true

instance (op : BinaryOp) (t : Target) (x y : F) : Decidable (op.LosesNaN t x y) :=
  inferInstanceAs (Decidable (_ ∧ _))

/-- Rust compares as the operation does. -/
theorem BinaryOp.meaning_expr_rust
    (op : BinaryOp) :
    (op.expr .rust a b).meaning lib read = op.eval (read a) (read b) := by
  cases op with
  | pow => exact hlib.binary_eq .pow _ _ rfl
  | atan2 => exact hlib.binary_eq .atan2 _ _ rfl
  | _ => rfl

end Library

/-- A binary operation in C means what it computes, unless it loses a NaN. -/
theorem BinaryOp.meaning_expr_c
    [Elementary.Comparisons F] {lib : Library F} (hlib : lib.Documented) (read : α → F) (a b : α)
    (op : BinaryOp) (h : ¬ op.LosesNaN .c (read a) (read b)) :
    SameNumber ((op.expr .c a b).meaning lib read) (op.eval (read a) (read b)) := by
  have hsmooth : op.isNonsmooth = false → lib.binary op (read a) (read b) =
      op.eval (read a) (read b) := hlib.binary_eq op _ _
  cases op with
  | add | sub | mul | div => exact .refl _
  | pow | atan2 => exact hsmooth rfl ▸ .refl _
  | min => exact hlib.minimum.sameNumber comparison_lt_le fun hnan => h ⟨rfl, rfl, hnan⟩
  | max => exact hlib.maximum.sameNumber comparison_lt_le.swap fun hnan => h ⟨rfl, rfl, hnan⟩

section Losses

variable [Elementary.Comparisons F]

/-- Neither test of the sign holds of a NaN, which the operation returns. -/
theorem UnaryOp.meaning_of_losesNaN
    {op : UnaryOp} (lib : Library F) (t : Target) (read : α → F) (a : α)
    (h : op.LosesNaN (read a)) :
    (op.expr t a).meaning lib read = 0 ∧ op.eval (read a) = read a := by
  obtain ⟨rfl, hnan⟩ := h
  have hpositive : Elementary.lt 0 (read a) = false :=
    Elementary.Comparisons.lt_nan _ _ (.inr hnan)
  have hnegative : Elementary.lt (read a) 0 = false :=
    Elementary.Comparisons.lt_nan _ _ (.inl hnan)
  rw [meaning_expr_sign, eval, SparseDiff.sign, hpositive, hnegative, hnan]
  exact ⟨rfl, rfl⟩

/-- The function returns the first operand, and the operation the second. -/
theorem BinaryOp.meaning_of_losesNaN
    {op : BinaryOp} {lib : Library F} (hlib : lib.Documented) {t : Target} {read : α → F}
    {a b : α} (h : op.LosesNaN t (read a) (read b)) :
    (op.expr t a b).meaning lib read = read a ∧ op.eval (read a) (read b) = read b := by
  obtain ⟨rfl, hop, ha, hb⟩ := h
  cases op with
  | min =>
      refine ⟨hlib.minimum.right_nan _ _ ha hb, ?_⟩
      rw [eval, comparison_lt_le.nan _ _ (.inr hb), if_neg Bool.false_ne_true]
  | max =>
      refine ⟨hlib.maximum.right_nan _ _ ha hb, ?_⟩
      rw [eval, comparison_lt_le.nan _ _ (.inl hb), if_neg Bool.false_ne_true]
  | _ => cases hop

/--
The expression of an operation, with the functions of its language, means what the operation
computes: exactly for a unary operation and in Rust, up to the sign of zero in C, and with a NaN
for a NaN. Only two NaNs are lost: the sign of one is written as zero, and a minimum or maximum in
C returns its first operand where only the second is a NaN.
-/
theorem operators_meaning
    {lib : Library F} (hlib : lib.Documented) (t : Target) (read : α → F) (a b : α) :
    (∀ op : UnaryOp,
      (¬ op.LosesNaN (read a) → (op.expr t a).meaning lib read = op.eval (read a)) ∧
      (op.LosesNaN (read a) →
        (op.expr t a).meaning lib read = 0 ∧ op.eval (read a) = read a)) ∧
    (∀ op : BinaryOp,
      (¬ op.LosesNaN t (read a) (read b) →
        SameNumber ((op.expr t a b).meaning lib read) (op.eval (read a) (read b)) ∧
        Elementary.isNaN ((op.expr t a b).meaning lib read) =
          Elementary.isNaN (op.eval (read a) (read b))) ∧
      (t = .rust → (op.expr t a b).meaning lib read = op.eval (read a) (read b)) ∧
      (op.LosesNaN t (read a) (read b) →
        (op.expr t a b).meaning lib read = read a ∧ op.eval (read a) (read b) = read b)) := by
  constructor
  · intro op
    exact ⟨UnaryOp.meaning_expr hlib t read a op, UnaryOp.meaning_of_losesNaN lib t read a⟩
  · intro op
    refine ⟨?_, ?_, BinaryOp.meaning_of_losesNaN hlib⟩
    · intro hkept
      have hsame : SameNumber ((op.expr t a b).meaning lib read) (op.eval (read a) (read b)) := by
        cases t with
        | c => exact BinaryOp.meaning_expr_c hlib read a b op hkept
        | rust =>
            rw [BinaryOp.meaning_expr_rust hlib read a b op]
            exact .refl _
      exact ⟨hsame, hsame.isNaN_eq⟩
    · rintro rfl
      exact BinaryOp.meaning_expr_rust hlib read a b op

end Losses

end Meaning

/-- Whole numbers and one value that is none. -/
inductive WholeOrNaN where
  | nan
  | number (n : Int)
  deriving DecidableEq, Repr

namespace WholeOrNaN

/-- An operation whose result is a NaN wherever an operand is. -/
def lift (op : Int → Int → Int) : WholeOrNaN → WholeOrNaN → WholeOrNaN
  | number m, number n => number (op m n)
  | _, _ => nan

/-- A comparison that is false wherever an operand is a NaN. -/
def test (p : Int → Int → Bool) : WholeOrNaN → WholeOrNaN → Bool
  | number m, number n => p m n
  | _, _ => false

instance : Zero WholeOrNaN := ⟨number 0⟩

instance : One WholeOrNaN := ⟨number 1⟩

instance : Add WholeOrNaN := ⟨lift (· + ·)⟩

instance : Sub WholeOrNaN := ⟨lift (· - ·)⟩

instance : Neg WholeOrNaN := ⟨fun x => 0 - x⟩

instance : Mul WholeOrNaN := ⟨lift (· * ·)⟩

/-- A quotient that is no whole number is a NaN. -/
instance : Div WholeOrNaN :=
  ⟨fun x y => if test (fun m n => n ≠ 0 ∧ n ∣ m) x y then lift (· / ·) x y else nan⟩

/-- Functions without whole values give a NaN. -/
instance : Elementary WholeOrNaN where
  sqrt _ := nan
  exp _ := nan
  log _ := nan
  sin _ := nan
  cos _ := nan
  tan _ := nan
  asin _ := nan
  acos _ := nan
  atan _ := nan
  sinh _ := nan
  cosh _ := nan
  tanh _ := nan
  abs x := lift (fun n _ => n.natAbs) x x
  floor := id
  ceil := id
  round := id
  pow _ _ := nan
  atan2 _ _ := nan
  lt := test fun m n => m < n
  le := test fun m n => m ≤ n
  eq := test fun m n => m = n
  isNaN x := x = nan
  isFinite x := x ≠ nan

instance : Elementary.Comparisons WholeOrNaN where
  lt_nan x y h := by cases x <;> cases y <;> simp_all [Elementary.isNaN, Elementary.lt, test]
  le_nan x y h := by cases x <;> cases y <;> simp_all [Elementary.isNaN, Elementary.le, test]
  eq_nan x y h := by cases x <;> cases y <;> simp_all [Elementary.isNaN, Elementary.eq, test]
  le_eq_not_lt x y hx hy := by
    cases x <;> cases y <;>
      simp_all [Elementary.isNaN, Elementary.le, Elementary.lt, test, ← decide_not]
  eq_or_zeros x y hx hy hxy hyx := by
    cases x <;> cases y <;> simp_all [Elementary.isNaN, Elementary.lt, test]
    exact .inl (Int.le_antisymm hyx hxy)

/-- The functions of C: a minimum or maximum returns its first operand if the second is a NaN. -/
def library : Library WholeOrNaN where
  unary := UnaryOp.eval
  binary op x y := if op.isNonsmooth ∧ y = nan then x else op.eval x y

theorem library_documented :
    library.Documented where
  unary_eq _ _ := rfl
  binary_eq op x y h := by simp [library, h]
  minimum := by
    constructor <;> intro x y <;> cases x <;> cases y <;>
      simp_all [library, BinaryOp.isNonsmooth, BinaryOp.eval, Elementary.isNaN, Elementary.le,
        Elementary.lt, test] <;> omega
  maximum := by
    constructor <;> intro x y <;> cases x <;> cases y <;>
      simp_all [library, BinaryOp.isNonsmooth, BinaryOp.eval, Elementary.isNaN, Elementary.le,
        Elementary.lt, test] <;> omega

/-- A sign, and a minimum in C, of a NaN and a number in either order. -/
theorem operators_meaning_whole :
    (UnaryOp.sign.expr .rust (number 3)).meaning library id = 1 ∧
      (UnaryOp.abs.expr .c nan).meaning library id = UnaryOp.abs.eval nan ∧
      Elementary.isNaN ((BinaryOp.min.expr .c nan (number 3)).meaning library id) =
        Elementary.isNaN (number 3) ∧
      (UnaryOp.sign.expr .c nan).meaning library id = 0 ∧
      (BinaryOp.min.expr .c (number 3) nan).meaning library id = number 3 := by
  obtain ⟨hunary, -⟩ := operators_meaning library_documented .rust id (number 3) nan
  obtain ⟨hunary', hbinary⟩ := operators_meaning library_documented .c id nan (number 3)
  obtain ⟨-, hbinary'⟩ := operators_meaning library_documented .c id (number 3) nan
  refine ⟨(hunary .sign).1 ?_, (hunary' .abs).1 ?_, ((hbinary .min).1 ?_).2,
    ((hunary' .sign).2 ?_).1, ((hbinary' .min).2.2 ?_).1⟩
  · decide
  · decide
  · decide
  · exact ⟨rfl, rfl⟩
  · exact ⟨rfl, rfl, rfl, rfl⟩

/--
Operations return a NaN where their expressions mean a number: signs in both languages, minimum
and maximum in C.
-/
theorem operators_lose_nan :
    ∃ lib : Library WholeOrNaN, lib.Documented ∧
      (∀ t, UnaryOp.sign.eval nan = nan ∧ (UnaryOp.sign.expr t nan).meaning lib id = 0) ∧
      ∀ op ∈ [BinaryOp.min, BinaryOp.max], op.eval (number 1) nan = nan ∧
        (op.expr .c (number 1) nan).meaning lib id = number 1 := by
  refine ⟨library, library_documented, fun t => ⟨rfl, ?_⟩, ?_⟩
  · cases t <;> rfl
  · decide

end WholeOrNaN

end SparseDiff
