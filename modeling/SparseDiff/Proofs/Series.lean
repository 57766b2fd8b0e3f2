import SparseDiff.Proofs.Scalars
import SparseDiff.Proofs.SecondPartials

/-!
# Power series up to the second order

`Series F` is the ring of power series over `F` in one variable `t` with `t ^ 3 = 0`. Run on
`x + v t`, a rational operation computes the expansion of its result along `v`. The tables agree
with this (`Cell.expands`): the coefficient of `t` moves by the first partials and twice the
coefficient of `t ^ 2` by the first and the second ones. This uses the meaning of a quotient
only, not the tables.
-/

namespace SparseDiff

/-- A power series `c₀ + c₁ t + c₂ t ^ 2`, where `t ^ 3 = 0`. -/
@[ext]
structure Series (F : Type) where
  c₀ : F
  c₁ : F
  c₂ : F
  deriving DecidableEq

namespace Series

variable {F : Type} [CommRing F]

instance : Zero (Series F) := ⟨⟨0, 0, 0⟩⟩

instance : One (Series F) := ⟨⟨1, 0, 0⟩⟩

instance : Add (Series F) := ⟨fun x y => ⟨x.c₀ + y.c₀, x.c₁ + y.c₁, x.c₂ + y.c₂⟩⟩

instance : Neg (Series F) := ⟨fun x => ⟨-x.c₀, -x.c₁, -x.c₂⟩⟩

instance : Sub (Series F) := ⟨fun x y => ⟨x.c₀ - y.c₀, x.c₁ - y.c₁, x.c₂ - y.c₂⟩⟩

instance : Mul (Series F) :=
  ⟨fun x y => ⟨x.c₀ * y.c₀, x.c₀ * y.c₁ + x.c₁ * y.c₀,
    x.c₀ * y.c₂ + x.c₁ * y.c₁ + x.c₂ * y.c₀⟩⟩

section Coefficients

variable (x y : Series F)

@[simp] theorem zero_c₀ : (0 : Series F).c₀ = 0 := rfl
@[simp] theorem zero_c₁ : (0 : Series F).c₁ = 0 := rfl
@[simp] theorem zero_c₂ : (0 : Series F).c₂ = 0 := rfl
@[simp] theorem one_c₀ : (1 : Series F).c₀ = 1 := rfl
@[simp] theorem one_c₁ : (1 : Series F).c₁ = 0 := rfl
@[simp] theorem one_c₂ : (1 : Series F).c₂ = 0 := rfl
@[simp] theorem add_c₀ : (x + y).c₀ = x.c₀ + y.c₀ := rfl
@[simp] theorem add_c₁ : (x + y).c₁ = x.c₁ + y.c₁ := rfl
@[simp] theorem add_c₂ : (x + y).c₂ = x.c₂ + y.c₂ := rfl
@[simp] theorem neg_c₀ : (-x).c₀ = -x.c₀ := rfl
@[simp] theorem neg_c₁ : (-x).c₁ = -x.c₁ := rfl
@[simp] theorem neg_c₂ : (-x).c₂ = -x.c₂ := rfl
@[simp] theorem sub_c₀ : (x - y).c₀ = x.c₀ - y.c₀ := rfl
@[simp] theorem sub_c₁ : (x - y).c₁ = x.c₁ - y.c₁ := rfl
@[simp] theorem sub_c₂ : (x - y).c₂ = x.c₂ - y.c₂ := rfl
@[simp] theorem mul_c₀ : (x * y).c₀ = x.c₀ * y.c₀ := rfl
@[simp] theorem mul_c₁ : (x * y).c₁ = x.c₀ * y.c₁ + x.c₁ * y.c₀ := rfl
@[simp] theorem mul_c₂ : (x * y).c₂ = x.c₀ * y.c₂ + x.c₁ * y.c₁ + x.c₂ * y.c₀ := rfl

end Coefficients

instance : CommRing (Series F) where
  add_assoc x y z := by ext <;> simp [add_assoc]
  zero_add x := by ext <;> simp
  add_zero x := by ext <;> simp
  add_comm x y := by ext <;> simp [add_comm]
  mul_assoc x y z := by ext <;> simp <;> ring
  one_mul x := by ext <;> simp
  mul_one x := by ext <;> simp
  mul_comm x y := by ext <;> simp <;> ring
  left_distrib x y z := by ext <;> simp <;> ring
  right_distrib x y z := by ext <;> simp <;> ring
  zero_mul x := by ext <;> simp
  mul_zero x := by ext <;> simp
  neg_add_cancel x := by ext <;> simp
  sub_eq_add_neg x y := by ext <;> simp [sub_eq_add_neg]
  nsmul := nsmulRec
  zsmul := zsmulRec

/-- A constant series. -/
def C (a : F) : Series F := ⟨a, 0, 0⟩

/-- The variable. -/
def t : Series F := ⟨0, 1, 0⟩

theorem eq_C_add_C_mul_t
    (x : Series F) :
    x = C x.c₀ + C x.c₁ * t + C x.c₂ * t ^ 2 := by
  ext <;> simp [C, t, pow_succ]

/-- The line through `a` in direction `u`. -/
def line (a u : F) : Series F := C a + C u * t

theorem line_zero :
    line (0 : F) 0 = 0 := by
  ext <;> simp [line, C, t]

section Quotients

variable {F : Type} [Field F]

/-- A quotient, coefficient by coefficient. -/
instance : Div (Series F) :=
  ⟨fun x y =>
    let z₀ := x.c₀ / y.c₀
    let z₁ := (x.c₁ - y.c₁ * z₀) / y.c₀
    ⟨z₀, z₁, (x.c₂ - y.c₁ * z₁ - y.c₂ * z₀) / y.c₀⟩⟩

theorem mul_div_cancel
    (x : Series F) {y : Series F} (hy : y.c₀ ≠ 0) :
    y * (x / y) = x := by
  have hcancel : ∀ a : F, y.c₀ * (a / y.c₀) = a := fun a => mul_div_cancel₀ a hy
  ext
  · exact hcancel x.c₀
  · rw [mul_c₁]
    exact (congrArg (· + _) (hcancel _)).trans (sub_add_cancel ..)
  · rw [mul_c₂]
    refine (congrArg (· + _ + _) (hcancel _)).trans ?_
    rw [sub_sub]
    exact (add_assoc ..).trans (sub_add_cancel ..)

end Quotients

end Series

/-- A series starts with a number, its tangent and half of `q`. -/
structure Expands {F : Type} [CommRing F] (x : Series F) (y u q : F) : Prop where
  c₀ : x.c₀ = y
  c₁ : x.c₁ = u
  c₂ : 2 * x.c₂ = q

namespace Expands

section Ring

variable {F : Type} [CommRing F] {x x' : Series F} {y y' u u' q q' : F}

theorem moved
    {v r : F} (h : Expands x y u q) (hu : v = u) (hq : r = q) :
    Expands x y v r := by
  rw [hu, hq]
  exact h

theorem const
    (a : F) :
    Expands (Series.C a) a 0 0 :=
  ⟨rfl, rfl, mul_zero 2⟩

theorem one :
    Expands (1 : Series F) 1 0 0 :=
  const 1

theorem line
    (a u : F) :
    Expands (Series.line a u) a u 0 := by
  constructor <;> simp [Series.line, Series.C, Series.t]

theorem neg
    (h : Expands x y u q) :
    Expands (-x) (-y) (-u) (-q) := by
  constructor
  · rw [Series.neg_c₀, h.c₀]
  · rw [Series.neg_c₁, h.c₁]
  · rw [Series.neg_c₂, ← h.c₂]
    ring

theorem add
    (h : Expands x y u q) (h' : Expands x' y' u' q') :
    Expands (x + x') (y + y') (u + u') (q + q') := by
  constructor
  · rw [Series.add_c₀, h.c₀, h'.c₀]
  · rw [Series.add_c₁, h.c₁, h'.c₁]
  · rw [Series.add_c₂, ← h.c₂, ← h'.c₂]
    ring

theorem sub
    (h : Expands x y u q) (h' : Expands x' y' u' q') :
    Expands (x - x') (y - y') (u - u') (q - q') := by
  rw [sub_eq_add_neg x, sub_eq_add_neg y, sub_eq_add_neg u, sub_eq_add_neg q]
  exact h.add h'.neg

theorem mul
    (h : Expands x y u q) (h' : Expands x' y' u' q') :
    Expands (x * x') (y * y') (y' * u + y * u') (y' * q + y * q' + 2 * u * u') := by
  constructor
  · rw [Series.mul_c₀, h.c₀, h'.c₀]
  · rw [Series.mul_c₁, h.c₀, h.c₁, h'.c₀, h'.c₁]
    ring
  · rw [Series.mul_c₂, ← h.c₂, ← h'.c₂, h.c₀, h.c₁, h'.c₀, h'.c₁]
    ring

end Ring

/-- A quotient, from the product of the divisor with it. -/
theorem div
    {F : Type} [Field F] {x x' : Series F} {y y' u u' q q' : F} (h : Expands x y u q)
    (h' : Expands x' y' u' q') (hne : y' ≠ 0) :
    Expands (x / x') (y / y') (1 / y' * (u - y / y' * u'))
      (1 / y' * (q - y / y' * q' - 2 * u' * (1 / y' * (u - y / y' * u')))) := by
  have hprod := Series.mul_div_cancel x (show x'.c₀ ≠ 0 by rw [h'.c₀]; exact hne)
  generalize x / x' = z at hprod
  have h₀ : y' * z.c₀ = y := by
    rw [← h.c₀, ← h'.c₀, ← hprod, Series.mul_c₀]
  have h₁ : y' * z.c₁ + u' * z.c₀ = u := by
    rw [← h.c₁, ← h'.c₀, ← h'.c₁, ← hprod, Series.mul_c₁]
  have h₂ : y' * (2 * z.c₂) + 2 * u' * z.c₁ + q' * z.c₀ = q := by
    rw [← h.c₂, ← h'.c₀, ← h'.c₁, ← h'.c₂, ← hprod, Series.mul_c₂]
    ring
  have hz₀ : z.c₀ = y / y' := by
    rw [eq_div_iff hne, ← h₀, mul_comm]
  have hz₁ : z.c₁ = 1 / y' * (u - y / y' * u') := by
    rw [← hz₀, ← h₁]
    field_simp
    ring
  refine ⟨hz₀, hz₁, ?_⟩
  rw [← hz₁, ← hz₀, ← h₂]
  field_simp
  ring

end Expands

/-- The rational operations among the unary ones. -/
def UnaryOp.isRational : UnaryOp → Bool
  | neg | recip | sq => true
  | _ => false

/-- The rational operations among the binary ones. -/
def BinaryOp.isRational (op : BinaryOp) : Bool := op.arith?.isSome

namespace Expands

section Tables

variable {F : Type} [Field F] [Elementary F] [Elementary (Series F)] {x x' : Series F}
  {y y' u u' q q' : F}

/-- The tables of a rational operation expand its result. -/
theorem unary
    {op : UnaryOp} (hop : op.isRational = true) (hregular : op = .recip → y ≠ 0)
    (h : Expands x y u q) :
    Expands (op.eval x) (op.eval y) (op.derivative y (op.eval y) * u)
      (op.derivative y (op.eval y) * q + op.secondDerivative y (op.eval y) * u * u) := by
  cases op with
  | neg =>
      refine h.neg.moved ?_ ?_
      · simp only [UnaryOp.derivative]
        ring
      · simp only [UnaryOp.derivative, UnaryOp.secondDerivative]
        ring
  | recip =>
      refine (one.div h (hregular rfl)).moved ?_ ?_
      · simp only [UnaryOp.derivative, UnaryOp.eval]
        ring
      · simp only [UnaryOp.derivative, UnaryOp.secondDerivative, UnaryOp.eval]
        ring
  | sq =>
      refine (h.mul h).moved ?_ ?_
      · simp only [UnaryOp.derivative]
        ring
      · simp only [UnaryOp.derivative, UnaryOp.secondDerivative]
        ring
  | _ => exact absurd hop Bool.false_ne_true

theorem binary
    {op : BinaryOp} (hop : op.isRational = true) (hregular : op = .div → y' ≠ 0)
    (h : Expands x y u q) (h' : Expands x' y' u' q') :
    let r := op.eval y y'
    let d := op.partials y y' r
    let s := op.secondPartials y y' r
    Expands (op.eval x x') r (d.1 * u + d.2 * u')
      (d.1 * q + d.2 * q' +
        ((s.1 * u + s.2.1 * u') * u + (s.2.1 * u + s.2.2 * u') * u')) := by
  cases op with
  | add =>
      refine (h.add h').moved ?_ ?_
      · simp only [BinaryOp.partials]
        ring
      · simp only [BinaryOp.partials, BinaryOp.secondPartials]
        ring
  | sub =>
      refine (h.sub h').moved ?_ ?_
      · simp only [BinaryOp.partials]
        ring
      · simp only [BinaryOp.partials, BinaryOp.secondPartials]
        ring
  | mul =>
      refine (h.mul h').moved rfl ?_
      simp only [BinaryOp.partials, BinaryOp.secondPartials]
      ring
  | div =>
      refine (h.div h' (hregular rfl)).moved ?_ ?_
      · simp only [BinaryOp.partials, BinaryOp.eval]
        ring
      · simp only [BinaryOp.partials, BinaryOp.secondPartials, BinaryOp.eval]
        ring
  | _ => exact absurd hop Bool.false_ne_true

end Tables

end Expands

/-- Inputs, constants, copies and rational operations. -/
def Cell.isRational {F : Type} : Cell F → Bool
  | .input _ _ | .constant _ | .copy _ => true
  | .unary op _ => op.isRational
  | .binary op _ _ => op.isRational
  | .select _ _ _ => false

/-- The cell divides by a number other than zero, if it divides. -/
def Cell.Regular {F : Type} [Zero F] (w : Array F) : Cell F → Prop
  | .unary op a => op = .recip → readSlot w a ≠ 0
  | .binary op _ b => op = .div → readSlot w b ≠ 0
  | _ => True

theorem expands_readSlot
    {F : Type} [CommRing F] {W : Array (Series F)} {w t q : Array F} {a : Option Nat}
    (h : ∀ s ∈ a.toList, Expands (W.getD s 0) (w.getD s 0) (t.getD s 0) (q.getD s 0)) :
    Expands (readSlot W a) (readSlot w a) (readSlot t a) (readSlot q a) := by
  cases a with
  | none => exact Expands.const 0
  | some s => exact h s (by simp)

section Cells

variable {F : Type} [Field F] [Elementary F] [Elementary.Exact F] [Elementary (Series F)]
  {W : Array (Series F)} {w t q : Array F} {c : Cell F}

/--
On a line, a rational cell expands: twice its second coefficient is passed on by the partials,
with the second derivative of the cell as a source.
-/
theorem Cell.expands
    (hrational : c.isRational = true) (hregular : c.Regular w)
    (h : ∀ s ∈ c.slots, Expands (W.getD s 0) (w.getD s 0) (t.getD s 0) (q.getD s 0))
    (x u : Nat → Nat → F) :
    Expands ((c.map Series.C).eval (fun i k => Series.line (x i k) (u i k)) W) (c.eval x w)
      (c.evalTangent u w (c.eval x w) t)
      (c.evalTangent (fun _ _ => 0) w (c.eval x w) q + c.quad w (c.eval x w) t t) := by
  cases c with
  | input i k => exact (Expands.line (x i k) (u i k)).moved rfl (add_zero 0)
  | constant v => exact (Expands.const v).moved rfl (add_zero 0)
  | unary op a =>
      have hunary := (expands_readSlot h).unary hrational hregular
      simp only [Cell.map, eval, value, evalTangent, tangent, quad, along_eq_mul]
      exact hunary
  | binary op a b =>
      have ha := expands_readSlot fun s hs => h s (List.mem_append_left _ hs)
      have hb := expands_readSlot fun s hs => h s (List.mem_append_right _ hs)
      have hbinary := ha.binary hrational hregular hb
      simp only [Cell.map, eval, value, evalTangent, tangent, quad, along_eq_mul]
      exact hbinary
  | select tol cond source => exact absurd hrational Bool.false_ne_true
  | copy source => exact (h source (by simp [slots])).moved rfl (add_zero _)

end Cells

end SparseDiff
