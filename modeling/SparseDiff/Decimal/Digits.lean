import SparseDiff.Decimal.Reading

/-!
# Decimal digits of a binary number

Two ways to choose decimal digits for `m * 2 ^ q`, both in exact integer
arithmetic:

* `shortest` takes the fewest digits that still read back as the same binary
  number, and of those the nearest;
* `rounded` takes a fixed number of digits, a half going to the even neighbour.
-/

namespace SparseDiff.Decimal

/-- The decimal number `digits * 10 ^ exponent`. -/
structure Digits where
  digits : Nat
  exponent : Int
  deriving DecidableEq, Repr

/-- Number of decimal digits of `n`, at least one. -/
def length10 (n : Nat) : Nat := (Nat.toDigits 10 n).length

/-- A positive fraction. -/
structure Ratio where
  num : Nat
  den : Nat
  deriving DecidableEq, Repr

namespace Ratio

/-- `base ^ e` as a fraction. -/
def power (base : Nat) (e : Int) : Ratio :=
  if 0 ≤ e then ⟨base.pow e.toNat, 1⟩ else ⟨1, base.pow (-e).toNat⟩

def div (a b : Ratio) : Ratio := ⟨a.num * b.den, a.den * b.num⟩

/-- The quotient by `10 ^ e`. -/
def inUnits (a : Ratio) (e : Int) : Ratio := a.div (power 10 e)

/-- The largest `e` with `10 ^ e ≤ a`. -/
def exponent10 (a : Ratio) : Int :=
  if a.den ≤ a.num then
    (length10 (a.num / a.den) : Int) - 1
  else
    let j := length10 (a.den / a.num)
    if a.den ≤ a.num * Nat.pow 10 (j - 1) then 1 - (j : Int) else -(j : Int)

def floor (a : Ratio) : Nat := a.num / a.den

/-- Nearest whole number, a half going to the even neighbour. -/
def roundEven (a : Ratio) : Nat :=
  let d := a.num / a.den
  let twice := 2 * (a.num % a.den)
  if a.den < twice ∨ (twice = a.den ∧ d % 2 = 1) then d + 1 else d

end Ratio

namespace Dyadic

def ratio (x : Dyadic) : Ratio :=
  let p := Ratio.power 2 x.exponent
  ⟨x.mantissa * p.num, p.den⟩

/-- Does `d * 10 ^ e` round to `x`? The ends of the interval belong to even mantissas. -/
def readsBack (x : Dyadic) (d : Nat) (e : Int) : Bool :=
  -- in quarters of the unit in the last place
  let low := 4 * x.mantissa - (if x.opensBinade then 1 else 2)
  let high := 4 * x.mantissa + 2
  let quarter := (Ratio.power 2 (x.exponent - 2)).div (Ratio.power 10 e)
  let here := d * quarter.den
  if x.mantissa % 2 = 0 then
    low * quarter.num ≤ here && here ≤ high * quarter.num
  else
    low * quarter.num < here && here < high * quarter.num

/--
The neighbour of `x` on the grid of multiples of `10 ^ e` that reads back as `x`:
of two such neighbours the nearer, and the upper one on a tie.
-/
def gridNeighbour? (x : Dyadic) (e : Int) : Option Digits :=
  let v := x.ratio.inUnits e
  let d := v.floor
  match x.readsBack d e, x.readsBack (d + 1) e with
  | true, true => if 2 * v.num < (2 * d + 1) * v.den then some ⟨d, e⟩ else some ⟨d + 1, e⟩
  | true, false => some ⟨d, e⟩
  | false, true => some ⟨d + 1, e⟩
  | false, false => none

/-- Move trailing zeros of the digits into the exponent. -/
def stripZeros (fuel : Nat) (x : Digits) : Digits :=
  match fuel with
  | 0 => x
  | fuel + 1 =>
      if x.digits ≠ 0 ∧ x.digits % 10 = 0 then
        stripZeros fuel ⟨x.digits / 10, x.exponent + 1⟩
      else
        x

/-- The fewest digits that read back as the positive number `x`. -/
def shortest (x : Dyadic) : Digits :=
  let top := x.ratio.exponent10
  let found := (List.range 17).findSome? fun (n : Nat) => x.gridNeighbour? (top - n)
  let chosen := found.getD ⟨(x.ratio.inUnits (top - 16)).roundEven, top - 16⟩
  stripZeros (length10 chosen.digits) chosen

/-- The positive number `x` rounded to one digit and `places` more. -/
def rounded (x : Dyadic) (places : Nat) : Digits :=
  let e := x.ratio.exponent10 - places
  let d := (x.ratio.inUnits e).roundEven
  if d = Nat.pow 10 (places + 1) then ⟨Nat.pow 10 places, e + 1⟩ else ⟨d, e⟩

end Dyadic

end SparseDiff.Decimal
