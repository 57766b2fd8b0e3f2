import SparseDiff.Decimal.Digits

/-!
# Number texts

Printers for the readings of binary numbers. `Style` collects the decisions of
the positional texts; `scientific` prints a fixed number of places.
-/

namespace SparseDiff.Decimal

/-- `n` zeros. -/
def zeros (n : Nat) : String := "".pushn '0' n

/-- `digits * 10 ^ exponent` without an exponent, at least one digit before the point. -/
def positional (x : Digits) : String :=
  let text := toString x.digits
  if 0 ≤ x.exponent then
    text ++ zeros x.exponent.toNat
  else
    let places := (-x.exponent).toNat
    let padded := zeros (places + 1 - text.length) ++ text
    let whole := padded.length - places
    String.ofList (padded.toList.take whole) ++ "." ++ String.ofList (padded.toList.drop whole)

/-- `d.ddde±x` with every digit written and no padding of the exponent. -/
def withExponent (x : Digits) : String :=
  match (toString x.digits).toList with
  | [] => ""
  | [d] => s!"{d}e{x.exponent}"
  | d :: rest =>
      let point := x.exponent + rest.length
      String.singleton d ++ "." ++ String.ofList rest ++ s!"e{point}"

/-- How the shortest digits of a number are laid out. -/
structure Style where
  /-- Whole numbers keep a final `.0`. -/
  keepPoint : Bool
  /-- Decimal exponents outside this half-open range are written with an exponent. -/
  positionalRange : Option (Int × Int)

/-- Never an exponent, and no point in whole numbers. -/
def Style.plain : Style := ⟨false, none⟩

/-- A point in whole numbers, and an exponent below `1e-4` and from `1e16` on. -/
def Style.literal : Style := ⟨true, some (-4, 16)⟩

namespace Style

def isPositional (s : Style) (exponent10 : Int) : Bool :=
  match s.positionalRange with
  | none => true
  | some (low, high) => low ≤ exponent10 && exponent10 < high

/-- Text of a finite magnitude. -/
def magnitude (s : Style) (x : Dyadic) : String :=
  if x.mantissa = 0 then
    if s.keepPoint then "0.0" else "0"
  else
    let d := x.shortest
    if s.isPositional (d.exponent + length10 d.digits - 1) then
      positional d ++ (if s.keepPoint && 0 ≤ d.exponent then ".0" else "")
    else
      withExponent d

/-- Text of a reading; the sign of zero is kept. -/
def text (s : Style) : Reading → String
  | .nan => "NaN"
  | .infinite negative => if negative then "-inf" else "inf"
  | .finite negative x => (if negative then "-" else "") ++ s.magnitude x

end Style

/-- One digit before the point and `places` after it, then the exponent; zeros are bare. -/
def scientific (places : Nat) : Reading → String
  | .nan => "nan"
  | .infinite negative => if negative then "-inf" else "inf"
  | .finite negative x =>
      let sign := if negative then "-" else ""
      if x.mantissa = 0 then sign ++ "0" else sign ++ withExponent (x.rounded places)

end SparseDiff.Decimal
