import SparseDiff.Decimal.Text

/-!
# Number types

The operation tables need more than ring operations: elementary functions,
comparisons and the tests for exceptional values. `Elementary` collects them
without any law, so that the tables read the same over machine numbers and over
exact arithmetic. `ElementText` says how a machine number is written, `ElementWidth`
how much room it takes.
-/

namespace SparseDiff

/-- Elementary functions and comparisons of a number type. No law is assumed. -/
class Elementary (F : Type) where
  sqrt : F → F
  exp : F → F
  log : F → F
  sin : F → F
  cos : F → F
  tan : F → F
  asin : F → F
  acos : F → F
  atan : F → F
  sinh : F → F
  cosh : F → F
  tanh : F → F
  abs : F → F
  floor : F → F
  ceil : F → F
  /-- Nearest whole number, a half going away from zero. -/
  round : F → F
  pow : F → F → F
  atan2 : F → F → F
  lt : F → F → Bool
  le : F → F → Bool
  eq : F → F → Bool
  isNaN : F → Bool
  isFinite : F → Bool

/-- The texts of a number type. -/
class ElementText (F : Type) where
  /-- The number in its own precision. -/
  reading : F → Decimal.Reading
  /-- The number widened to a double. -/
  wideReading : F → Decimal.Reading
  /-- Name of the type in exported C source. -/
  cType : String
  /-- Name of the type in exported Rust source. -/
  rustType : String

/-- The room that a number type takes in an array. -/
class ElementWidth (F : Type) where
  /-- Bytes of one number. -/
  bytes : Nat

/-- Shortest text that reads back, without an exponent. -/
def ElementText.display {F : Type} [ElementText F] (x : F) : String :=
  Decimal.Style.plain.text (ElementText.reading x)

instance : Elementary Float where
  sqrt := Float.sqrt
  exp := Float.exp
  log := Float.log
  sin := Float.sin
  cos := Float.cos
  tan := Float.tan
  asin := Float.asin
  acos := Float.acos
  atan := Float.atan
  sinh := Float.sinh
  cosh := Float.cosh
  tanh := Float.tanh
  abs := Float.abs
  floor := Float.floor
  ceil := Float.ceil
  round := Float.round
  pow := Float.pow
  atan2 := Float.atan2
  lt a b := a < b
  le a b := a ≤ b
  eq a b := a == b
  isNaN := Float.isNaN
  isFinite := Float.isFinite

instance : Elementary Float32 where
  sqrt := Float32.sqrt
  exp := Float32.exp
  log := Float32.log
  sin := Float32.sin
  cos := Float32.cos
  tan := Float32.tan
  asin := Float32.asin
  acos := Float32.acos
  atan := Float32.atan
  sinh := Float32.sinh
  cosh := Float32.cosh
  tanh := Float32.tanh
  abs := Float32.abs
  floor := Float32.floor
  ceil := Float32.ceil
  round := Float32.round
  pow := Float32.pow
  atan2 := Float32.atan2
  lt a b := a < b
  le a b := a ≤ b
  eq a b := a == b
  isNaN := Float32.isNaN
  isFinite := Float32.isFinite

instance : ElementText Float where
  reading := Decimal.readDouble
  wideReading := Decimal.readDouble
  cType := "double"
  rustType := "f64"

instance : ElementText Float32 where
  reading := Decimal.readSingle
  wideReading x := Decimal.readDouble x.toFloat
  cType := "float"
  rustType := "f32"

instance : ElementWidth Float := ⟨8⟩

instance : ElementWidth Float32 := ⟨4⟩

end SparseDiff
