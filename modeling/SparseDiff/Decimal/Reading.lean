/-!
# Readings of binary floating-point words

A binary word with a sign bit, exponent bits and fraction bits stands for a NaN,
an infinity or an exact number `± m * 2 ^ q`. This module decodes the word; the
decimal digits of the number are chosen in `SparseDiff.Decimal.Digits`.
-/

namespace SparseDiff.Decimal

/-- The magnitude `mantissa * 2 ^ exponent` of a finite binary number. -/
structure Dyadic where
  mantissa : Nat
  exponent : Int
  /-- The number opens its binade, so the gap below it is half the gap above. -/
  opensBinade : Bool
  deriving DecidableEq, Repr

/-- What a binary word stands for. -/
inductive Reading where
  | nan
  | infinite (negative : Bool)
  | finite (negative : Bool) (magnitude : Dyadic)
  deriving DecidableEq, Repr

/-- Field widths of a binary interchange format. -/
structure BinaryFormat where
  fractionBits : Nat
  exponentBits : Nat
  deriving DecidableEq, Repr

/-- The 64-bit format: 52 fraction bits and 11 exponent bits. -/
def BinaryFormat.double : BinaryFormat := ⟨52, 11⟩

/-- The 32-bit format: 23 fraction bits and 8 exponent bits. -/
def BinaryFormat.single : BinaryFormat := ⟨23, 8⟩

namespace BinaryFormat

/-- Number of fractions. -/
def fractions (f : BinaryFormat) : Nat := Nat.pow 2 f.fractionBits

/-- Number of exponent fields; the last one is for infinities and NaNs. -/
def fields (f : BinaryFormat) : Nat := Nat.pow 2 f.exponentBits

/-- Exponent of the unit in the last place of a subnormal number. -/
def minExponent (f : BinaryFormat) : Int :=
  2 - (f.fields / 2 : Nat) - f.fractionBits

/-- Decode a word: subnormals have no hidden bit, the top exponent holds the specials. -/
def reading (f : BinaryFormat) (bits : Nat) : Reading :=
  let fraction := bits % f.fractions
  let field := bits / f.fractions % f.fields
  let negative := bits / (f.fractions * f.fields) % 2 == 1
  if field = f.fields - 1 then
    if fraction = 0 then .infinite negative else .nan
  else if field = 0 then
    .finite negative ⟨fraction, f.minExponent, false⟩
  else
    .finite negative
      ⟨f.fractions + fraction, f.minExponent + (field - 1 : Nat), fraction = 0 && 1 < field⟩

end BinaryFormat

/-- The reading of a double. -/
def readDouble (x : Float) : Reading :=
  BinaryFormat.double.reading x.toBits.toNat

/-- The reading of a single. -/
def readSingle (x : Float32) : Reading :=
  BinaryFormat.single.reading x.toBits.toNat

end SparseDiff.Decimal
