import PduCompiler.Number.Word

/-!
Binary floating point by its bits. A positive ratio of naturals is rounded to the nearest number of
a format, ties to the even one, so reading a literal and narrowing a number are both exact.
-/

namespace PduCompiler

/-- A binary interchange format: how many bits the fraction and the exponent have. -/
structure BinaryFormat where
  fractionBits : Nat
  exponentBits : Nat

namespace BinaryFormat

def binary32 : BinaryFormat := ⟨23, 8⟩

def binary64 : BinaryFormat := ⟨52, 11⟩

variable (f : BinaryFormat)

def bias : Nat := Nat.pow 2 (f.exponentBits - 1) - 1

def infinity : Nat := (Nat.pow 2 f.exponentBits - 1) * Nat.pow 2 f.fractionBits

def signBit : Nat := Nat.pow 2 (f.exponentBits + f.fractionBits)

/-- The quotient rounded to the nearest natural, a half to the even one. -/
def roundDiv (num den : Nat) : Nat :=
  let q := num / den
  let r := num % den
  if 2 * r < den then q else if den < 2 * r then q + 1 else q + q % 2

/-- The exponent of the power of two just below or at `num / den`, for positive arguments. -/
def floorLog2 (num den : Nat) : Int :=
  let k : Int := (num.log2 : Int) - den.log2
  let atLeast :=
    if 0 ≤ k then den * Nat.pow 2 k.toNat ≤ num else den ≤ num * Nat.pow 2 (-k).toNat
  if atLeast then k else k - 1

/-- The bits of the positive number nearest to `num / den`; infinity if that is out of range. -/
def roundRatio (num den : Nat) : Nat :=
  if num = 0 then 0
  else
    let e := max (floorLog2 num den) (1 - (f.bias : Int))
    let unit := e - f.fractionBits
    let q := if 0 ≤ unit then roundDiv num (den * Nat.pow 2 unit.toNat)
      else roundDiv (num * Nat.pow 2 (-unit).toNat) den
    min f.infinity ((e + f.bias - 1).toNat * Nat.pow 2 f.fractionBits + q)

def ratio (bits : Nat) : Nat × Nat :=
  let fraction := bits % Nat.pow 2 f.fractionBits
  let exponent := bits / Nat.pow 2 f.fractionBits
  let significand := if exponent = 0 then fraction else fraction + Nat.pow 2 f.fractionBits
  let unit : Int := (max exponent 1 : Nat) - (f.bias : Int) - f.fractionBits
  if 0 ≤ unit then (significand * Nat.pow 2 unit.toNat, 1)
  else (significand, Nat.pow 2 (-unit).toNat)

def isNaN (bits : Nat) : Bool := f.infinity < bits % f.signBit

/-- The number of format `g` nearest to one of format `f`, both by their bits. Of a NaN the high
fraction bits stay and it becomes quiet. -/
def convert (g : BinaryFormat) (bits : Nat) : Nat :=
  let sign := if f.signBit ≤ bits then g.signBit else 0
  let magnitude := bits % f.signBit
  if f.infinity < magnitude then
    let fraction := magnitude % Nat.pow 2 f.fractionBits
    let moved := fraction * Nat.pow 2 g.fractionBits / Nat.pow 2 f.fractionBits
    sign + g.infinity + (moved ||| Nat.pow 2 (g.fractionBits - 1))
  else if magnitude = f.infinity then sign + g.infinity
  else
    let (num, den) := f.ratio magnitude
    sign + g.roundRatio num den

end BinaryFormat

end PduCompiler
