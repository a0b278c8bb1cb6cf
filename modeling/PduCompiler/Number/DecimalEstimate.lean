import PduCompiler.Number.Binary

/-!
An estimate of a decimal number from its first nineteen digits and 128 bits of a power of ten.
Either it is the nearest 64-bit number, or these bits do not decide which one is nearest.
-/

namespace PduCompiler.DecimalEstimate

def powerBits (e : Int) : Nat :=
  let n := Nat.pow 10 e.natAbs
  if e < 0 then Nat.pow 2 (n.log2 + 128) / n
  else if n.log2 ≤ 127 then n * Nat.pow 2 (127 - n.log2)
  else n / Nat.pow 2 (n.log2 - 127)

def isInRange (e : Int) : Bool := -348 ≤ e && e ≤ 347

def halves (n : Nat) : Nat × Nat := (n / Nat.pow 2 64, n % Nat.pow 2 64)

/-- The product of a number of 64 bits and a power of ten, as far as it is certain: the lower half
of the power is only used if it may change the 55 bits that count. -/
def product? (m : Nat) (e : Int) : Option Nat :=
  let (upper, lower) := halves (powerBits e)
  let x := m * upper
  let (high, low) := halves x
  if high % 512 = 511 && Nat.pow 2 64 ≤ low + m then
    let (yHigh, yLow) := halves (m * lower)
    let sum := x + yHigh
    let (high, low) := halves sum
    if high % 512 = 511 && low + 1 = Nat.pow 2 64 && Nat.pow 2 64 ≤ yLow + m then none else some sum
  else some x

/-- The bits of the number nearest to `m * 10 ^ e`, for a positive `m` of at most 64 bits. There is
no estimate for what may lie half-way between two numbers, and none outside of the normal
numbers. -/
def bits? (m : Nat) (e : Int) : Option Nat := do
  guard (isInRange e)
  let shift := 63 - m.log2
  let (high, low) := halves (← product? (m * Nat.pow 2 shift) e)
  let carry := high / Nat.pow 2 63
  let significand := high / Nat.pow 2 (carry + 9)
  guard !(low = 0 && high % 512 = 0 && significand % 4 = 1)
  let rounded := (significand + significand % 2) / 2
  let exponent : Int := 217706 * e / 65536 + 64 + BinaryFormat.binary64.bias - shift - (1 - carry)
  let exponent := if Nat.pow 2 53 ≤ rounded then exponent + 1 else exponent
  let rounded := if Nat.pow 2 53 ≤ rounded then rounded / 2 else rounded
  guard (1 ≤ exponent && exponent < 2047)
  return exponent.toNat * Nat.pow 2 52 + rounded % Nat.pow 2 52

/-- Whether the first nineteen of so many digits decide which 64-bit number is nearest to
`m * 10 ^ e`: the estimate is the same for the next number of nineteen digits, unless the others are
zero. -/
def decides (m digits : Nat) (e : Int) : Bool :=
  let unit := Nat.pow 10 (digits - 19)
  let first := m / unit
  let e := e + (digits - 19 : Nat)
  match bits? first e with
  | none => false
  | some bits => m % unit = 0 || bits? (first + 1) e = some bits

end PduCompiler.DecimalEstimate
