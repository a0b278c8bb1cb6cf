import PduCompiler.Number.DecimalEstimate
import PduCompiler.Number.IntLiteral

/-!
Floating point literals: decimal with an optional exponent, hexadecimal with a binary exponent,
and the words `inf`, `infinity` and `nan`. An underscore may stand between digits and right after
`0x`.
-/

namespace PduCompiler.FloatLiteral

open IntLiteral

inductive Value where
  /-- The number `mantissa * 10 ^ exp`. The mantissa is written with so many digits from its first
  on that is not zero, and so many of them stand before the point. -/
  | decimal (negative : Bool) (mantissa digits whole : Nat) (exp : Int)
  | binary (negative : Bool) (mantissa : Nat) (exp : Int)
  | infinite (negative : Bool)
  | nan

structure Significand where
  digits : List Char := []
  fraction : Nat := 0
  point : Bool := false

def readSignificand (base : Nat) (s : Significand) : List Char → Significand × List Char
  | [] => (s, [])
  | c :: rest =>
    if c = '_' then readSignificand base s rest
    else if c = '.' then
      if s.point then (s, c :: rest) else readSignificand base { s with point := true } rest
    else if digitValue c < base then
      readSignificand base
        { s with digits := c :: s.digits, fraction := if s.point then s.fraction + 1 else 0 } rest
    else (s, c :: rest)

/-- Exponents stop growing here: every number is then out of range or zero. -/
def exponentLimit : Nat := 10000

/-- An unsigned exponent: digits and underscores, the first of them a digit, to the end. -/
def unsignedExponent? (text : List Char) : Option Nat :=
  if text.head?.any (·.isDigit) && text.all (fun c => c.isDigit || c = '_') then
    some ((text.filter (·.isDigit)).foldl
      (fun e c => if e < exponentLimit then e * 10 + digitValue c else e) 0)
  else none

def exponent? : List Char → Option Int
  | '+' :: rest => (unsignedExponent? rest).map Int.ofNat
  | '-' :: rest => (unsignedExponent? rest).map fun e => -Int.ofNat e
  | rest => (unsignedExponent? rest).map Int.ofNat

/-- Whether every underscore stands after a digit and before one. A base mark counts as a digit;
`after` says that the character before is one, and `pending` that it is an underscore. -/
def underscoresFit (base : Nat) (after pending : Bool) : List Char → Bool
  | [] => !pending
  | c :: rest =>
    if digitValue c < base then underscoresFit base true false rest
    else if c = '_' then after && underscoresFit base false true rest
    else !pending && underscoresFit base false false rest

def decimal? (negative : Bool) (text : List Char) : Option Value := do
  let (s, rest) := readSignificand 10 {} text
  guard (!s.digits.isEmpty && underscoresFit 10 false false text)
  let e ← match rest with
    | [] => some 0
    | c :: rest => if c = 'e' || c = 'E' then exponent? rest else none
  let digits := s.digits.reverse.dropWhile (· = '0')
  return .decimal negative (valueOf 10 digits) digits.length (digits.length - s.fraction)
    (e - s.fraction)

def hexadecimal? (negative : Bool) (text : List Char) : Option Value := do
  let (s, rest) := readSignificand 16 {} text
  guard (!s.digits.isEmpty && underscoresFit 16 true false text)
  let e ← match rest with
    | [] => none
    | c :: rest => if c = 'p' || c = 'P' then exponent? rest else none
  return .binary negative (valueOf 16 s.digits.reverse) (e - 4 * s.fraction)

def unsigned? (signed negative : Bool) (text : List Char) : Option Value :=
  let word := String.ofList (text.map Char.toLower)
  if word = "inf" || word = "infinity" then some (.infinite negative)
  else if word = "nan" && !signed then some .nan
  else match text with
    | '0' :: 'x' :: c :: rest => hexadecimal? negative (c :: rest)
    | '0' :: 'X' :: c :: rest => hexadecimal? negative (c :: rest)
    | _ => decimal? negative text

def parse? : List Char → Option Value
  | '+' :: rest => unsigned? true false rest
  | '-' :: rest => unsigned? true true rest
  | rest => unsigned? false false rest

def quietNaN : Nat := 0x7ff8000000000001

def wholeLimit : Nat := 800

def nearest? (negative : Bool) (num den : Nat) : Option Nat :=
  let bits := BinaryFormat.binary64.roundRatio num den
  if bits < BinaryFormat.binary64.infinity then
    some (bits + if negative then BinaryFormat.binary64.signBit else 0)
  else none

/-- The 64-bit number that a literal stands for, or nothing if a finite value is out of range. It is
the nearest one, except that of a number with more digits before the point than are kept, the digits
not kept do not count for the place of the point either, unless its first digits decide it. -/
def Value.toBinary64? : Value → Option Nat
  | .nan => some quietNaN
  | .infinite negative =>
    some (BinaryFormat.binary64.infinity + if negative then BinaryFormat.binary64.signBit else 0)
  | .decimal negative mantissa digits whole exp =>
    let lost :=
      if whole ≤ wholeLimit || DecimalEstimate.decides mantissa digits exp then 0
      else whole - wholeLimit
    let exp := exp - lost
    nearest? negative (mantissa * Nat.pow 10 exp.toNat) (Nat.pow 10 (-exp).toNat)
  | .binary negative mantissa exp =>
    nearest? negative (mantissa * Nat.pow 2 exp.toNat) (Nat.pow 2 (-exp).toNat)

end PduCompiler.FloatLiteral
