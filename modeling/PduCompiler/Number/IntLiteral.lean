import PduCompiler.Number.Word
import PduCompiler.Text.Blank

/-!
Integer literals as descriptions write them: an optional sign, then `0x`, `0X` or `#` and base 16,
or a leading zero and base 8, or base 10.
-/

namespace PduCompiler.IntLiteral

open Text

def digitValue (c : Char) : Nat :=
  if '0' ≤ c && c ≤ '9' then c.toNat - '0'.toNat
  else if 'a' ≤ c && c ≤ 'z' then c.toNat - 'a'.toNat + 10
  else if 'A' ≤ c && c ≤ 'Z' then c.toNat - 'A'.toNat + 10
  else 36

def valueOf (base : Nat) (digits : List Char) : Nat :=
  digits.foldl (fun n c => n * base + digitValue c) 0

/-- One or more digits of a base, denoting a number below `2 ^ 64`. -/
def unsigned? (base : Nat) (digits : List Char) : Option Nat :=
  if digits.isEmpty || digits.any (fun c => base ≤ digitValue c) then none
  else
    let n := valueOf base digits
    if n < Nat.pow 2 64 then some n else none

def magnitude? : List Char → Option Nat
  | '0' :: 'x' :: digits => unsigned? 16 digits
  | '0' :: 'X' :: digits => unsigned? 16 digits
  | '#' :: digits => unsigned? 16 digits
  | '0' :: c :: digits => unsigned? 8 (c :: digits)
  | digits => unsigned? 10 digits

def decodeChars? : List Char → Option Word
  | '-' :: rest => (magnitude? rest).map fun n => -BitVec.ofNat 64 n
  | '+' :: rest => (magnitude? rest).map (BitVec.ofNat 64)
  | rest => (magnitude? rest).map (BitVec.ofNat 64)

/-- The value of a literal modulo `2 ^ 64`, if the text between its blanks is one. -/
def decode? (s : String) : Option Word := decodeChars? (trimChars s.toList)

end PduCompiler.IntLiteral
