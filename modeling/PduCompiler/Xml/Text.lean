/-!
Character data of XML. References are replaced, line ends become line feeds, and only the characters
that XML allows may occur, references included.
-/

namespace PduCompiler.Xml

def isAllowed (c : Char) : Bool :=
  let n := c.toNat
  n == 0x09 || n == 0x0a || n == 0x0d || (0x20 ≤ n && n ≤ 0xd7ff) || (0xe000 ≤ n && n ≤ 0xfffd) ||
    0x10000 ≤ n

def replacement : Char := Char.ofNat 0xfffd

def charOfCode? (n : Nat) : Option Char :=
  if 0x10ffff < n then none
  else if 0xd800 ≤ n && n ≤ 0xdfff then some replacement
  else some (Char.ofNat n)

def hexValue? (c : Char) : Option Nat :=
  if '0' ≤ c && c ≤ '9' then some (c.toNat - '0'.toNat)
  else if 'a' ≤ c && c ≤ 'f' then some (c.toNat - 'a'.toNat + 10)
  else if 'A' ≤ c && c ≤ 'F' then some (c.toNat - 'A'.toNat + 10)
  else none

def number? (base : Nat) (digits : List Char) : Option Nat :=
  if digits.isEmpty then none
  else
    let next (n : Nat) (c : Char) : Option Nat :=
      (hexValue? c).bind fun d => if d < base then some (n * base + d) else none
    digits.foldlM next 0

def reference? : List Char → Option Char
  | '#' :: 'x' :: digits => (number? 16 digits).bind charOfCode?
  | '#' :: digits => (number? 10 digits).bind charOfCode?
  | name =>
    match String.ofList name with
    | "lt" => some '<'
    | "gt" => some '>'
    | "amp" => some '&'
    | "apos" => some '\''
    | "quot" => some '"'
    | _ => none

def normalizeLines : List Char → List Char
  | [] => []
  | '\r' :: '\n' :: rest => '\n' :: normalizeLines rest
  | '\r' :: rest => '\n' :: normalizeLines rest
  | c :: rest => c :: normalizeLines rest

/-- Replaces references. `pending` holds the characters of a reference begun, the last first. -/
def replaceReferences (pending : Option (List Char)) : List Char → Option (List Char)
  | [] => if pending.isNone then some [] else none
  | c :: rest =>
    match pending with
    | none =>
      if c = '&' then replaceReferences (some []) rest
      else (replaceReferences none rest).map (c :: ·)
    | some name =>
      if c = ';' then do
        let r ← reference? name.reverse
        return r :: (← replaceReferences none rest)
      else replaceReferences (some (c :: name)) rest

def decode? (raw : List Char) : Option String := do
  let text ← replaceReferences none (normalizeLines raw)
  if text.all isAllowed then some (String.ofList text) else none

def decodeSection? (raw : List Char) : Option String :=
  let text := normalizeLines raw
  if text.all isAllowed then some (String.ofList text) else none

end PduCompiler.Xml
