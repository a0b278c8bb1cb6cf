import PduCompiler.Toml.Scalar

/-!
Strings of TOML: basic ones with escapes and literal ones without, each on one line or on several.
-/

namespace PduCompiler.Toml

/-- The character of a code point, unless it is half of a pair or none at all. -/
def charOf? (n : Nat) : Option Char :=
  if n ≤ 0x10ffff && !(0xd800 ≤ n && n < 0xe000) then some (Char.ofNat n) else none

def codeChar? (count : Nat) (s : List Char) : Option (Char × List Char) :=
  let digits := s.take count
  if digits.length == count && digits.all (isDigitOf 16) then
    (charOf? (valueIn 16 digits)).map (·, s.drop count)
  else none

def escape? : List Char → Option (Char × List Char)
  | 'b' :: s => some (Char.ofNat 0x08, s)
  | 't' :: s => some ('\t', s)
  | 'n' :: s => some ('\n', s)
  | 'f' :: s => some (Char.ofNat 0x0c, s)
  | 'r' :: s => some ('\r', s)
  | 'e' :: s => some (Char.ofNat 0x1b, s)
  | '"' :: s => some ('"', s)
  | '\\' :: s => some ('\\', s)
  | 'x' :: s => codeChar? 2 s
  | 'u' :: s => codeChar? 4 s
  | 'U' :: s => codeChar? 8 s
  | _ => none

def isBlank (c : Char) : Bool := c = ' ' || c = '\t'

def isSpace (c : Char) : Bool := isBlank c || c = '\n' || c = '\r'

/-- What follows a backslash at the end of a line, if it is one: the blank space after it counts for
nothing. -/
def joinedLine? (s : List Char) : Option (List Char) :=
  match s.dropWhile isBlank with
  | '\n' :: rest => some (rest.dropWhile isSpace)
  | '\r' :: '\n' :: rest => some (rest.dropWhile isSpace)
  | _ => none

/-- Reads a basic string up to its closing quote. Every step takes a character, so `fuel` need not
exceed their number. -/
def basic? : (fuel : Nat) → List Char → Option (List Char × List Char)
  | 0, _ => none
  | fuel + 1, s =>
    match s with
    | [] => none
    | '"' :: rest => some ([], rest)
    | '\\' :: rest => do
      let (c, rest) ← escape? rest
      let (text, rest) ← basic? fuel rest
      return (c :: text, rest)
    | c :: rest =>
      if c = '\n' || c = '\r' then none
      else (basic? fuel rest).map fun (text, rest) => (c :: text, rest)

/-- Up to `most` quotes that stand before the three that close a string on several lines. -/
def closingQuotes? (q : Char) (most : Nat) (s : List Char) : Option (List Char × List Char) :=
  let count := (s.takeWhile (· = q)).length
  if count < 3 then none
  else
    let inner := min most (count - 3)
    some (List.replicate inner q, s.drop (inner + 3))

/-- Reads a basic string on several lines up to the quotes that close it. Two quotes may stand
before those, and three after a backslash. -/
def basicLines? : (fuel : Nat) → (isAfterBackslash : Bool) → List Char →
    Option (List Char × List Char)
  | 0, _, _ => none
  | fuel + 1, isAfterBackslash, s =>
    match closingQuotes? '"' (if isAfterBackslash then 3 else 2) s with
    | some found => some found
    | none =>
      match s with
      | [] => none
      | '\\' :: rest =>
        match joinedLine? rest with
        | some rest => basicLines? fuel false rest
        | none => do
          let isBackslash := rest.head? = some '\\'
          let (c, rest) ← escape? rest
          let (text, rest) ← basicLines? fuel isBackslash rest
          return (c :: text, rest)
      | c :: rest => (basicLines? fuel false rest).map fun (text, rest) => (c :: text, rest)

def literal? : List Char → Option (List Char × List Char)
  | [] => none
  | c :: rest =>
    if c = '\'' then some ([], rest)
    else if c = '\n' || c = '\r' then none
    else (literal? rest).map fun (text, rest) => (c :: text, rest)

def literalLines? : List Char → Option (List Char × List Char)
  | [] => none
  | c :: rest =>
    match closingQuotes? '\'' 2 (c :: rest) with
    | some found => some found
    | none => (literalLines? rest).map fun (text, rest) => (c :: text, rest)

/-- A line end right after the opening quotes does not count. -/
def withoutFirstLine : List Char → List Char
  | '\n' :: rest => rest
  | '\r' :: '\n' :: rest => rest
  | s => s

def string? (s : List Char) : Option (String × List Char) := do
  let (text, rest) ← match s with
    | '"' :: '"' :: '"' :: rest => basicLines? (rest.length + 1) false (withoutFirstLine rest)
    | '"' :: rest => basic? (rest.length + 1) rest
    | '\'' :: '\'' :: '\'' :: rest => literalLines? (withoutFirstLine rest)
    | '\'' :: rest => literal? rest
    | _ => none
  return (String.ofList text, rest)

end PduCompiler.Toml
