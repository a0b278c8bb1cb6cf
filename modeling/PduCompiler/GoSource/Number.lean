/-!
Number literals of Go: integers in four bases, floating point numbers in two, and their imaginary
forms. Underscores may stand between digits and after a base.
-/

namespace PduCompiler.GoSource

inductive Radix where
  | decimal
  | zero
  | octal
  | binary
  | hex
  deriving DecidableEq, Repr

def isHexDigit (c : Char) : Bool := c.isDigit || ('a' ≤ c && c ≤ 'f') || ('A' ≤ c && c ≤ 'F')

def Radix.takes (r : Radix) (c : Char) : Bool :=
  c = '_' || if r = .hex then isHexDigit c else c.isDigit

def Radix.allows (r : Radix) (c : Char) : Bool :=
  match r with
  | .decimal | .hex => true
  | .zero | .octal => c < '8'
  | .binary => c < '2'

def radixOf : List Char → Radix × List Char × List Char
  | '0' :: c :: rest =>
    match c.toLower with
    | 'x' => (.hex, ['0', c], rest)
    | 'o' => (.octal, ['0', c], rest)
    | 'b' => (.binary, ['0', c], rest)
    | _ => (.zero, ['0'], c :: rest)
  | ['0'] => (.zero, ['0'], [])
  | s => (.decimal, [], s)

/-- Whether every underscore has a digit before and after it; `afterDigit` and `afterSep` tell what
stands before. -/
def separatesDigits (isDigit : Char → Bool) (afterDigit afterSep : Bool) : List Char → Bool
  | [] => !afterSep
  | c :: rest =>
    if c = '_' then afterDigit && separatesDigits isDigit false true rest
    else if isDigit c then separatesDigits isDigit true false rest
    else !afterSep && separatesDigits isDigit false false rest

def replaceLast (old new : Char) (s : List Char) : List Char :=
  let after := (s.reverse.takeWhile (· ≠ old)).reverse
  if s.contains old then s.take (s.length - after.length - 1) ++ new :: after else s

def normalized (s : List Char) : List Char :=
  match s with
  | '0' :: 'X' :: rest => replaceLast 'P' 'p' ('0' :: 'x' :: rest)
  | '0' :: 'x' :: _ => replaceLast 'P' 'p' s
  | '0' :: 'O' :: rest => '0' :: 'o' :: rest
  | '0' :: 'o' :: _ => s
  | '0' :: 'B' :: rest => '0' :: 'b' :: rest
  | '0' :: 'b' :: _ => s
  | _ =>
    if s.length < 2 then s
    else if s.contains 'E' then replaceLast 'E' 'e' s
    else if s.getLast? = some 'i' && !(s.contains '.' || s.contains 'e') then
      let digits := s.dropWhile fun c => c = '0' || c = '_'
      if digits = ['i'] then ['0', 'i'] else digits
    else s

inductive NumberKind where
  | int
  | float
  | imaginary
  deriving DecidableEq, Repr, Inhabited

def exponent? (r : Radix) (s : List Char) : Option (List Char × List Char) :=
  match s with
  | [] => some ([], [])
  | e :: rest =>
    let fits := if e.toLower = 'e' then r = .decimal || r = .zero else r = .hex
    if e.toLower = 'e' || e.toLower = 'p' then
      let (sign, rest) := match rest with
        | '+' :: rest => (['+'], rest)
        | '-' :: rest => (['-'], rest)
        | _ => ([], rest)
      let digits := rest.takeWhile (Radix.decimal.takes ·)
      if fits && digits.any Char.isDigit then
        some (e :: sign ++ digits, rest.dropWhile (Radix.decimal.takes ·))
      else none
    else some ([], s)

def number? (s : List Char) : Option (NumberKind × List Char) := do
  let (r, start, rest) := radixOf s
  let whole := rest.takeWhile (r.takes ·)
  let rest := rest.dropWhile (r.takes ·)
  let isPoint := rest.head? = some '.'
  if isPoint && (r = .octal || r = .binary) then none
  else
    let fraction := if isPoint then '.' :: (rest.drop 1).takeWhile (r.takes ·) else []
    let rest := if isPoint then (rest.drop 1).dropWhile (r.takes ·) else rest
    if r ≠ .zero && !(whole ++ fraction).any isHexDigit then none
    else
      let (exponent, rest) ← exponent? r rest
      if r = .hex && isPoint && exponent.isEmpty then none
      else
        let isImaginary := rest.head? = some 'i'
        let isInteger := !isPoint && exponent.isEmpty && !isImaginary
        let suffix := if isImaginary then ['i'] else []
        if isInteger && whole.any (fun c => c ≠ '_' && !r.allows c) then none
        else
          let isBased := r = .hex || r = .octal || r = .binary
          let digit (c : Char) : Bool := if r = .hex then isHexDigit c else c.isDigit
          let body := (if isBased then [] else start) ++ whole ++ fraction ++ exponent ++ suffix
          if separatesDigits digit isBased false body then
            let text := start ++ whole ++ fraction ++ exponent ++ suffix
            some (if isImaginary then .imaginary else if isInteger then .int else .float, text)
          else none

end PduCompiler.GoSource
