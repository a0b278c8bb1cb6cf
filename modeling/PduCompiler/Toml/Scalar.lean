import PduCompiler.Number.FloatLiteral
import PduCompiler.Toml.Value

/-!
Scalars of TOML that are written without quotes: numbers, truth values, dates and times.
-/

namespace PduCompiler.Toml

def isDigits (isDigit : Char → Bool) (s : List Char) : Bool :=
  go false s
where
  go (after : Bool) : List Char → Bool
    | [] => after
    | c :: rest => if c = '_' then after && go false rest else isDigit c && go true rest

def withoutUnderscores (s : List Char) : List Char := s.filter (· ≠ '_')

def splitSign : List Char → Bool × List Char
  | '-' :: rest => (true, rest)
  | '+' :: rest => (false, rest)
  | s => (false, s)

def isDigitOf (base : Nat) (c : Char) : Bool := IntLiteral.digitValue c < base

def valueIn (base : Nat) (s : List Char) : Nat := IntLiteral.valueOf base (withoutUnderscores s)

def isDecimal (s : List Char) : Bool :=
  isDigits Char.isDigit s && (s.length == 1 || s.head? ≠ some '0')

def integer? (s : List Char) : Option Int :=
  let unsigned (base : Nat) (digits : List Char) : Option Int :=
    if isDigits (isDigitOf base) digits then some (valueIn base digits) else none
  let n := match s with
    | '0' :: 'x' :: digits => unsigned 16 digits
    | '0' :: 'o' :: digits => unsigned 8 digits
    | '0' :: 'b' :: digits => unsigned 2 digits
    | _ =>
      let (negative, digits) := splitSign s
      if isDecimal digits then
        let n : Int := valueIn 10 digits
        some (if negative then -n else n)
      else none
  n.filter fun n => wrap n == n

def isFloat (s : List Char) : Bool :=
  let (_, body) := splitSign s
  if body = "inf".toList || body = "nan".toList then true
  else
    let mantissa := body.takeWhile fun c => c ≠ 'e' && c ≠ 'E'
    let exponent := (body.drop mantissa.length).drop 1
    let hasExponent := mantissa.length < body.length
    let whole := mantissa.takeWhile (· ≠ '.')
    let fraction := (mantissa.drop whole.length).drop 1
    let hasFraction := whole.length < mantissa.length
    (hasFraction || hasExponent) && isDecimal whole &&
      (!hasFraction || isDigits Char.isDigit fraction) &&
      (!hasExponent || isDigits Char.isDigit (splitSign exponent).2) &&
      ((FloatLiteral.parse? (withoutUnderscores s)).bind FloatLiteral.Value.toBinary64?).isSome

def digitsOf? (count : Nat) (s : List Char) : Option (Nat × List Char) :=
  let digits := s.take count
  if digits.length == count && digits.all Char.isDigit then some (valueIn 10 digits, s.drop count)
  else none

def expect? (c : Char) : List Char → Option (List Char)
  | d :: rest => if c = d then some rest else none
  | [] => none

def isLeap (year : Nat) : Bool := year % 4 == 0 && (year % 100 != 0 || year % 400 == 0)

def daysIn (year month : Nat) : Nat :=
  if month == 2 then (if isLeap year then 29 else 28)
  else if [4, 6, 9, 11].contains month then 30
  else 31

def afterDate? (s : List Char) : Option (List Char) := do
  let (year, s) ← digitsOf? 4 s
  let s ← expect? '-' s
  let (month, s) ← digitsOf? 2 s
  let s ← expect? '-' s
  let (day, s) ← digitsOf? 2 s
  if 1 ≤ month && month ≤ 12 && 1 ≤ day && day ≤ daysIn year month then some s else none

def afterTime? (s : List Char) : Option (List Char) := do
  let (hour, s) ← digitsOf? 2 s
  let s ← expect? ':' s
  let (minute, s) ← digitsOf? 2 s
  if hour < 24 && minute < 60 then
    match s with
    | ':' :: s =>
      let (second, s) ← digitsOf? 2 s
      if second < 60 then
        match s with
        | '.' :: s => if (s.head?.any Char.isDigit) then some (s.dropWhile Char.isDigit) else none
        | s => some s
      else none
    | s => some s
  else none

def isOffset (s : List Char) : Bool :=
  match s with
  | [] => true
  | ['Z'] | ['z'] => true
  | sign :: s =>
    (sign = '+' || sign = '-') &&
      ((do
        let (hour, s) ← digitsOf? 2 s
        let s ← expect? ':' s
        let (minute, s) ← digitsOf? 2 s
        some (hour ≤ 24 && minute ≤ 60 && s.isEmpty)) == some true)

def isDateTime (s : List Char) : Bool :=
  match afterDate? s with
  | some [] => true
  | some (c :: s) => (c = 'T' || c = 't' || c = ' ') && (afterTime? s).any isOffset
  | none => afterTime? s == some []

def scalar? (s : List Char) : Option Value :=
  if s = "true".toList then some (.boolean true)
  else if s = "false".toList then some (.boolean false)
  else
    match integer? s with
    | some n => some (.integer n)
    | none => if isFloat s then some .float else if isDateTime s then some .dateTime else none

end PduCompiler.Toml
