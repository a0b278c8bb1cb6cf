import PduCompiler.Toml.Quoted

/-!
The lines of a TOML document: headers of tables, and keys with their values.
-/

namespace PduCompiler.Toml

inductive Written where
  | scalar (v : Value)
  | array (items : List Written)
  | inline (pairs : List (Key × Written))

inductive Line where
  | table (key : Key)
  | arrayTable (key : Key)
  | pair (key : Key) (value : Written)

def skipBlanks (s : List Char) : List Char := s.dropWhile isBlank

/-- Skips blank space, line ends and comments. Every step takes characters. -/
def skipLines : (fuel : Nat) → List Char → List Char
  | 0, s => s
  | fuel + 1, s =>
    match s.dropWhile isSpace with
    | '#' :: rest => skipLines fuel (rest.dropWhile (· ≠ '\n'))
    | s => s

def keyPart? (s : List Char) : Option (String × List Char) :=
  let named (found : List Char × List Char) : String × List Char :=
    (String.ofList found.1, found.2)
  match s with
  | '"' :: rest => (basic? (rest.length + 1) rest).map named
  | '\'' :: rest => (literal? rest).map named
  | _ =>
    let name := s.takeWhile isBareChar
    if name.isEmpty then none else some (String.ofList name, s.dropWhile isBareChar)

def key? : (fuel : Nat) → List Char → Option (Key × List Char)
  | 0, _ => none
  | fuel + 1, s => do
    let (part, rest) ← keyPart? (skipBlanks s)
    match skipBlanks rest with
    | '.' :: rest =>
      let (key, rest) ← key? fuel rest
      return (part :: key, rest)
    | rest => return ([part], rest)

/-- A word without quotes. A date goes on after a blank if digits follow. -/
def word (s : List Char) : List Char × List Char :=
  let isPart (c : Char) : Bool := !isSpace c && !([',', ']', '}', '#', '='].contains c)
  let first := s.takeWhile isPart
  let rest := s.dropWhile isPart
  match afterDate? first, rest with
  | some [], ' ' :: c :: more =>
    if c.isDigit then
      (first ++ ' ' :: (c :: more).takeWhile isPart, (c :: more).dropWhile isPart)
    else (first, rest)
  | _, _ => (first, rest)

mutual

/-- Reads a value. Every step takes characters or goes one level deeper into what it has taken, so a
`fuel` of some multiple of their number is enough. -/
def value? (fuel : Nat) (s : List Char) : Option (Written × List Char) :=
  match fuel with
  | 0 => none
  | fuel + 1 =>
    match s with
    | '[' :: rest => (items? fuel rest).map fun (items, rest) => (.array items, rest)
    | '\x7b' :: rest => (pairs? fuel rest).map fun (pairs, rest) => (.inline pairs, rest)
    | c :: _ =>
      if c = '"' || c = '\'' then
        (string? s).map fun (text, rest) => (.scalar (.string text), rest)
      else
        let (text, rest) := word s
        (scalar? text).map fun v => (.scalar v, rest)
    | [] => none

def items? (fuel : Nat) (s : List Char) : Option (List Written × List Char) :=
  match fuel with
  | 0 => none
  | fuel + 1 =>
    match skipLines (fuel + 1) s with
    | ']' :: rest => some ([], rest)
    | s => do
      let (item, rest) ← value? fuel s
      match skipLines (fuel + 1) rest with
      | ',' :: rest =>
        let (items, rest) ← items? fuel rest
        return (item :: items, rest)
      | ']' :: rest => return ([item], rest)
      | _ => none

def pairs? (fuel : Nat) (s : List Char) : Option (List (Key × Written) × List Char) :=
  match fuel with
  | 0 => none
  | fuel + 1 =>
    match skipLines (fuel + 1) s with
    | '\x7d' :: rest => some ([], rest)
    | s => do
      let (key, rest) ← key? (fuel + 1) s
      let rest ← expect? '=' rest
      let (value, rest) ← value? fuel (skipBlanks rest)
      match skipLines (fuel + 1) rest with
      | ',' :: rest =>
        let (pairs, rest) ← pairs? fuel rest
        return ((key, value) :: pairs, rest)
      | '\x7d' :: rest => return ([(key, value)], rest)
      | _ => none

end

def lineEnd? (s : List Char) : Option (List Char) :=
  match skipBlanks s with
  | [] => some []
  | '#' :: rest => some (rest.dropWhile (· ≠ '\n'))
  | '\n' :: rest => some rest
  | '\r' :: '\n' :: rest => some rest
  | _ => none

def line? (s : List Char) : Option (Line × List Char) :=
  let fuel := 2 * s.length + 2
  match s with
  | '[' :: '[' :: rest => do
    let (key, rest) ← key? fuel rest
    match rest with
    | ']' :: ']' :: rest => return (.arrayTable key, rest)
    | _ => none
  | '[' :: rest => do
    let (key, rest) ← key? fuel rest
    return (.table key, ← expect? ']' rest)
  | _ => do
    let (key, rest) ← key? fuel s
    let (value, rest) ← value? fuel (skipBlanks (← expect? '=' rest))
    return (.pair key value, rest)

def linesFrom? : (fuel : Nat) → List Char → Option (List Line)
  | 0, _ => none
  | fuel + 1, s =>
    match skipLines (fuel + 1) s with
    | [] => some []
    | s => do
      let (line, rest) ← line? s
      let lines ← linesFrom? fuel (← lineEnd? rest)
      return line :: lines

/-- Whether a text has only characters that a document may hold: of the control characters tabs and
line ends, and a carriage return only before a line feed. -/
def isClean : List Char → Bool
  | [] => true
  | '\r' :: rest => rest.head? = some '\n' && isClean rest
  | c :: rest =>
    ((0x20 ≤ c.toNat && c.toNat ≠ 0x7f) || c = '\t' || c = '\n') && isClean rest

def lines? (text : String) : Option (List Line) :=
  let s := match text.toList with
    | c :: rest => if c.toNat == 0xfeff then rest else c :: rest
    | [] => []
  if isClean s then linesFrom? (s.length + 1) s else none

end PduCompiler.Toml
