import PduCompiler.GoSource.Lines
import PduCompiler.GoSource.Number
import PduCompiler.Text.Category

/-!
The tokens of Go source. A line that can end a statement ends it: a semicolon is put there, after
the comments of the line.
-/

namespace PduCompiler.GoSource

inductive LiteralKind where
  | number (kind : NumberKind)
  | char
  | string
  deriving DecidableEq, Repr, Inhabited

inductive Token where
  | name (s : String)
  | keyword (s : String)
  | literal (kind : LiteralKind) (s : String)
  | op (s : String)
  | semicolon (isWritten : Bool)
  | comment (s : String)
  | eof
  deriving DecidableEq, Repr, Inhabited

structure Lexeme where
  token : Token
  pos : Nat
  stop : Nat
  deriving DecidableEq, Repr, Inhabited

def keywords : List String :=
  ["break", "case", "chan", "const", "continue", "default", "defer", "else", "fallthrough", "for",
    "func", "go", "goto", "if", "import", "interface", "map", "package", "range", "return",
    "select", "struct", "switch", "type", "var"]

def operators : List String :=
  ["<<=", ">>=", "&^=", "...", "&&", "||", "<-", "++", "--", "==", "!=", "<=", ">=", ":=", "+=",
    "-=", "*=", "/=", "%=", "&=", "|=", "^=", "<<", ">>", "&^", "+", "-", "*", "/", "%", "&", "|",
    "^", "<", ">", "=", "!", "(", ")", "[", "]", "\x7b", "\x7d", ",", ".", ":", "~"]

def isLetter (c : Char) : Bool := c = '_' || Text.isLetter c

def isNamePart (c : Char) : Bool := isLetter c || Text.isDigit c

def Token.endsStatement : Token → Bool
  | name _ | literal _ _ => true
  | keyword s => ["break", "continue", "fallthrough", "return"].contains s
  | op s => ["++", "--", ")", "]", "\x7d"].contains s
  | semicolon _ | comment _ | eof => false

def digits? (base count : Nat) (s : List Char) : Option (Nat × List Char) :=
  let digits := s.take count
  let value (c : Char) : Nat :=
    if c.isDigit then c.toNat - '0'.toNat else c.toLower.toNat - 'a'.toNat + 10
  if digits.length = count && digits.all (fun c => isHexDigit c && value c < base) then
    some (digits.foldl (fun n c => n * base + value c) 0, s.drop count)
  else none

def escape? (quote : Char) : List Char → Option (List Char)
  | [] => none
  | c :: rest =>
    let code (base count most : Nat) (s : List Char) : Option (List Char) :=
      (digits? base count s).bind fun (n, rest) =>
        if n ≤ most && !(0xd800 ≤ n && n < 0xe000) then some rest else none
    if c = quote || ['a', 'b', 'f', 'n', 'r', 't', 'v', '\\'].contains c then some rest
    else if c = 'x' then code 16 2 255 rest
    else if c = 'u' then code 16 4 0x10ffff rest
    else if c = 'U' then code 16 8 0x10ffff rest
    else if '0' ≤ c && c ≤ '7' then code 8 3 255 (c :: rest)
    else none

/-- How many characters a text between quotes has, escapes counted as one, and its spelling with the
closing quote. It ends within its line. Every step takes a character, so `fuel` need not exceed
their number. -/
def closing? (quote : Char) : (fuel : Nat) → List Char → Option (Nat × List Char)
  | 0, _ => none
  | _ + 1, [] => none
  | fuel + 1, c :: rest =>
    if c = quote then some (0, [c])
    else if c = '\n' then none
    else if c = '\\' then do
      let after ← escape? quote rest
      let (count, text) ← closing? quote fuel after
      return (count + 1, c :: rest.take (rest.length - after.length) ++ text)
    else do
      let (count, text) ← closing? quote fuel rest
      return (count + 1, c :: text)

def quoted? (quote : Char) (s : List Char) : Option (List Char) :=
  if quote = '\x60' then
    if s.contains '\x60' then some (s.takeWhile (· ≠ '\x60') ++ ['\x60']) else none
  else do
    let (count, text) ← closing? quote (s.length + 1) s
    if quote = '\'' && count ≠ 1 then none else some text

/-- The token that a text begins with, apart from blanks, comments and line ends, and how many
characters it takes. Carriage returns do not belong to a raw string. -/
def token? (s : List Char) : Option (Token × Nat) :=
  match s with
  | [] => none
  | c :: rest =>
    if isLetter c then
      let word := String.ofList (s.takeWhile isNamePart)
      some (if keywords.contains word then .keyword word else .name word, word.length)
    else if c.isDigit || (c = '.' && rest.head?.any Char.isDigit) then do
      let (kind, text) ← number? s
      return (.literal (.number kind) (String.ofList text), text.length)
    else if c = '"' || c = '\'' || c = '\x60' then do
      let text ← quoted? c rest
      let kept := if c = '\x60' then text.filter (· ≠ '\r') else text
      return (.literal (if c = '\'' then .char else .string) (String.ofList (c :: kept)),
        text.length + 1)
    else if c = ';' then some (.semicolon true, 1)
    else do
      let op ← operators.find? fun op => op.toList.isPrefixOf s
      return (.op op, op.length)

def block? : List Char → Option (List Char × List Char)
  | '*' :: '/' :: rest => some (['*', '/'], rest)
  | c :: rest => (block? rest).map fun (text, rest) => (c :: text, rest)
  | [] => none

/-- Drops carriage returns, except where this would bring a star and a slash together. `kept` is the
character kept last. -/
def blockWithoutReturns (kept : Option Char) : List Char → List Char
  | [] => []
  | c :: rest =>
    if c = '\r' && !(kept = some '*' && rest.head? = some '/') then blockWithoutReturns kept rest
    else c :: blockWithoutReturns (some c) rest

private def atLastColon? (s : List Char) : Option (List Char × List Char) :=
  let tail := (s.reverse.takeWhile (· ≠ ':')).reverse
  if s.contains ':' then some (s.take (s.length - tail.length - 1), tail) else none

private def word64? (s : List Char) : Option Int :=
  let n := s.foldl (fun n c => n * 10 + (c.toNat - '0'.toNat)) 0
  if !s.isEmpty && s.all Char.isDigit && n < Nat.pow 2 64 then
    some (if n < Nat.pow 2 63 then n else n - Nat.pow 2 64)
  else none

/-- The line that a comment gives to the source after it. A text that ends in a colon and a number
gives one, or in two of them, for line and column. Without a colon it gives none, and with anything
else after the colon it is an error. -/
inductive LineDirective where
  | absent
  | line (n : Int)
  | malformed
  deriving DecidableEq, Repr

def LineDirective.read (s : List Char) : LineDirective :=
  let fits (n : Int) : Bool := n ≠ 0 && n ≤ 1073741824
  match atLastColon? s with
  | none => .absent
  | some (before, last) =>
    match word64? last, (atLastColon? before).bind (word64? ·.2) with
    | none, _ => .malformed
    | some n, none => if fits n then .line n else .malformed
    | some column, some n => if fits column && fits n then .line n else .malformed

def LineDirective.ofComment (isBlock isStart : Bool) (s : List Char) : LineDirective :=
  if (isBlock || isStart) && "line ".toList.isPrefixOf s then
    .read (if isBlock then (s.drop 5).dropLast.dropLast else s.drop 5)
  else .absent

/-- Reads on. `ends` tells whether the line read so far can end a statement, and `isStart` whether
the next character is the first of its line. Every step takes a character or ends a statement, so
twice their number of steps is enough. -/
def lexemesFrom? : (fuel pos : Nat) → (ends isStart : Bool) → List Char → Option (List Lexeme)
  | 0, _, _, _, _ => none
  | fuel + 1, pos, ends, isStart, s =>
    match s with
    | [] =>
      let ending : List Lexeme := [⟨.eof, pos, pos⟩]
      some (if ends then ⟨.semicolon false, pos, pos⟩ :: ending else ending)
    | '\n' :: rest => do
      let after ← lexemesFrom? fuel (pos + 1) false true rest
      return if ends then ⟨.semicolon false, pos, pos⟩ :: after else after
    | '/' :: '/' :: rest =>
      let line := rest.takeWhile (· ≠ '\n')
      let text := if line.getLast? = some '\r' then line.dropLast else line
      if LineDirective.ofComment false isStart text = .malformed then none
      else do
        let stop := pos + 2 + extent line
        let after ← lexemesFrom? fuel stop ends false (rest.drop line.length)
        return ⟨.comment (String.ofList ('/' :: '/' :: line.filter (· ≠ '\r'))), pos, stop⟩ :: after
    | '/' :: '*' :: rest => do
      let (text, rest) ← block? rest
      if LineDirective.ofComment true isStart text = .malformed then none
      else
        let lineEnd := pos + 2 + extent (text.takeWhile (· ≠ '\n'))
        let isBroken := text.contains '\n'
        let comment := String.ofList ('/' :: '*' :: blockWithoutReturns none text)
        let stop := pos + 2 + extent text
        let after ← lexemesFrom? fuel stop (ends && !isBroken) false rest
        return ⟨.comment comment, pos, stop⟩ ::
          (if ends && isBroken then ⟨.semicolon false, lineEnd, lineEnd⟩ :: after else after)
    | c :: rest =>
      if c = ' ' || c = '\t' || c = '\r' then lexemesFrom? fuel (pos + 1) ends false rest
      else do
        let (token, count) ← token? s
        let stop := pos + extent (s.take count)
        let after ← lexemesFrom? fuel stop token.endsStatement false (s.drop count)
        return ⟨token, pos, stop⟩ :: after

/-- The lexemes of a source. Zero characters and byte order marks are refused everywhere. -/
def lexemes? (s : List Char) : Option (List Lexeme) :=
  if s.any fun c => c.toNat == 0 || c.toNat == 0xfeff then none
  else lexemesFrom? (2 * s.length + 2) 0 false true s

end PduCompiler.GoSource
