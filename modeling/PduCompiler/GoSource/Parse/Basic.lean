import PduCompiler.GoSource.Syntax

/-!
Reading the words of a source. A reader fails at the first word that does not fit. The constructs of
the language refer to each other, so those that recur are the fields of a `Grammar`, and each rule
is written over a grammar for its parts.
-/

namespace PduCompiler.GoSource

structure Reading where
  rest : List Word
  /-- How deep the brackets are. It is below zero in the header of a statement, where a brace opens
  the block of the statement and no literal. -/
  level : Int
  isRight : Bool
  total : Nat

abbrev Reader := StateT Reading Option

structure Grammar where
  type? : Reader (Option Expr)
  unary : Reader Expr
  binary : Nat → Reader Expr
  literal : Option Expr → Reader Expr
  stmt : Reader Stmt

namespace Reader

def word : Reader Word := do
  match (← get).rest with
  | w :: _ => return w
  | [] => failure

def token : Reader Token := return (← word).token

def pos : Reader Nat := return (← word).pos

def advance : Reader Unit :=
  modify fun s =>
    match s.rest with
    | _ :: w :: rest => { s with rest := w :: rest }
    | _ => s

def isOp (s : String) : Reader Bool := return (← token) == .op s

def isKeyword (s : String) : Reader Bool := return (← token) == .keyword s

def isEof : Reader Bool := return (← token) == .eof

def isSemicolon : Reader Bool := do
  match ← token with
  | .semicolon _ => return true
  | _ => return false

def expectToken (t : Token) : Reader Nat := do
  let w ← word
  if w.token == t then
    advance
    return w.pos
  else failure

def expect (s : String) : Reader Nat := expectToken (.op s)

def expectKeyword (s : String) : Reader Nat := expectToken (.keyword s)

def ident : Reader Ident := do
  let w ← word
  match w.token with
  | .name s =>
    advance
    return ⟨w.pos, s⟩
  | _ => failure

/-- Ends a statement and gives the comment of its line. Nothing has to stand before a closing
parenthesis or brace. -/
def semicolon : Reader CommentGroup := do
  let w ← word
  match w.token with
  | .op ")" | .op "\x7d" => return []
  | .semicolon true =>
    advance
    return (← word).line
  | .semicolon false =>
    advance
    return w.line
  | _ => failure

def hasComma (closing : String) : Reader Bool := do
  match ← token with
  | .op "," => return true
  | .op s => if s = closing then return false else failure
  | _ => failure

def iterate {α β : Type} (step : α → Reader (α ⊕ β)) : (fuel : Nat) → α → Reader β
  | 0, _ => failure
  | fuel + 1, a => do
    match ← step a with
    | .inl a => iterate step fuel a
    | .inr b => return b

/-- Repeats a step until it has a result. Every step but the last takes a word, so the number of all
words is enough. -/
def loop {α β : Type} (a : α) (step : α → Reader (α ⊕ β)) : Reader β := do
  iterate step ((← get).total + 1) a

def whileM {α : Type} (cond : Reader Bool) (item : Reader α) : Reader (List α) :=
  loop [] fun items => do
    if ← cond then
      let x ← item
      return .inl (items ++ [x])
    else return .inr items

def listUntil {α : Type} (closing : String) (item : Reader α) : Reader (List α) :=
  loop [] fun items => do
    if (← isOp closing) || (← isEof) then return .inr items
    else
      let x ← item
      if ← hasComma closing then
        advance
        return .inl (items ++ [x])
      else return .inr (items ++ [x])

def commaList {α : Type} (item : Reader α) : Reader (List α) := do
  let first ← item
  let others ← whileM (isOp ",") do
    advance
    item
  return first :: others

def nested {α : Type} (p : Reader α) : Reader α := do
  modify fun s => { s with level := s.level + 1 }
  let x ← p
  modify fun s => { s with level := s.level - 1 }
  return x

def header {α : Type} (p : Reader α) : Reader α := do
  let level := (← get).level
  modify fun s => { s with level := -1 }
  let x ← p
  modify fun s => { s with level := level }
  return x

def onSide {α : Type} (isRight : Bool) (p : Reader α) : Reader α := do
  let before := (← get).isRight
  modify fun s => { s with isRight := isRight }
  let x ← p
  modify fun s => { s with isRight := before }
  return x

end Reader

namespace Grammar

open Reader

def expr (g : Grammar) : Reader Expr := g.binary 1

def right (g : Grammar) : Reader Expr := onSide true g.expr

def exprList (g : Grammar) (isRight : Bool) : Reader (List Expr) :=
  onSide isRight (commaList g.expr)

def type (g : Grammar) : Reader Expr := do
  match ← g.type? with
  | some t => return t
  | none => failure

def stmtList (g : Grammar) : Reader (List Stmt) :=
  whileM (do
    match ← token with
    | .keyword "case" | .keyword "default" | .op "\x7d" | .eof => return false
    | _ => return true) g.stmt

def block (g : Grammar) : Reader Block := do
  let lbrace ← expect "\x7b"
  let stmts ← g.stmtList
  let rbrace ← expect "\x7d"
  return ⟨lbrace, stmts, rbrace⟩

end Grammar

end PduCompiler.GoSource
