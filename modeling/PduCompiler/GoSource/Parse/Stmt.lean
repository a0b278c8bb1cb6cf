import PduCompiler.GoSource.Parse.Expr

/-! Reading declarations inside and outside functions, and statements. -/

namespace PduCompiler.GoSource

def Expr.isTypeElement : Expr → Bool
  | ⟨_, _, .array _ _⟩ | ⟨_, _, .struct _⟩ | ⟨_, _, .funcType _⟩ | ⟨_, _, .interface _⟩
  | ⟨_, _, .map _ _⟩ | ⟨_, _, .chan ..⟩ => true
  | ⟨_, _, .binary x _ _ y⟩ => x.isTypeElement || y.isTypeElement
  | ⟨_, _, .unary op _⟩ => op == "~"
  | ⟨_, _, .paren x _⟩ => x.isTypeElement
  | _ => false

/-- Takes an expression apart into the name of a type parameter and the constraint after it, if it
can be read so. With `force` it is read so even if the second part could be an expression. -/
def Expr.typeParam? : Expr → (force : Bool) → Option (Ident × Option Expr)
  | ⟨p, _, .ident name⟩, _ => some (⟨p, name⟩, none)
  | ⟨_, _, .binary ⟨p, _, .ident name⟩ opPos "*" y⟩, force =>
    if force || y.isTypeElement then some (⟨p, name⟩, some ⟨opPos, y.stop, .star y⟩) else none
  | ⟨_, _, .binary x opPos "|" y⟩, force =>
    match x.typeParam? (force || y.isTypeElement) with
    | some (name, some left) => some (name, some ⟨left.start, y.stop, .binary left opPos "|" y⟩)
    | _ => none
  | ⟨_, stop, .call ⟨p, _, .ident name⟩ lparen [arg] none rparen⟩, force =>
    if force || arg.isTypeElement then some (⟨p, name⟩, some ⟨lparen, stop, .paren arg rparen⟩)
    else none
  | _, _ => none

namespace Grammar

open Reader

def importSpec (doc : CommentGroup) : Reader Spec := do
  let w ← word
  let name ← match w.token with
    | .name _ => pure (some (← ident))
    | .op "." => do
      advance
      pure (some ⟨w.pos, "."⟩)
    | _ => pure none
  match ← tag? with
  | some path => return .imported doc name path (← semicolon) none
  | none => failure

def valueSpec (g : Grammar) (isConst : Bool) (doc : CommentGroup) : Reader Spec := do
  let names ← commaList ident
  let type ←
    if isConst then
      if (← isEof) || (← isSemicolon) || (← isOp ")") then pure none else g.type?
    else if ← isOp "=" then pure none
    else pure (some (← g.type))
  let values ← if ← isOp "=" then do
      advance
      g.exprList true
    else pure []
  return .value doc names type values (← semicolon)

private def genericType (g : Grammar) (doc : CommentGroup) (name : Ident) (lbrack : Nat)
    (first : Ident) (constraint : Option Expr) : Reader Spec := do
  let fields ← g.params (some first) constraint "]" false
  let rbrack ← expect "]"
  let isAlias ← isOp "="
  if isAlias then advance
  let type ← g.type
  return .type doc name (some ⟨some lbrack, fields, some rbrack⟩) isAlias type (← semicolon)

/-- A type; what follows a bracket after its name may be the length of an array or the first type
parameter. -/
def typeSpec (g : Grammar) (doc : CommentGroup) : Reader Spec := do
  let name ← ident
  match ← token with
  | .op "[" =>
    let lbrack ← expect "["
    match ← token with
    | .name _ =>
      let first := (← ident).expr
      let x ← if ← isOp "[" then pure first
        else nested do g.binaryAfter (← g.primaryAfter first) 1
      let plain : Reader Spec := do
        let type ← g.arrayType lbrack (some x)
        return .type doc name none false type (← semicolon)
      match x.typeParam? (← isOp ",") with
      | some (param, some constraint) => genericType g doc name lbrack param (some constraint)
      | some (param, none) =>
        if ← isOp "]" then plain else genericType g doc name lbrack param none
      | none => plain
    | _ =>
      let type ← g.arrayType lbrack none
      return .type doc name none false type (← semicolon)
  | _ =>
    let isAlias ← isOp "="
    if isAlias then advance
    let type ← g.type
    return .type doc name none isAlias type (← semicolon)

def genDecl (keyword : String) (spec : CommentGroup → Reader Spec) : Reader GenDecl := do
  let doc := (← word).lead
  let start ← expectKeyword keyword
  if ← isOp "(" then
    let lparen ← expect "("
    let specs ← whileM (return !(← isOp ")") && !(← isEof)) do spec (← word).lead
    let rparen ← expect ")"
    let _ ← semicolon
    return ⟨doc, start, keyword, some (lparen, rparen), specs⟩
  else return ⟨doc, start, keyword, none, [← spec []]⟩

inductive SimpleContext where
  | plain
  | label
  | range
  deriving DecidableEq

def assignments : List String :=
  [":=", "=", "+=", "-=", "*=", "/=", "%=", "&=", "|=", "^=", "<<=", ">>=", "&^="]

/-- A simple statement, or the clause of a loop over a range: what is assigned to, the operator, and
what is ranged over. -/
inductive Simple where
  | stmt (s : Stmt)
  | range (left : List Expr) (op : Option (Nat × String)) (x : Expr)

def rangeClause (g : Grammar) (left : List Expr) (op : Option (Nat × String)) : Reader Simple := do
  let _ ← expectKeyword "range"
  return .range left op (← g.right)

private def assignment (left : List Expr) (opPos : Nat) (op : String) (right : List Expr) : Stmt :=
  ⟨(left.head?).elim opPos Expr.start, (right.getLast?).elim 0 Expr.stop,
    .assign left opPos op right⟩

def exprStmt (x : Expr) : Stmt := ⟨x.start, x.stop, .expr x⟩

private def afterExpr (g : Grammar) (context : SimpleContext) (x : Expr) : Reader Stmt := do
  let w ← word
  match w.token with
  | .op ":" =>
    advance
    match context, x.form with
    | .label, .ident name =>
      let body ← g.stmt
      return ⟨x.start, body.stop, .labeled ⟨x.start, name⟩ w.pos body⟩
    | _, _ => failure
  | .op "<-" =>
    advance
    let value ← g.right
    return ⟨x.start, value.stop, .send x w.pos value⟩
  | .op "++" | .op "--" =>
    advance
    return ⟨x.start, w.pos + 2, .incDec x w.pos (if w.token == .op "++" then "++" else "--")⟩
  | _ => return exprStmt x

def simple (g : Grammar) (context : SimpleContext) : Reader Simple := do
  let left ← g.exprList false
  let w ← word
  let op := match w.token with
    | .op s => if assignments.contains s then some s else none
    | _ => none
  match op, left with
  | some op, _ =>
    advance
    if context = .range && (op = ":=" || op = "=") && (← isKeyword "range") then
      g.rangeClause left (some (w.pos, op))
    else return .stmt (assignment left w.pos op (← g.exprList true))
  | none, [x] => return .stmt (← afterExpr g context x)
  | none, _ => failure

def simpleStmt (g : Grammar) (context : SimpleContext) : Reader Stmt := do
  match ← g.simple context with
  | .stmt s => return s
  | .range .. => failure

private def condition (s : Stmt) : Reader Expr :=
  match s.form with
  | .expr x => pure x
  | _ => failure

private def condition? : Option Stmt → Reader (Option Expr)
  | some s => return some (← condition s)
  | none => return none

private def callStmt (g : Grammar) (keyword : String) (form : Expr → StmtForm) : Reader Stmt := do
  let start ← expectKeyword keyword
  let x ← g.right
  match x.form with
  | .call .. =>
    let _ ← semicolon
    return ⟨start, x.stop, form x⟩
  | _ => failure

private def returnStmt (g : Grammar) : Reader Stmt := do
  let start ← expectKeyword "return"
  let results ← if (← isSemicolon) || (← isOp "\x7d") then pure [] else g.exprList true
  let _ ← semicolon
  return ⟨start, (results.getLast?).elim (start + 6) Expr.stop, .returns results⟩

private def branchStmt (keyword : String) : Reader Stmt := do
  let start ← expectKeyword keyword
  let isName := match ← token with
    | .name _ => true
    | _ => false
  let label ←
    if keyword = "goto" || ((keyword = "break" || keyword = "continue") && isName) then
      pure (some (← ident))
    else pure none
  let _ ← semicolon
  return ⟨start, label.elim (start + keyword.length) Ident.stop, .branch keyword label⟩

private def ifHeader (g : Grammar) : Reader (Option Stmt × Expr) := header do
  if ← isOp "\x7b" then failure
  else
    let first ← if ← isSemicolon then pure none else pure (some (← g.simpleStmt .plain))
    if ← isOp "\x7b" then
      match first with
      | some s => return (none, ← condition s)
      | none => failure
    else if ← isSemicolon then
      advance
      if ← isOp "\x7b" then failure
      else return (first, ← condition (← g.simpleStmt .plain))
    else failure

private def ifStmt (g : Grammar) : Reader Stmt := do
  let start ← expectKeyword "if"
  let (first, cond) ← ifHeader g
  let body ← g.block
  if ← isKeyword "else" then
    advance
    if ← isKeyword "if" then
      let otherwise ← g.stmt
      return ⟨start, otherwise.stop, .ifElse first cond body (some otherwise)⟩
    else
      let otherwise := (← g.block).stmt
      let _ ← semicolon
      return ⟨start, otherwise.stop, .ifElse first cond body (some otherwise)⟩
  else
    let _ ← semicolon
    return ⟨start, body.stop, .ifElse first cond body none⟩

private def isTypeGuard (s : Stmt) : Reader Bool :=
  let asksType (x : Expr) : Bool :=
    match x.form with
    | .assertion _ _ none _ => true
    | _ => false
  match s.form with
  | .expr x => return asksType x
  | .assign [_] _ op [x] =>
    if asksType x then
      if op = "=" then failure else return op == ":="
    else return false
  | _ => return false

private def clauseStop (colon : Nat) (body : List Stmt) : Nat :=
  (body.getLast?).elim (colon + 1) Stmt.stop

private def caseClause (g : Grammar) : Reader Stmt := do
  let start ← pos
  let values ← if ← isKeyword "case" then do
      advance
      pure (some (← g.exprList true))
    else do
      let _ ← expectKeyword "default"
      pure none
  let colon ← expect ":"
  let body ← g.stmtList
  return ⟨start, clauseStop colon body, .caseClause values colon body⟩

private def clauses (clause : Reader Stmt) : Reader Block := do
  let lbrace ← expect "\x7b"
  let list ← whileM (return (← isKeyword "case") || (← isKeyword "default")) clause
  let rbrace ← expect "\x7d"
  let _ ← semicolon
  return ⟨lbrace, list, rbrace⟩

private def switchHeader (g : Grammar) : Reader (Option Stmt × Option Stmt) := do
  if ← isOp "\x7b" then return (none, none)
  else header do
    let first ← if ← isSemicolon then pure none else pure (some (← g.simpleStmt .plain))
    if ← isSemicolon then
      advance
      if ← isOp "\x7b" then return (first, none)
      else return (first, some (← g.simpleStmt .plain))
    else return (none, first)

private def switchStmt (g : Grammar) : Reader Stmt := do
  let start ← expectKeyword "switch"
  let (first, subject) ← switchHeader g
  let isType ← match subject with
    | some s => isTypeGuard s
    | none => pure false
  let body ← clauses (caseClause g)
  match isType, subject with
  | true, some s => return ⟨start, body.stop, .typeSwitch first s body⟩
  | _, _ => return ⟨start, body.stop, .switch first (← condition? subject) body⟩

private def communication (g : Grammar) : Reader Stmt := do
  let left ← g.exprList false
  let w ← word
  match w.token, left with
  | .op "<-", [x] =>
    advance
    let value ← g.right
    return ⟨x.start, value.stop, .send x w.pos value⟩
  | .op "=", _ | .op ":=", _ =>
    if left.length > 2 then failure
    else
      advance
      let value ← g.right
      return assignment left w.pos (if w.token == .op "=" then "=" else ":=") [value]
  | _, [x] => return exprStmt x
  | _, _ => failure

private def commClause (g : Grammar) : Reader Stmt := do
  let start ← pos
  let comm ← if ← isKeyword "case" then do
      advance
      pure (some (← communication g))
    else do
      let _ ← expectKeyword "default"
      pure none
  let colon ← expect ":"
  let body ← g.stmtList
  return ⟨start, clauseStop colon body, .commClause comm colon body⟩

private def selectStmt (g : Grammar) : Reader Stmt := do
  let start ← expectKeyword "select"
  let body ← clauses (commClause g)
  return ⟨start, body.stop, .select body⟩

private def forHeader (g : Grammar) :
    Reader (Simple ⊕ (Option Stmt × Option Stmt × Option Stmt)) := do
  if ← isOp "\x7b" then return .inr (none, none, none)
  else header do
    let first ←
      if ← isSemicolon then pure none
      else if ← isKeyword "range" then pure (some (← g.rangeClause [] none))
      else pure (some (← g.simple .range))
    match first with
    | some (.range left op x) => return .inl (.range left op x)
    | _ =>
      let first : Option Stmt := match first with
        | some (.stmt s) => some s
        | _ => none
      if ← isSemicolon then
        advance
        let second ← if ← isSemicolon then pure none else pure (some (← g.simpleStmt .plain))
        let _ ← semicolon
        let third ← if ← isOp "\x7b" then pure none else pure (some (← g.simpleStmt .plain))
        return .inr (first, second, third)
      else return .inr (none, first, none)

private def forStmt (g : Grammar) : Reader Stmt := do
  let start ← expectKeyword "for"
  let head ← forHeader g
  let body ← g.block
  let _ ← semicolon
  match head with
  | .inl (.range left op x) =>
    if left.length > 2 then failure
    else return ⟨start, body.stop, .forRange left[0]? left[1]? op x body⟩
  | .inl (.stmt _) => failure
  | .inr (first, second, third) =>
    return ⟨start, body.stop, .forLoop first (← condition? second) third body⟩

private def expressionOps : List String :=
  ["(", "[", "+", "-", "*", "&", "^", "<-", "!"]

def stmtRule (g : Grammar) : Reader Stmt := do
  let w ← word
  let fromExpr : Reader Stmt := do
    let s ← g.simpleStmt .label
    match s.form with
    | .labeled .. => return s
    | _ =>
      let _ ← semicolon
      return s
  match w.token with
  | .keyword "const" => return (← genDecl "const" (g.valueSpec true)).stmt
  | .keyword "var" => return (← genDecl "var" (g.valueSpec false)).stmt
  | .keyword "type" => return (← genDecl "type" g.typeSpec).stmt
  | .name _ | .literal _ _ => fromExpr
  | .keyword "go" => callStmt g "go" .go
  | .keyword "defer" => callStmt g "defer" .defer
  | .keyword "return" => returnStmt g
  | .keyword "if" => ifStmt g
  | .keyword "switch" => switchStmt g
  | .keyword "select" => selectStmt g
  | .keyword "for" => forStmt g
  | .keyword s =>
    if ["break", "continue", "goto", "fallthrough"].contains s then branchStmt s
    else if ["func", "struct", "map", "chan", "interface"].contains s then fromExpr
    else failure
  | .op "\x7b" =>
    let b ← g.block
    let _ ← semicolon
    return b.stmt
  | .op "\x7d" => return ⟨w.pos, w.pos, .empty true⟩
  | .op s => if expressionOps.contains s then fromExpr else failure
  | .semicolon isWritten =>
    advance
    return ⟨w.pos, if isWritten then w.pos + 1 else w.pos, .empty !isWritten⟩
  | .comment _ | .eof => failure

end Grammar

end PduCompiler.GoSource
