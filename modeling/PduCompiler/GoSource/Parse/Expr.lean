import PduCompiler.GoSource.Parse.Type

/-! Reading expressions. -/

namespace PduCompiler.GoSource

def Expr.unparen : Expr → Expr
  | ⟨_, _, .paren x _⟩ => x.unparen
  | x => x

def Expr.isParen (x : Expr) : Bool :=
  match x.form with
  | .paren _ _ => true
  | _ => false

def precedence (op : String) : Nat :=
  if op = "||" then 1
  else if op = "&&" then 2
  else if ["==", "!=", "<", "<=", ">", ">="].contains op then 3
  else if ["+", "-", "|", "^"].contains op then 4
  else if ["*", "/", "%", "<<", ">>", "&", "&^"].contains op then 5
  else 0

/-- An arrow before a channel type belongs to the type. If that makes a channel to send on one to
receive from, the arrow of the former belongs to its elements. -/
def Expr.withArrow? (arrow : Nat) : Expr → Option Expr
  | ⟨_, stop, .chan .both _ elem⟩ => some ⟨arrow, stop, .chan .receive arrow elem⟩
  | ⟨_, stop, .chan .send inner elem⟩ =>
    (elem.withArrow? inner).map fun elem => ⟨arrow, stop, .chan .receive arrow elem⟩
  | _ => none

def Expr.isChan (x : Expr) : Bool :=
  match x.form with
  | .chan .. => true
  | _ => false

namespace Grammar

open Reader

def funcTypeOrLiteral (g : Grammar) : Reader Expr := do
  let type ← g.funcType
  if ← isOp "\x7b" then
    let body ← nested g.block
    return ⟨type.start, body.stop, .func type body⟩
  else return type.expr

def operand (g : Grammar) : Reader Expr := do
  let w ← word
  match w.token with
  | .name s =>
    advance
    return (⟨w.pos, s⟩ : Ident).expr
  | .literal kind s =>
    advance
    return ⟨w.pos, w.stop, .literal kind s⟩
  | .op "(" =>
    advance
    let x ← nested g.right
    let rparen ← expect ")"
    return ⟨w.pos, rparen + 1, .paren x rparen⟩
  | .keyword "func" => g.funcTypeOrLiteral
  | _ => g.type

private def bounds (g : Grammar) : Reader (List (Option Expr)) :=
  loop [] fun list => do
    if list.length < 2 && (← isOp ":") then
      advance
      if (← isOp ":") || (← isOp "]") || (← isEof) then return .inl (list ++ [none])
      else return .inl (list ++ [some (← g.right)])
    else return .inr list

/-- An index, a slice or type arguments. A slice with three bounds has the last two of them. -/
def indexOrSlice (g : Grammar) (x : Expr) : Reader Expr := do
  let lbrack ← expect "["
  if ← isOp "]" then failure
  else
    let (low, rest, args) ← nested do
      let low ← if ← isOp ":" then pure none else pure (some (← g.right))
      match low, ← token with
      | _, .op ":" => return (low, ← bounds g, [])
      | some first, .op "," =>
        let others ← whileM (isOp ",") do
          advance
          if ← isOp "]" then return none else return some (← g.type)
        return (low, [], first :: others.filterMap id)
      | _, _ => return (low, [], low.toList)
    let rbrack ← expect "]"
    let slice (high most : Option Expr) (isThree : Bool) : Expr :=
      ⟨x.start, rbrack + 1, .slice x lbrack low high most isThree rbrack⟩
    match rest with
    | [] => return indexed x lbrack args rbrack
    | [high] => return slice high none false
    | [some high, some most] => return slice (some high) (some most) true
    | _ => failure

def call (g : Grammar) (fn : Expr) : Reader Expr := do
  let lparen ← expect "("
  let (args, ellipsis) ← nested <| loop ([], none) fun (args, ellipsis) => do
    if (← isOp ")") || (← isEof) || ellipsis.isSome then return .inr (args, ellipsis)
    else
      let arg ← g.right
      let ellipsis ← if ← isOp "..." then pure (some (← expect "...")) else pure none
      if ← hasComma ")" then
        advance
        return .inl (args ++ [arg], ellipsis)
      else return .inr (args ++ [arg], ellipsis)
  let rparen ← expect ")"
  return ⟨fn.start, rparen + 1, .call fn lparen args ellipsis rparen⟩

private def elementValue (g : Grammar) : Reader Expr := do
  if ← isOp "\x7b" then g.literal none else g.expr

def compositeElement (g : Grammar) : Reader Expr := do
  let x ← elementValue g
  if ← isOp ":" then
    let colon ← expect ":"
    let value ← elementValue g
    return ⟨x.start, value.stop, .keyValue x colon value⟩
  else return x

def literalRule (g : Grammar) (type : Option Expr) : Reader Expr := do
  let lbrace ← expect "\x7b"
  let elems ← nested (listUntil "\x7d" g.compositeElement)
  let rbrace ← expect "\x7d"
  return ⟨(type.map Expr.start).getD lbrace, rbrace + 1, .composite type lbrace elems rbrace⟩

private def takesLiteral (x : Expr) (level : Int) : Bool :=
  match x.unparen.form with
  | .ident _ | .selector _ _ | .index .. => level ≥ 0
  | .array _ _ | .struct _ | .map _ _ => true
  | _ => false

def primaryAfter (g : Grammar) (x : Expr) : Reader Expr :=
  loop x fun x => do
    match ← token with
    | .op "." =>
      advance
      match ← token with
      | .name _ =>
        let name ← ident
        return .inl ⟨x.start, name.stop, .selector x name⟩
      | .op "(" =>
        let lparen ← expect "("
        let type ← if ← isKeyword "type" then do
            advance
            pure none
          else pure (some (← g.type))
        let rparen ← expect ")"
        return .inl ⟨x.start, rparen + 1, .assertion x lparen type rparen⟩
      | _ => failure
    | .op "[" => return .inl (← g.indexOrSlice x)
    | .op "(" => return .inl (← g.call x)
    | .op "\x7b" =>
      if takesLiteral x (← get).level then
        if x.isParen then failure else return .inl (← g.literal (some x))
      else return .inr x
    | _ => return .inr x

def unaryRule (g : Grammar) : Reader Expr := do
  let w ← word
  match w.token with
  | .op "<-" =>
    advance
    let x ← g.unary
    if x.isChan then
      match x.withArrow? w.pos with
      | some t => return t
      | none => failure
    else return ⟨w.pos, x.stop, .unary "<-" x⟩
  | .op "*" =>
    advance
    let x ← g.unary
    return ⟨w.pos, x.stop, .star x⟩
  | .op s =>
    if ["+", "-", "!", "^", "&", "~"].contains s then
      advance
      let x ← g.unary
      return ⟨w.pos, x.stop, .unary s x⟩
    else g.primaryAfter (← g.operand)
  | _ => g.primaryAfter (← g.operand)

/-- What follows an operand of operators that bind at least so strongly. An assignment cannot stand
where nothing is assigned to. -/
def binaryAfter (g : Grammar) (x : Expr) (least : Nat) : Reader Expr :=
  loop x fun x => do
    match ← token with
    | .op s =>
      if s = "=" && (← get).isRight && least ≤ 3 then failure
      else
        let strength := precedence s
        if strength < max least 1 then return .inr x
        else
          let p ← expect s
          let y ← g.binary (strength + 1)
          return .inl ⟨x.start, y.stop, .binary x p s y⟩
    | _ => return .inr x

def binaryRule (g : Grammar) (least : Nat) : Reader Expr := do g.binaryAfter (← g.unary) least

end Grammar

end PduCompiler.GoSource
