import PduCompiler.GoSource.Parse.Basic

/-! Reading types, and the lists of fields and parameters in them. -/

namespace PduCompiler.GoSource

namespace Grammar

open Reader

def typeName (first : Option Ident) : Reader Expr := do
  let x ← match first with
    | some x => pure x
    | none => ident
  if ← isOp "." then
    advance
    let name ← ident
    return ⟨x.pos, name.stop, .selector x.expr name⟩
  else return x.expr

def indexed (x : Expr) (lbrack : Nat) (args : List Expr) (rbrack : Nat) : Expr :=
  ⟨x.start, rbrack + 1, .index x lbrack args rbrack⟩

def typeInstance (g : Grammar) (x : Expr) : Reader Expr := do
  let lbrack ← expect "["
  let args ← nested (listUntil "]" g.type)
  let rbrack ← expect "]"
  if args.isEmpty then failure else return indexed x lbrack args rbrack

def qualifiedIdent (g : Grammar) (first : Option Ident) : Reader Expr := do
  let x ← typeName first
  if ← isOp "[" then g.typeInstance x else return x

def arrayType (g : Grammar) (lbrack : Nat) (length : Option Expr) : Reader Expr := do
  let length ← match length with
    | some n => pure (some n)
    | none => nested do
      if ← isOp "..." then
        let p ← expect "..."
        return some ⟨p, p + 3, .ellipsis none⟩
      else if ← isOp "]" then return none
      else return some (← g.right)
  let _ ← expect "]"
  let elem ← g.type
  return ⟨lbrack, elem.stop, .array length elem⟩

/-- After a name and before a bracket it is not yet known whether the name is that of a field of
array type or of a generic type. -/
def arrayFieldOrInstance (g : Grammar) (x : Ident) : Reader (Option Ident × Expr) := do
  let lbrack ← expect "["
  let (args, hasTrailing) ← nested <| loop ([], false) fun (args, hasTrailing) => do
    if ← isOp "]" then return .inr (args, hasTrailing)
    else
      let arg ← g.right
      if ← isOp "," then
        advance
        return .inl (args ++ [arg], true)
      else return .inr (args ++ [arg], false)
  let rbrack ← expect "]"
  match args with
  | [] =>
    let elem ← g.type
    return (some x, ⟨lbrack, elem.stop, .array none elem⟩)
  | [n] =>
    match ← g.type? with
    | some elem =>
      if hasTrailing then failure
      else return (some x, ⟨lbrack, elem.stop, .array (some n) elem⟩)
    | none => return (none, indexed x.expr lbrack args rbrack)
  | _ => return (none, indexed x.expr lbrack args rbrack)

def fieldNames (g : Grammar) : Reader (List Ident × Expr) := do
  match ← token with
  | .name _ =>
    let x ← ident
    let isEmbedded := match ← token with
      | .op "." | .literal .string _ | .semicolon _ | .op "\x7d" => true
      | _ => false
    if isEmbedded then
      let type ← if ← isOp "." then g.qualifiedIdent (some x) else pure x.expr
      return ([], type)
    else
      let others ← whileM (isOp ",") do
        advance
        ident
      if others.isEmpty && (← isOp "[") then
        let (name, type) ← g.arrayFieldOrInstance x
        return (name.toList, type)
      else return (x :: others, ← g.type)
  | .op "*" =>
    let star ← expect "*"
    let x ← g.qualifiedIdent none
    return ([], ⟨star, x.stop, .star x⟩)
  | _ => failure

def tag? : Reader (Option Literal) := do
  let w ← word
  match w.token with
  | .literal .string s =>
    advance
    return some ⟨w.pos, w.stop, .string, s⟩
  | _ => return none

def field (g : Grammar) : Reader Field := do
  let doc := (← word).lead
  let (names, type) ← g.fieldNames
  let tag ← tag?
  let comment ← semicolon
  return ⟨doc, names, type, tag, comment⟩

def structType (g : Grammar) : Reader Expr := do
  let start ← expectKeyword "struct"
  let lbrace ← expect "\x7b"
  let fields ← whileM (do
    match ← token with
    | .name _ | .op "*" | .op "(" => return true
    | _ => return false) g.field
  let rbrace ← expect "\x7d"
  return ⟨start, rbrace + 1, .struct ⟨some lbrace, fields, some rbrace⟩⟩

def unionTerm (g : Grammar) : Reader Expr := do
  if ← isOp "~" then
    let p ← expect "~"
    let x ← g.type
    return ⟨p, x.stop, .unary "~" x⟩
  else g.type

def union (g : Grammar) (first : Option Expr) : Reader Expr := do
  let x ← match first with
    | some x => pure x
    | none => g.unionTerm
  loop x fun x => do
    if ← isOp "|" then
      let p ← expect "|"
      let y ← g.unionTerm
      return .inl ⟨x.start, y.stop, .binary x p "|" y⟩
    else return .inr x

def variadic (g : Grammar) : Reader Expr := do
  let p ← expect "..."
  let elem ← g.type
  return ⟨p, elem.stop, .ellipsis (some elem)⟩

/-- A parameter as it is read: what looks like a name may turn out to be a type. -/
structure Param where
  name : Option Ident
  type : Option Expr

private def beginsType : Token → Bool
  | .op s => ["*", "<-", "["].contains s || s = "("
  | .keyword s => ["func", "chan", "map", "struct", "interface"].contains s
  | _ => false

private def paramAfterName (g : Grammar) (x : Ident) (isTypeParam : Bool) : Reader Param := do
  match ← token with
  | .op "[" =>
    let (name, type) ← g.arrayFieldOrInstance x
    return ⟨name, some type⟩
  | .op "." => return ⟨none, some (← g.qualifiedIdent (some x))⟩
  | .op "~" => if isTypeParam then return ⟨some x, some (← g.union none)⟩ else return ⟨some x, none⟩
  | .op "|" =>
    if isTypeParam then return ⟨none, some (← g.union (some x.expr))⟩ else return ⟨some x, none⟩
  | .op "..." => return ⟨some x, some (← g.variadic)⟩
  | .name _ => return ⟨some x, some (← g.type)⟩
  | t => if beginsType t then return ⟨some x, some (← g.type)⟩ else return ⟨some x, none⟩

def param (g : Grammar) (first : Option Ident) (isTypeParam : Bool) : Reader Param := do
  let p : Param ← match first, ← token with
    | some x, _ => paramAfterName g x isTypeParam
    | none, .name _ => do paramAfterName g (← ident) isTypeParam
    | none, .op "..." => pure ⟨none, some (← g.variadic)⟩
    | none, .op "~" => if isTypeParam then pure ⟨none, some (← g.union none)⟩ else failure
    | none, t => if beginsType t then pure ⟨none, some (← g.type)⟩ else failure
  match p.type with
  | some t =>
    match t.form with
    | .ellipsis _ => return p
    | _ =>
      if isTypeParam && (← isOp "|") then return ⟨p.name, some (← g.union (some t))⟩ else return p
  | none => return p

private def plainField (names : List Ident) (type : Expr) : Field := ⟨[], names, type, none, []⟩

private def namedFields? (names : List Ident) : List Param → Option (List Field)
  | [] => if names.isEmpty then some [] else none
  | p :: rest => do
    let names := names ++ [← p.name]
    match p.type with
    | some t => return plainField names t :: (← namedFields? [] rest)
    | none => namedFields? names rest

private def isVariadic (t : Expr) : Bool :=
  match t.form with
  | .ellipsis _ => true
  | _ => false

/-- Only the last parameter of a function may take any number of arguments. -/
private def isVariadicFit (allowed : Bool) (fields : List Field) : Bool :=
  fields.dropLast.all (!isVariadic ·.type) &&
    (fields.getLast?).all fun f => !isVariadic f.type || (allowed && f.names.length ≤ 1)

/-- The fields that a list of parameters declares. If no parameter has both a name and a type, all
are types; otherwise all have names. A type parameter always has one. -/
def fieldsOf? (isTypeParams isVariadicOk : Bool) (params : List Param) : Option (List Field) := do
  let fields ←
    if params.isEmpty then some []
    else if params.any fun p => p.name.isSome && p.type.isSome then namedFields? [] params
    else if isTypeParams then none
    else params.mapM fun p =>
      match p.type, p.name with
      | some t, _ => some (plainField [] t)
      | none, some x => some (plainField [] x.expr)
      | none, none => none
  if isVariadicFit isVariadicOk fields then some fields else none

def params (g : Grammar) (name : Option Ident) (type : Option Expr) (closing : String)
    (isVariadicOk : Bool) : Reader (List Field) := do
  let isTypeParams := closing == "]"
  let list ← loop (name, type, []) fun (name, type, list) => do
    if name.isNone && ((← isOp closing) || (← isEof)) then return .inr list
    else
      let p ← match type with
        | some t => do
          let t ← if isTypeParams then g.union (some t) else pure t
          pure ⟨name, some t⟩
        | none => g.param name isTypeParams
      if ← hasComma closing then
        advance
        return .inl (none, none, list ++ [p])
      else return .inr (list ++ [p])
  match fieldsOf? isTypeParams isVariadicOk list with
  | some fields => return fields
  | none => failure

def parameters (g : Grammar) (isResult : Bool) : Reader FieldList := do
  let lparen ← expect "("
  let fields ← g.params none none ")" (!isResult)
  let rparen ← expect ")"
  return ⟨some lparen, fields, some rparen⟩

def result? (g : Grammar) : Reader (Option FieldList) := do
  if ← isOp "(" then return some (← g.parameters true)
  else match ← g.type? with
    | some t => return some ⟨none, [plainField [] t], none⟩
    | none => return none

def funcType (g : Grammar) : Reader FuncType := do
  let func ← expectKeyword "func"
  let params ← g.parameters false
  return ⟨some func, none, params, ← g.result?⟩

def method (g : Grammar) : Reader (List Ident × Expr) := do
  let x ← typeName none
  match x.form, ← token with
  | .ident name, .op "[" =>
    let lbrack ← expect "["
    let first ← nested g.expr
    let others ← if ← hasComma "]" then nested do
        advance
        listUntil "]" g.type
      else pure []
    let rbrack ← expect "]"
    return ([], indexed ⟨x.start, x.stop, .ident name⟩ lbrack (first :: others) rbrack)
  | .ident name, .op "(" =>
    let params ← g.parameters false
    let type : FuncType := ⟨none, none, params, ← g.result?⟩
    return ([⟨x.start, name⟩], type.expr)
  | .ident _, _ => return ([], x)
  | _, .op "[" => return ([], ← g.typeInstance x)
  | _, _ => return ([], x)

def element? (g : Grammar) : Reader (Option Field) := do
  match ← token with
  | .name _ =>
    let doc := (← word).lead
    let (names, type) ← g.method
    let type ← if names.isEmpty then g.union (some type) else pure type
    return some ⟨doc, names, type, none, ← semicolon⟩
  | .op "~" =>
    let type ← g.union none
    return some ⟨[], [], type, none, ← semicolon⟩
  | _ =>
    match ← g.type? with
    | some t =>
      let type ← g.union (some t)
      return some ⟨[], [], type, none, ← semicolon⟩
    | none => return none

def interfaceType (g : Grammar) : Reader Expr := do
  let start ← expectKeyword "interface"
  let lbrace ← expect "\x7b"
  let elements ← loop [] fun elements => do
    match ← g.element? with
    | some f => return .inl (elements ++ [f])
    | none => return .inr elements
  let rbrace ← expect "\x7d"
  return ⟨start, rbrace + 1, .interface ⟨some lbrace, elements, some rbrace⟩⟩

def mapType (g : Grammar) : Reader Expr := do
  let start ← expectKeyword "map"
  let _ ← expect "["
  let key ← g.type
  let _ ← expect "]"
  let value ← g.type
  return ⟨start, value.stop, .map key value⟩

def chanType (g : Grammar) : Reader Expr := do
  let start ← pos
  if ← isKeyword "chan" then
    advance
    if ← isOp "<-" then
      let arrow ← expect "<-"
      let elem ← g.type
      return ⟨start, elem.stop, .chan .send arrow elem⟩
    else
      let elem ← g.type
      return ⟨start, elem.stop, .chan .both 0 elem⟩
  else
    let arrow ← expect "<-"
    let _ ← expectKeyword "chan"
    let elem ← g.type
    return ⟨start, elem.stop, .chan .receive arrow elem⟩

def typeRule (g : Grammar) : Reader (Option Expr) := do
  let w ← word
  match w.token with
  | .name _ => return some (← g.qualifiedIdent none)
  | .op "[" =>
    advance
    return some (← g.arrayType w.pos none)
  | .op "*" =>
    advance
    let x ← g.type
    return some ⟨w.pos, x.stop, .star x⟩
  | .op "(" =>
    advance
    let x ← g.type
    let rparen ← expect ")"
    return some ⟨w.pos, rparen + 1, .paren x rparen⟩
  | .op "<-" | .keyword "chan" => return some (← g.chanType)
  | .keyword "struct" => return some (← g.structType)
  | .keyword "func" => return some (← g.funcType).expr
  | .keyword "interface" => return some (← g.interfaceType)
  | .keyword "map" => return some (← g.mapType)
  | _ => return none

end Grammar

end PduCompiler.GoSource
