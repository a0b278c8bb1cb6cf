import PduCompiler.GoSource.Parse.Stmt

/-!
Needless parentheses. Around the condition of a statement they can go, unless there is a composite
literal of a named type inside that no other parentheses protect: its brace would open the block.
-/

namespace PduCompiler.GoSource

inductive Node where
  | expr (x : Expr)
  | stmt (s : Stmt)
  | fields (l : FieldList)
  | signature (t : FuncType)
  | block (b : Block)
  | decl (d : GenDecl)

namespace Node

private def exprs (l : List Expr) : List Node := l.map .expr

private def exprChildren (x : Expr) : List Node :=
  match x.form with
  | .ident _ | .literal _ _ => []
  | .ellipsis elem => exprs elem.toList
  | .func type body => [.signature type, .block body]
  | .composite type _ elems _ => exprs (type.toList ++ elems)
  | .paren x _ => [.expr x]
  | .selector x _ => [.expr x]
  | .index x _ args _ => exprs (x :: args)
  | .slice x _ low high most _ _ => exprs (x :: low.toList ++ high.toList ++ most.toList)
  | .assertion x _ type _ => exprs (x :: type.toList)
  | .call fn _ args _ _ => exprs (fn :: args)
  | .star x => [.expr x]
  | .unary _ x => [.expr x]
  | .binary x _ _ y => exprs [x, y]
  | .keyValue key _ value => exprs [key, value]
  | .array length elem => exprs (length.toList ++ [elem])
  | .struct l => [.fields l]
  | .funcType t => [.signature t]
  | .interface l => [.fields l]
  | .map key value => exprs [key, value]
  | .chan _ _ elem => [.expr elem]

private def stmts (l : List Stmt) : List Node := l.map .stmt

private def stmtChildren (s : Stmt) : List Node :=
  match s.form with
  | .decl d => [.decl d]
  | .empty _ => []
  | .labeled _ _ body => [.stmt body]
  | .expr x => [.expr x]
  | .send chan _ value => exprs [chan, value]
  | .incDec x _ _ => [.expr x]
  | .assign left _ _ right => exprs (left ++ right)
  | .go call => [.expr call]
  | .defer call => [.expr call]
  | .returns results => exprs results
  | .branch _ _ => []
  | .block b => [.block b]
  | .ifElse start cond body otherwise =>
    stmts start.toList ++ [.expr cond, .block body] ++ stmts otherwise.toList
  | .caseClause values _ body => exprs (values.getD []) ++ stmts body
  | .switch start tag body => stmts start.toList ++ exprs tag.toList ++ [.block body]
  | .typeSwitch start subject body => stmts start.toList ++ [.stmt subject, .block body]
  | .commClause comm _ body => stmts (comm.toList ++ body)
  | .select body => [.block body]
  | .forLoop start cond post body =>
    stmts start.toList ++ exprs cond.toList ++ stmts post.toList ++ [.block body]
  | .forRange key value _ x body => exprs (key.toList ++ value.toList ++ [x]) ++ [.block body]

def children : Node → List Node
  | expr x => exprChildren x
  | stmt s => stmtChildren s
  | fields l => l.fields.map fun f => .expr f.type
  | signature t =>
    t.typeParams.toList.map .fields ++ .fields t.params :: t.results.toList.map .fields
  | block b => stmts b.stmts
  | decl d => d.specs.flatMap fun s =>
    match s with
    | .imported .. => []
    | .value _ _ type values _ => exprs (type.toList ++ values)
    | .type _ _ params _ type _ => params.toList.map .fields ++ [.expr type]

end Node

def Expr.isTypeName : Expr → Bool
  | ⟨_, _, .ident _⟩ => true
  | ⟨_, _, .selector x _⟩ => x.isTypeName
  | _ => false

/-- Whether there is a composite literal of a named type that no parentheses protect, at most so
deep. -/
def Node.exposesLiteral : (depth : Nat) → Node → Bool
  | 0, _ => false
  | depth + 1, n =>
    match n with
    | .expr ⟨_, _, .paren _ _⟩ => false
    | .expr ⟨_, _, .composite type _ _ _⟩ => type.any Expr.isTypeName
    | n => n.children.any (exposesLiteral depth)

/-- The expression without parentheses that protect nothing. A node has at most four nodes for each
of its characters around a part of it. -/
def Expr.stripped : Expr → Expr
  | ⟨start, stop, .paren x rparen⟩ =>
    if Node.exposesLiteral (4 * (stop - start) + 4) (.expr x) then ⟨start, stop, .paren x rparen⟩
    else x.stripped
  | x => x

end PduCompiler.GoSource
