import PduCompiler.GoSource.Comment

/-!
The syntax of a Go source file. Every node keeps the place where it begins and the place after its
end, because a layout depends on the line breaks of the source.
-/

namespace PduCompiler.GoSource

structure Ident where
  pos : Nat
  name : String
  deriving DecidableEq, Repr, Inhabited

def Ident.stop (x : Ident) : Nat := x.pos + x.name.utf8ByteSize

structure Literal where
  pos : Nat
  stop : Nat
  kind : LiteralKind
  text : String
  deriving DecidableEq, Repr, Inhabited

inductive Direction where
  | both
  | send
  | receive
  deriving DecidableEq, Repr

mutual

structure Expr where
  start : Nat
  stop : Nat
  form : ExprForm

inductive ExprForm where
  | ident (name : String)
  | literal (kind : LiteralKind) (text : String)
  | ellipsis (elem : Option Expr)
  | func (type : FuncType) (body : Block)
  | composite (type : Option Expr) (lbrace : Nat) (elems : List Expr) (rbrace : Nat)
  | paren (x : Expr) (rparen : Nat)
  | selector (x : Expr) (name : Ident)
  | index (x : Expr) (lbrack : Nat) (args : List Expr) (rbrack : Nat)
  | slice (x : Expr) (lbrack : Nat) (low high most : Option Expr) (isThree : Bool) (rbrack : Nat)
  | assertion (x : Expr) (lparen : Nat) (type : Option Expr) (rparen : Nat)
  | call (fn : Expr) (lparen : Nat) (args : List Expr) (ellipsis : Option Nat) (rparen : Nat)
  | star (x : Expr)
  | unary (op : String) (x : Expr)
  | binary (x : Expr) (opPos : Nat) (op : String) (y : Expr)
  | keyValue (key : Expr) (colon : Nat) (value : Expr)
  | array (length : Option Expr) (elem : Expr)
  | struct (fields : FieldList)
  | funcType (type : FuncType)
  | interface (methods : FieldList)
  | map (key value : Expr)
  | chan (dir : Direction) (arrow : Nat) (elem : Expr)

structure FuncType where
  func : Option Nat
  typeParams : Option FieldList
  params : FieldList
  results : Option FieldList

structure Field where
  doc : CommentGroup
  names : List Ident
  type : Expr
  tag : Option Literal
  comment : CommentGroup

structure FieldList where
  opening : Option Nat
  fields : List Field
  closing : Option Nat

structure Block where
  lbrace : Nat
  stmts : List Stmt
  rbrace : Nat

structure Stmt where
  start : Nat
  stop : Nat
  form : StmtForm

inductive StmtForm where
  | decl (d : GenDecl)
  | empty (isImplicit : Bool)
  | labeled (label : Ident) (colon : Nat) (body : Stmt)
  | expr (x : Expr)
  | send (chan : Expr) (arrow : Nat) (value : Expr)
  | incDec (x : Expr) (opPos : Nat) (op : String)
  | assign (left : List Expr) (opPos : Nat) (op : String) (right : List Expr)
  | go (call : Expr)
  | defer (call : Expr)
  | returns (results : List Expr)
  | branch (keyword : String) (label : Option Ident)
  | block (b : Block)
  | ifElse (start : Option Stmt) (cond : Expr) (body : Block) (otherwise : Option Stmt)
  | caseClause (values : Option (List Expr)) (colon : Nat) (body : List Stmt)
  | switch (start : Option Stmt) (tag : Option Expr) (body : Block)
  | typeSwitch (start : Option Stmt) (subject : Stmt) (body : Block)
  | commClause (comm : Option Stmt) (colon : Nat) (body : List Stmt)
  | select (body : Block)
  | forLoop (start : Option Stmt) (cond : Option Expr) (post : Option Stmt) (body : Block)
  | forRange (key value : Option Expr) (op : Option (Nat × String)) (x : Expr) (body : Block)

inductive Spec where
  | imported (doc : CommentGroup) (name : Option Ident) (path : Literal) (comment : CommentGroup)
      (stop : Option Nat)
  | value (doc : CommentGroup) (names : List Ident) (type : Option Expr) (values : List Expr)
      (comment : CommentGroup)
  | type (doc : CommentGroup) (name : Ident) (params : Option FieldList) (isAlias : Bool)
      (type : Expr) (comment : CommentGroup)

structure GenDecl where
  doc : CommentGroup
  pos : Nat
  keyword : String
  parens : Option (Nat × Nat)
  specs : List Spec

end

structure FuncDecl where
  doc : CommentGroup
  receiver : Option FieldList
  name : Ident
  type : FuncType
  body : Option Block

inductive Decl where
  | gen (d : GenDecl)
  | func (d : FuncDecl)

structure File where
  doc : CommentGroup
  package : Nat
  name : Ident
  decls : List Decl
  comments : List CommentGroup
  lines : LineTable

instance : Inhabited Expr := ⟨⟨0, 0, .ident ""⟩⟩

instance : Inhabited Stmt := ⟨⟨0, 0, .empty true⟩⟩

def Ident.expr (x : Ident) : Expr := ⟨x.pos, x.stop, .ident x.name⟩

def Field.start (f : Field) : Nat :=
  match f.names with
  | x :: _ => x.pos
  | [] => f.type.start

def Field.stop (f : Field) : Nat :=
  match f.tag with
  | some t => t.stop
  | none => f.type.stop

def FieldList.start (l : FieldList) : Nat := l.opening.getD ((l.fields.head?).elim 0 Field.start)

def FieldList.stop (l : FieldList) : Nat :=
  match l.closing with
  | some p => p + 1
  | none => (l.fields.getLast?).elim 0 Field.stop

def FieldList.count (l : FieldList) : Nat :=
  l.fields.foldl (fun n f => n + max 1 f.names.length) 0

def FuncType.stop (t : FuncType) : Nat :=
  match t.results with
  | some r => r.stop
  | none => t.params.stop

def FuncType.start (t : FuncType) : Nat := t.func.getD t.params.start

def FuncType.expr (t : FuncType) : Expr := ⟨t.start, t.stop, .funcType t⟩

def Block.stop (b : Block) : Nat := b.rbrace + 1

def Block.stmt (b : Block) : Stmt := ⟨b.lbrace, b.stop, .block b⟩

def Spec.doc : Spec → CommentGroup
  | imported doc .. => doc
  | value doc .. => doc
  | type doc .. => doc

def Spec.start : Spec → Nat
  | imported _ name path _ _ => (name.map Ident.pos).getD path.pos
  | value _ names .. => (names.head?).elim 0 Ident.pos
  | type _ name .. => name.pos

def Spec.stop : Spec → Nat
  | imported _ _ path _ stop => stop.getD path.stop
  | value _ names type? values _ =>
    match values.getLast?, type? with
    | some v, _ => v.stop
    | none, some t => t.stop
    | none, none => (names.getLast?).elim 0 Ident.stop
  | type _ _ _ _ t _ => t.stop

def GenDecl.stop (d : GenDecl) : Nat :=
  match d.parens with
  | some (_, r) => r + 1
  | none => (d.specs.head?).elim 0 Spec.stop

def GenDecl.stmt (d : GenDecl) : Stmt := ⟨d.pos, d.stop, .decl d⟩

def FuncDecl.stop (d : FuncDecl) : Nat :=
  match d.body with
  | some b => b.stop
  | none => d.type.stop

def Decl.start : Decl → Nat
  | gen d => d.pos
  | func d => d.type.start

def Decl.stop : Decl → Nat
  | gen d => d.stop
  | func d => d.stop

def Decl.doc : Decl → CommentGroup
  | gen d => d.doc
  | func d => d.doc

end PduCompiler.GoSource
