import PduCompiler.GoSource.Parse.Stmt

/-! Reading a source file: its package, its imports and its declarations. -/

namespace PduCompiler.GoSource

namespace Grammar

open Reader

def ofDepth : Nat → Grammar
  | 0 => ⟨failure, failure, fun _ => failure, fun _ => failure, failure⟩
  | n + 1 =>
    { type? := fun s => typeRule (ofDepth n) s
      unary := fun s => unaryRule (ofDepth n) s
      binary := fun least s => binaryRule (ofDepth n) least s
      literal := fun type s => literalRule (ofDepth n) type s
      stmt := fun s => stmtRule (ofDepth n) s }

def funcDecl (g : Grammar) : Reader FuncDecl := do
  let doc := (← word).lead
  let start ← expectKeyword "func"
  let receiver ← if ← isOp "(" then pure (some (← g.parameters false)) else pure none
  let name ← ident
  let typeParams ← if ← isOp "[" then do
      let lbrack ← expect "["
      let fields ← g.params none none "]" false
      let rbrack ← expect "]"
      if fields.isEmpty then failure
      pure (some ⟨some lbrack, fields, some rbrack⟩)
    else pure none
  let params ← g.parameters false
  let results ← g.result?
  let type : FuncType := ⟨some start, typeParams, params, results⟩
  if ← isOp "\x7b" then
    let body ← g.block
    let _ ← semicolon
    return ⟨doc, receiver, name, type, some body⟩
  else if ← isSemicolon then
    advance
    if ← isOp "\x7b" then failure else return ⟨doc, receiver, name, type, none⟩
  else
    let _ ← semicolon
    return ⟨doc, receiver, name, type, none⟩

def decl (g : Grammar) : Reader Decl := do
  match ← token with
  | .keyword "const" => return .gen (← genDecl "const" (g.valueSpec true))
  | .keyword "var" => return .gen (← genDecl "var" (g.valueSpec false))
  | .keyword "type" => return .gen (← genDecl "type" g.typeSpec)
  | .keyword "func" => return .func (← g.funcDecl)
  | _ => failure

def isDecl : Reader Bool := do
  match ← token with
  | .keyword s => return ["import", "const", "var", "type", "func"].contains s
  | _ => return false

def file (g : Grammar) (comments : List CommentGroup) (lines : LineTable) : Reader File := do
  let doc := (← word).lead
  let package ← expectKeyword "package"
  let name ← ident
  let _ ← semicolon
  let imports ← whileM (isKeyword "import") do return .gen (← genDecl "import" importSpec)
  let decls ← whileM isDecl g.decl
  return ⟨doc, package, name, imports ++ decls, comments, lines⟩

end Grammar

inductive Opening where
  | whole (f : File)
  | declarations
  | other

/-- Reads a source. A construct nests another only after a word, and at most eight times for that
word. -/
def Opening.ofSource? (source : String) : Option Opening := do
  let s := source.toList
  let lines := LineTable.ofSource s
  let (words, comments) := wordsOf lines (← lexemes? s)
  let g := Grammar.ofDepth (8 * words.length + 8)
  let start : Reading := ⟨words, 0, false, words.length⟩
  let hasPackage ← (Reader.isKeyword "package").run' start
  if hasPackage then
    let (file, rest) ← (g.file comments lines).run start
    return if ← Reader.isEof.run' rest then whole file else declarations
  else return other

end PduCompiler.GoSource
