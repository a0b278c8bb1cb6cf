import PduCompiler.GoSource.BuildLines
import PduCompiler.GoSource.Layout.Stmt

/-! The layout of a source file. -/

namespace PduCompiler.GoSource.Layout

namespace Rules

private def funcDecl (r : Rules) (d : FuncDecl) : Printer Unit := do
  setComment d.doc
  setPos d.type.start
  token "func"
  space .blank
  let column : Int := (← get).column - 5
  match d.receiver with
  | some l =>
    r.parameters l .function
    space .blank
  | none => pure ()
  ident d.name
  r.signature d.type
  match d.body with
  | some b => r.funcBody (r.block true) (← distanceFrom d.type.start column) .softTab b
  | none => return

private def declKeyword : Decl → String
  | .gen d => d.keyword
  | .func _ => "func"

/-- Declarations of one kind may follow each other without a blank line, unless they are
documented. -/
private def declList (r : Rules) (before : String) : List Decl → Printer Unit
  | [] => return
  | d :: rest => do
    let keyword := declKeyword d
    let least := if keyword ≠ before || !d.doc.isEmpty then 2 else 1
    let line ← lineOf d.start
    let isLong := keyword == "func" && line < (← lineOf d.stop)
    let _ ← lineBreak line least .ignore isLong
    match d with
    | .gen d => r.genDecl d
    | .func d => funcDecl r d
    declList r keyword rest

def file (r : Rules) (f : File) : Printer Unit := do
  setPos f.package
  token "package"
  space .blank
  ident f.name
  declList r "" f.decls
  space .newline

end Rules

/-- The text of a source file in the standard layout, with so many levels of indentation left out. A
construct nests another only within its own text, and at most eight times for each of its
characters. -/
def text (f : File) (outdent length : Nat) : String :=
  let rules := Rules.ofDepth (8 * length + 8)
  let blank := { Page.blank f.lines false f.comments with outdent }
  let page := ((do rules.file f; finish : Printer Unit).run blank).2
  aligned (hoistConstraints page.pieces page.constraints.toList page.oldConstraints.toList)

end PduCompiler.GoSource.Layout
