import PduCompiler.GoSource.Layout.Expr

/-! The layout of statements, and of the declarations that can stand among them. -/

namespace PduCompiler.GoSource.Layout

namespace Rules

private def isEmptyStmt (s : Stmt) : Bool :=
  match s.form with
  | .empty _ => true
  | _ => false

def labelCount : Stmt → Nat
  | ⟨_, _, .labeled _ _ body⟩ => labelCount body + 1
  | _ => 0

/-- Statements on lines of their own; empty ones are left out. `count` is the number of all
statements and `i` the number of those laid out. Labels have lines of their own, which do not
count. -/
private def stmtLines (r : Rules) (slot count : Nat) (isIndented isEnd : Bool) :
    (i : Nat) → List Stmt → Printer Unit
  | _, [] => return
  | i, s :: rest => do
    if isEmptyStmt s then stmtLines r slot count isIndented isEnd i rest
    else
      if !(← get).pieces.isEmpty then
        let isSection := i == 0 || !isIndented || (← hasLinesFrom slot)
        let _ ← lineBreak (← lineOf s.start) 1 .ignore isSection
      recordLine slot
      r.stmt s (isEnd && i + 1 == count)
      modify fun p =>
        { p with slots := p.slots.setIfInBounds slot (p.slots.getD slot 0 + labelCount s) }
      stmtLines r slot count isIndented isEnd (i + 1) rest

def stmtList (r : Rules) (list : List Stmt) (isIndented isEnd : Bool) : Printer Unit := do
  if isIndented then space .indent
  let slot ← newSlot
  stmtLines r slot list.length isIndented isEnd 0 list
  if isIndented then space .unindent

def block (r : Rules) (isIndented : Bool) (b : Block) : Printer Unit := do
  setPos b.lbrace
  token "\x7b"
  r.stmtList b.stmts isIndented true
  let _ ← lineBreak (← lineOf b.rbrace) 1 .ignore true
  setPos b.rbrace
  token "\x7d"

private def controlClause (r : Rules) (isFor : Bool) (start : Option Stmt) (cond : Option Expr)
    (post : Option Stmt) : Printer Unit := do
  space .blank
  let condition : Printer Unit :=
    match cond with
    | some x => r.plain x.stripped
    | none => pure ()
  if start.isNone && post.isNone then
    condition
    if cond.isSome then space .blank
  else
    match start with
    | some s => r.stmt s false
    | none => pure ()
    token ";"
    space .blank
    condition
    if isFor then
      token ";"
      space .blank
      match post with
      | some s =>
        r.stmt s false
        space .blank
      | none => pure ()
    else if cond.isSome then space .blank

private def isComposite (x : Expr) : Bool :=
  let isLiteral (x : Expr) : Bool :=
    match x.unparen.form with
    | .composite .. => true
    | _ => false
  match x.unparen.form with
  | .unary "&" y => isLiteral y
  | _ => isLiteral x

/-- Whether results are better indented from the first one on: if one does not begin on the line
where the one before it ends, or if several of them have more than one line and are no composite
literals. -/
private def isIndentedWhole (list : List Expr) : Printer Bool := do
  let lines := (← get).lines
  match list with
  | first :: _ :: _ =>
    let spans := list.map fun x => (lines.lineAt x.start, lines.lineAt x.stop, isComposite x)
    let (isApart, broken, _) := spans.foldl
      (fun (isApart, broken, line) (start, stop, isComposite) =>
        let isBroken := start < stop && !isComposite
        (isApart || line < start, if isBroken then broken + 1 else broken, stop))
      (false, 0, lines.lineAt first.start)
    return isApart || broken > 1
  | _ => return false

private def returnStmt (r : Rules) (results : List Expr) : Printer Unit := do
  token "return"
  if !results.isEmpty then
    space .blank
    if ← isIndentedWhole results then
      space .indent
      r.exprList none results 1 flatListStyle none
      space .unindent
    else r.exprList none results 1 listStyle none

/-- Which of the constants or variables of a group keep a column for their type even if they have
none: those in a run of specifications with values in which one has a type. -/
def keepsType (specs : List Spec) : List Bool :=
  go false false [] specs
where
  go (isRun hasType : Bool) (run : List Bool) : List Spec → List Bool
    | [] => run.map fun _ => hasType
    | s :: rest =>
      let (typed, valued) := match s with
        | .value _ _ type values _ => (type.isSome, !values.isEmpty)
        | _ => (false, false)
      if valued then go true ((isRun && hasType) || typed) (true :: run) rest
      else (run.map fun _ => hasType) ++ false :: go false false [] rest

private def valueColumns (r : Rules) (s : Spec) (keepsType : Bool) : Printer Unit := do
  match s with
  | .value doc names type values comment =>
    setComment doc
    r.identList names false
    if type.isSome || keepsType then space .softTab
    match type with
    | some t => r.plain t
    | none => pure ()
    if !values.isEmpty then
      space .softTab
      token "="
      space .blank
      r.exprList none values 1 listStyle none
    if !comment.isEmpty then
      let used := (if type.isSome || keepsType then 1 else 0) + (if values.isEmpty then 0 else 1)
      for _ in List.range (3 - used) do space .softTab
      setComment comment
  | _ => return

private def spec (r : Rules) (s : Spec) (isSingle isIndented : Bool) : Printer Unit := do
  match s with
  | .imported doc x path comment stop =>
    setComment doc
    match x with
    | some x =>
      ident x
      space .blank
    | none => pure ()
    setPos path.pos
    literal .string path.text
    setComment comment
    match stop with
    | some p => setPos p
    | none => pure ()
  | .value doc names type values comment =>
    setComment doc
    r.identList names isIndented
    match type with
    | some t =>
      space .blank
      r.plain t
    | none => pure ()
    if !values.isEmpty then
      space .blank
      token "="
      space .blank
      r.exprList none values 1 listStyle none
    setComment comment
  | .type doc x params isAlias type comment =>
    setComment doc
    ident x
    match params with
    | some l => r.parameters l .declaredType
    | none => pure ()
    space (if isSingle then .blank else .softTab)
    if isAlias then
      token "="
      space .blank
    r.plain type
    setComment comment

private def specLines (slot : Nat) (line : Spec × Bool → Printer Unit) :
    (isFirst : Bool) → List (Spec × Bool) → Printer Unit
  | _, [] => return
  | isFirst, s :: rest => do
    if !isFirst then
      let _ ← lineBreak (← lineOf s.1.start) 1 .ignore (← hasLinesFrom slot)
    recordLine slot
    line s
    specLines slot line false rest

def genDecl (r : Rules) (d : GenDecl) : Printer Unit := do
  setComment d.doc
  setPos d.pos
  token d.keyword
  space .blank
  match d.parens, d.specs with
  | some (lparen, rparen), specs =>
    setPos lparen
    token "("
    if !specs.isEmpty then
      space .indent
      space .formFeed
      let slot ← newSlot
      let isSingle := specs.length == 1
      if !isSingle && (d.keyword = "const" || d.keyword = "var") then
        specLines slot (fun (s, keeps) => valueColumns r s keeps) true (specs.zip (keepsType specs))
      else
        specLines slot (fun (s, _) => spec r s isSingle false) true (specs.map fun s => (s, false))
      space .unindent
      space .formFeed
    setPos rparen
    token ")"
  | none, s :: _ => spec r s true true
  | none, [] => return

private def labeledStmt (r : Rules) (label : Ident) (colon : Nat) (body : Stmt) (isEnd : Bool) :
    Printer Unit := do
  space .unindent
  ident label
  setPos colon
  token ":"
  space .indent
  if isEmptyStmt body then
    if isEnd then r.stmt body isEnd
    else
      space .newline
      setPos body.start
      token ";"
  else
    let _ ← lineBreak (← lineOf body.start) 1 .ignore true
    r.stmt body isEnd

def stmtRule (r : Rules) (s : Stmt) (isEnd : Bool) : Printer Unit := do
  setPos s.start
  match s.form with
  | .decl d => r.genDecl d
  | .empty _ => return
  | .labeled label colon body => labeledStmt r label colon body isEnd
  | .expr x => r.nested x 1
  | .send chan arrow value =>
    r.nested chan 1
    space .blank
    setPos arrow
    token "<-"
    space .blank
    r.nested value 1
  | .incDec x opPos op =>
    r.nested x 2
    setPos opPos
    token op
  | .assign left opPos op right =>
    let depth := if left.length > 1 && right.length > 1 then 2 else 1
    r.exprList (some s.start) left depth listStyle (some opPos)
    space .blank
    setPos opPos
    token op
    space .blank
    r.exprList (some opPos) right depth listStyle none
  | .go call =>
    token "go"
    space .blank
    r.plain call
  | .defer call =>
    token "defer"
    space .blank
    r.plain call
  | .returns results => returnStmt r results
  | .branch keyword label =>
    token keyword
    match label with
    | some x =>
      space .blank
      ident x
    | none => pure ()
  | .block b => r.block true b
  | .ifElse start cond body otherwise =>
    token "if"
    controlClause r false start (some cond) none
    r.block true body
    match otherwise with
    | some e =>
      space .blank
      token "else"
      space .blank
      r.stmt e isEnd
    | none => pure ()
  | .caseClause values colon body =>
    match values with
    | some list =>
      token "case"
      space .blank
      r.exprList (some s.start) list 1 listStyle (some colon)
    | none => token "default"
    setPos colon
    token ":"
    r.stmtList body true isEnd
  | .switch start tag body =>
    token "switch"
    controlClause r false start tag none
    r.block false body
  | .typeSwitch start subject body =>
    token "switch"
    match start with
    | some first =>
      space .blank
      r.stmt first false
      token ";"
    | none => pure ()
    space .blank
    r.stmt subject false
    space .blank
    r.block false body
  | .commClause comm colon body =>
    match comm with
    | some c =>
      token "case"
      space .blank
      r.stmt c false
    | none => token "default"
    setPos colon
    token ":"
    r.stmtList body true isEnd
  | .select body =>
    token "select"
    space .blank
    if body.stmts.isEmpty && !(← get).hasCommentBefore body.rbrace then
      setPos body.lbrace
      token "\x7b"
      setPos body.rbrace
      token "\x7d"
    else r.block false body
  | .forLoop start cond post body =>
    token "for"
    controlClause r true start cond post
    r.block true body
  | .forRange key value op x body =>
    token "for"
    space .blank
    match key, op with
    | some k, some (opPos, sign) =>
      r.plain k
      match value with
      | some v =>
        setPos v.start
        token ","
        space .blank
        r.plain v
      | none => pure ()
      space .blank
      setPos opPos
      token sign
      space .blank
    | _, _ => pure ()
    token "range"
    space .blank
    r.plain x.stripped
    space .blank
    r.block true body

def ofDepth : Nat → Rules
  | 0 => ⟨fun _ _ _ => pure (), fun _ _ => pure ()⟩
  | n + 1 =>
    { expr := fun x least depth p => exprRule (ofDepth n) ((ofDepth n).block true) x least depth p
      stmt := fun s isEnd p => stmtRule (ofDepth n) s isEnd p }

end Rules

end PduCompiler.GoSource.Layout
