import PduCompiler.GoSource.Layout.Comments
import PduCompiler.GoSource.Layout.Parens
import PduCompiler.GoSource.Parse.Expr

/-!
The layout of expressions and types. Operators of weaker and stronger binding are told apart by the
blanks around them, and lists keep the line breaks of the source, with keys and values in columns.
-/

namespace PduCompiler.GoSource.Layout

structure Rules where
  /-- Parentheses would be needed around operators that bind less than `least`; `depth` tells how
  deep the expression is nested in others. -/
  expr : Expr → (least depth : Nat) → Printer Unit
  stmt : Stmt → Bool → Printer Unit

/-- The size of a part, if it fits on one line. It is laid out on a page of its own, unless that has
been done before: parts nest, and without a memory each level would double the work. -/
def sizeOf? (part : Part) (layout : Printer Unit) : Printer (Option Nat) := do
  let p ← get
  match p.sizes[part]? with
  | some size => return size
  | none =>
    let blank := { Page.blank p.lines true [] with sizes := p.sizes }
    let draft := ((do layout; finish : Printer Unit).run blank).2
    let size := lineSize? draft.pieces.toList
    modify fun p => { p with sizes := draft.sizes.insert part size }
    return size

namespace Rules

def plain (r : Rules) (x : Expr) : Printer Unit := r.expr x 0 1

def nested (r : Rules) (x : Expr) (depth : Nat) : Printer Unit := r.expr x 0 depth

def exprSize? (r : Rules) (x : Expr) : Printer (Option Nat) :=
  sizeOf? ⟨x.start, x.stop, false⟩ (r.plain x)

def ident (x : Ident) : Printer Unit := do
  setPos x.pos
  name x.name

private def logUnit : Nat := Nat.pow 2 32

/-- The binary logarithm of a size, taken to be linear between powers of two. -/
private def logOf (size : Nat) : Nat :=
  let power := Nat.pow 2 size.log2
  size.log2 * logUnit + (size - power) * logUnit / power

/-- Whether an element of a list is so much larger or smaller than those before it that it starts a
new section: two and a half times their geometric mean, whose logarithm is the mean of the `count`
logarithms that add up to `logs`. -/
private def standsOut (size logs count : Nat) : Bool :=
  let unit := count * logUnit
  let mean := Nat.pow 2 (logs / unit) * (unit + logs % unit)
  5 * size * unit ≤ 2 * mean || 5 * mean ≤ 2 * size * unit

structure ListStyle where
  hasEndComma : Bool
  isIndented : Bool

private structure ListState where
  isIndentPending : Bool
  lastBreak : Option Nat
  size : Nat
  logs : Nat
  count : Nat
  line : Nat

private def elementSize (r : Rules) (x : Expr) (isBounded : Bool) : Printer Nat := do
  match ← r.exprSize? x with
  | some n =>
    if isBounded then
      match x.form with
      | .keyValue key _ _ => return (← r.exprSize? key).getD 0
      | _ => return n
    else return 0
  | none => return 0

private def listElement (r : Rules) (isAlone isBounded : Bool) (depth i : Nat) (x : Expr)
    (s : ListState) : Printer ListState := do
  let line ← lineOf x.start
  let size ← elementSize r x isBounded
  let isSection :=
    if s.size > 0 && size > 0 then
      !(s.count == 0 || (s.size ≤ 40 && size ≤ 40)) && standsOut size s.logs s.count
    else true
  let needsBreak := 0 < s.line && s.line < line
  let mut state := s
  if i > 0 then
    if !needsBreak then setPos x.start
    token ","
    let mut needsBlank := true
    if needsBreak then
      let isApart := match s.lastBreak with
        | some b => b + 1 < i
        | none => 0 < i
      let spacing := if s.isIndentPending then .indent else .ignore
      let n ← lineBreak line 0 spacing (isSection || isApart)
      if n > 0 then
        state := { state with isIndentPending := false, lastBreak := some i }
        needsBlank := false
      if n > 1 then state := { state with logs := 0, count := 0 }
    if needsBlank then space .blank
  match x.form with
  | .keyValue key colon value =>
    if !isAlone && size > 0 && needsBreak then
      r.plain key
      setPos colon
      token ":"
      space .softTab
      r.plain value
    else r.nested x depth
  | _ => r.nested x depth
  let state' := state
  return { state' with
    size
    logs := if size > 0 then state'.logs + logOf size else state'.logs
    count := if size > 0 then state'.count + 1 else state'.count
    line }

private def listElements (r : Rules) (isAlone isBounded : Bool) (depth : Nat) :
    Nat → List Expr → ListState → Printer ListState
  | _, [], s => return s
  | i, x :: rest, s => do
    let s ← listElement r isAlone isBounded depth i x s
    listElements r isAlone isBounded depth (i + 1) rest s

/-- Expressions with commas between them. `start` and `stop` are the places of what stands before
and after the list, if known. -/
def exprList (r : Rules) (start : Option Nat) (list : List Expr) (depth : Nat) (style : ListStyle)
    (stop : Option Nat) : Printer Unit := do
  match list with
  | [] => return
  | first :: others =>
    let startLine ← match start with
      | some p => lineOf p
      | none => pure 0
    let line ← lineOf first.start
    let endLine ← lineOf ((others.getLast?.getD first).stop)
    if start.isSome && startLine == line && line == endLine then
      r.nested first depth
      for x in others do
        setPos x.start
        token ","
        space .blank
        r.nested x depth
    else
      let n ← if start.isSome && startLine < line then
          lineBreak line 0 (if style.isIndented then .indent else .ignore) true
        else pure 0
      let state : ListState :=
        { isIndentPending := style.isIndented && n == 0
          lastBreak := if n > 0 then some 0 else none
          size := 0
          logs := 0
          count := 0
          line := startLine }
      let isBounded := start.isSome && stop.isSome
      let state ← listElements r others.isEmpty isBounded depth 0 list state
      let stopLine ← match stop with
        | some p => lineOf p
        | none => pure 0
      let isEndApart := style.hasEndComma && (← get).pos.line < stopLine
      if isEndApart then token ","
      if style.isIndented && !state.isIndentPending then space .unindent
      if isEndApart then space .formFeed

def listStyle : ListStyle := ⟨false, true⟩

def closedListStyle : ListStyle := ⟨true, true⟩

def flatListStyle : ListStyle := ⟨false, false⟩

def identList (r : Rules) (names : List Ident) (isIndented : Bool) : Printer Unit :=
  r.exprList none (names.map Ident.expr) 1 ⟨false, isIndented⟩ none

inductive ParamKind where
  | function
  | functionType
  | declaredType
  deriving DecidableEq

def combinesWithName : Expr → Bool
  | ⟨_, _, .star x⟩ => !x.isTypeElement
  | ⟨_, _, .binary x _ _ y⟩ => combinesWithName x && !y.isTypeElement
  | ⟨_, _, .paren x _⟩ => !x.isTypeElement
  | _ => false

private def param (r : Rules) (i : Nat) (f : Field) (line : Nat) (isIndentPending : Bool) :
    Printer (Nat × Bool) := do
  let startLine ← lineOf f.start
  let stopLine ← lineOf f.stop
  let needsBreak := 0 < line && line < startLine
  if i > 0 then
    if !needsBreak then setPos f.start
    token ","
  let n ← if needsBreak then
      lineBreak startLine 0 (if isIndentPending then .indent else .ignore) true
    else pure 0
  if n == 0 && i > 0 then space .blank
  let isIndentPending := isIndentPending && n == 0
  if !f.names.isEmpty then
    r.identList f.names isIndentPending
    space .blank
  r.plain f.type.unparen
  return (stopLine, isIndentPending)

private def paramList (r : Rules) : Nat → List Field → (line : Nat) → (isIndentPending : Bool) →
    Printer (Nat × Bool)
  | _, [], line, isIndentPending => return (line, isIndentPending)
  | i, f :: rest, line, isIndentPending => do
    let (line, isIndentPending) ← param r i f line isIndentPending
    paramList r (i + 1) rest line isIndentPending

def parameters (r : Rules) (l : FieldList) (kind : ParamKind) : Printer Unit := do
  let (opening, closing) := if kind = .function then ("(", ")") else ("[", "]")
  let startPos := l.opening.getD 0
  let stopPos := l.closing.getD 0
  if l.opening.isSome then setPos startPos
  token opening
  match l.fields with
  | [] => pure ()
  | first :: _ =>
    let startLine ← if l.opening.isSome then lineOf startPos else pure 0
    let (line, isIndentPending) ← paramList r 0 l.fields startLine true
    let stopLine ← if l.closing.isSome then lineOf stopPos else pure 0
    if 0 < line && line < stopLine then
      token ","
      let _ ← lineBreak stopLine 0 .ignore true
    else if kind = .declaredType && l.count == 1 && combinesWithName first.type.unparen then
      token ","
    if !isIndentPending then space .unindent
  if l.closing.isSome then setPos stopPos
  token closing

def signature (r : Rules) (t : FuncType) : Printer Unit := do
  match t.typeParams with
  | some l => r.parameters l .functionType
  | none => pure ()
  r.parameters t.params .function
  match t.results with
  | none => return
  | some l =>
    match l.fields with
    | [] => return
    | [f] =>
      space .blank
      if f.names.isEmpty then r.plain f.type.unparen else r.parameters l .function
    | _ =>
      space .blank
      r.parameters l .function

private def isShortField (r : Rules) (f : Field) : Printer Bool := do
  if f.tag.isSome || !f.comment.isEmpty then return false
  else
    let gap := if f.names.isEmpty then 0 else 1
    match ← r.exprSize? f.type with
    | some n => return n ≤ 30 && gap + n ≤ 30
    | none => return false

private def method (r : Rules) (f : Field) : Printer Unit := do
  match f.names, f.type.form with
  | x :: _, .funcType t =>
    ident x
    r.signature t
  | _, _ => r.plain f.type

private def shortField (r : Rules) (f : Field) (isStruct : Bool) : Printer Unit := do
  if isStruct then
    match f.names with
    | [] => pure ()
    | first :: others =>
      ident first
      for x in others do
        token ","
        space .blank
        ident x
      space .blank
    r.plain f.type
  else method r f

private def structField (r : Rules) (f : Field) (separator : Space) : Printer Unit := do
  if f.names.isEmpty then r.plain f.type
  else
    r.identList f.names false
    space separator
    r.plain f.type
  let extra ← match f.tag with
    | some tag => do
      if !f.names.isEmpty && separator = .softTab then space separator
      space separator
      setPos tag.pos
      literal tag.kind tag.text
      pure 0
    | none => pure (if f.names.isEmpty then 2 else 1)
  if !f.comment.isEmpty then
    for _ in List.range extra do space separator
    setComment f.comment

private def fieldLines (r : Rules) (slot : Nat) (isStruct : Bool) (separator : Space) :
    Nat → List Field → Printer Unit
  | _, [] => return
  | i, f :: rest => do
    if i > 0 then
      let _ ← lineBreak (← lineOf f.start) 1 .ignore (← hasLinesFrom slot)
    setComment f.doc
    recordLine slot
    if isStruct then structField r f separator
    else
      method r f
      setComment f.comment
    fieldLines r slot isStruct separator (i + 1) rest

def fieldList (r : Rules) (l : FieldList) (isStruct : Bool) : Printer Unit := do
  let lbrace := l.opening.getD 0
  let rbrace := l.closing.getD 0
  let hasComments := (← get).hasCommentBefore rbrace
  let isOneLine := (← lineOf lbrace) == (← lineOf rbrace)
  let short ← match l.fields with
    | [f] => if !hasComments && isOneLine then isShortField r f else pure false
    | _ => pure false
  match l.fields, !hasComments && isOneLine, short with
  | [], true, _ =>
    setPos lbrace
    token "\x7b"
    setPos rbrace
    token "\x7d"
  | [f], true, true =>
    setPos lbrace
    token "\x7b"
    space .blank
    shortField r f isStruct
    space .blank
    setPos rbrace
    token "\x7d"
  | fields, _, _ =>
    space .blank
    setPos lbrace
    token "\x7b"
    space .indent
    if hasComments || !fields.isEmpty then space .formFeed
    let slot ← newSlot
    fieldLines r slot isStruct (if fields.length == 1 then .blank else .softTab) 0 fields
    space .unindent
    space .formFeed
    setPos rbrace
    token "\x7d"

/-- Whether operators of the fourth and of the fifth strength occur, and the least strength whose
operators need blanks to be told apart from others. -/
def binaryTraits : Expr → Bool × Bool × Nat
  | ⟨_, _, .binary x _ op y⟩ =>
    let strength := precedence op
    let left : Bool × Bool × Nat := match x.form with
      | .binary _ _ inner _ =>
        if precedence inner < strength then (false, false, 0) else binaryTraits x
      | _ => (false, false, 0)
    let right : Bool × Bool × Nat := match y.form with
      | .binary _ _ inner _ =>
        if precedence inner ≤ strength then (false, false, 0) else binaryTraits y
      | .star _ => (false, false, if op = "/" then 5 else 0)
      | .unary inner _ =>
        let both := op ++ inner
        (false, false, if ["/*", "&&", "&^"].contains both then 5
          else if ["++", "--"].contains both then 4 else 0)
      | _ => (false, false, 0)
    (strength == 4 || left.1 || right.1, strength == 5 || left.2.1 || right.2.1,
      max left.2.2 right.2.2)
  | _ => (false, false, 0)

def cutoff (x : Expr) (depth : Nat) : Nat :=
  let (has4, has5, problem) := binaryTraits x
  if problem > 0 then problem + 1
  else if has4 && has5 then (if depth == 1 then 5 else 4)
  else if depth == 1 then 6
  else 4

private def isBinary (x : Expr) : Bool :=
  match x.form with
  | .binary .. => true
  | _ => false

/-- An operand that is an operator of another strength is nested deeper. -/
private def depthStep (x : Expr) (strength : Nat) : Nat :=
  match x.form with
  | .binary _ _ op _ => if precedence op == strength then 0 else 1
  | _ => 1

private def binaryExpr (r : Rules) (x : Expr) (opPos : Nat) (op : String) (y : Expr)
    (cut depth : Nat) : Printer Unit := do
  let strength := precedence op
  let hasBlanks := strength < cut
  r.expr x strength (depth + depthStep x strength)
  if hasBlanks then space .blank
  let line := (← get).pos.line
  let rightLine ← lineOf y.start
  setPos opPos
  token op
  let n ← if line ≠ rightLine && line > 0 && rightLine > 0 then lineBreak rightLine 1 .indent true
    else pure 0
  if hasBlanks && n == 0 then space .blank
  r.expr y (strength + 1) (depth + 1)
  if n > 0 then space .unindent

/-- A selector; it goes to the next line if it does in the source. The result tells whether it did.
The name of a method leaves the indentation to its call. -/
def selector (r : Rules) (x : Expr) (sel : Ident) (depth : Nat) (isMethod : Bool) :
    Printer Bool := do
  r.expr x 7 depth
  token "."
  let line ← lineOf sel.pos
  if (← get).pos.line < line then
    space .indent
    space .newline
    ident sel
    if !isMethod then space .unindent
    return true
  else
    ident sel
    return false

private def callExpr (r : Rules) (fn : Expr) (lparen : Nat) (args : List Expr)
    (ellipsis : Option Nat) (rparen depth : Nat) : Printer Unit := do
  let depth := if args.length > 1 then depth + 1 else depth
  let needsParens := match fn.form with
    | .funcType _ => true
    | .chan .receive _ _ => true
    | _ => false
  if needsParens then token "("
  let wasIndented ← match fn.form with
    | .selector x sel => r.selector x sel depth true
    | _ => do
      r.expr fn 7 depth
      pure false
  if needsParens then token ")"
  setPos lparen
  token "("
  match ellipsis with
  | some e =>
    r.exprList (some lparen) args depth listStyle (some e)
    setPos e
    token "..."
    if (← lineOf e) < (← lineOf rparen) then
      token ","
      space .formFeed
  | none => r.exprList (some lparen) args depth closedListStyle (some rparen)
  setPos rparen
  token ")"
  if wasIndented then space .unindent

private def sliceExpr (r : Rules) (bounds : List (Option Expr)) (depth : Nat) : Printer Unit := do
  let given := bounds.filterMap id
  let hasBlanks := depth ≤ 1 && given.length > 1 && given.any isBinary
  let mut before : Option (Option Expr) := none
  for bound in bounds do
    match before with
    | some b =>
      if b.isSome && hasBlanks then space .blank
      token ":"
      if bound.isSome && hasBlanks then space .blank
    | none => pure ()
    match bound with
    | some x => r.nested x (depth + 1)
    | none => pure ()
    before := some bound

private def compositeExpr (r : Rules) (type : Option Expr) (lbrace : Nat) (elems : List Expr)
    (rbrace depth : Nat) : Printer Unit := do
  match type with
  | some t => r.expr t 7 depth
  | none => pure ()
  modify fun p => { p with level := p.level + 1 }
  setPos lbrace
  token "\x7b"
  r.exprList (some lbrace) elems 1 closedListStyle (some rbrace)
  let toggle : Printer Unit := do
    toggleBreak
    if !elems.isEmpty then toggleBlank
  space .indent
  space .unindent
  toggle
  setPos rbrace
  token "\x7d"
  toggle
  modify fun p => { p with level := p.level - 1 }

private def bodySize? (r : Rules) (b : Block) : Printer (Option Nat) := do
  if (← lineOf b.lbrace) ≠ (← lineOf b.rbrace) || b.stmts.length > 5 then return none
  else
    let mut size : Option Nat := some ((← get).commentSizeBefore b.rbrace)
    let mut isFirst := true
    for s in b.stmts do
      match size with
      | none => pure ()
      | some n =>
        if n ≤ 100 then
          let indent := match s.form with
            | .labeled .. => 1
            | _ => 0
          let draft : Printer Unit := do
            modify fun p => { p with indent }
            r.stmt s false
          let gap := if isFirst then 0 else 2
          let more ← sizeOf? ⟨s.start, s.stop, true⟩ draft
          size := more.bind fun m => if m ≤ 100 then some (n + gap + m) else none
      isFirst := false
    return size

/-- A function body after a header of the given size. It stays on one line if it is there in the
source and both fit into a hundred characters. -/
def funcBody (r : Rules) (block : Block → Printer Unit) (header : Nat) (separator : Space)
    (b : Block) : Printer Unit := do
  let level := (← get).level
  modify fun p => { p with level := 0 }
  let isShort : Bool := match ← bodySize? r b with
    | some n => header + n ≤ 100
    | none => false
  if isShort then
    space separator
    setPos b.lbrace
    token "\x7b"
    if !b.stmts.isEmpty then
      space .blank
      let count := b.stmts.length
      let mut i := 0
      for s in b.stmts do
        if i > 0 then
          token ";"
          space .blank
        r.stmt s (i + 1 == count)
        i := i + 1
      space .blank
    toggleBreak
    setPos b.rbrace
    token "\x7d"
    toggleBreak
  else
    if separator ≠ .ignore then space .blank
    block b
  modify fun p => { p with level }

def distanceFrom (start : Nat) (column : Int) : Printer Nat := do
  let p ← get
  if p.lines.lineAt start == p.pos.line then return ((p.column : Int) - column).toNat
  else return infinity

/-- The standard spelling of numbers is not used on drafts. -/
private def basicLiteral (kind : LiteralKind) (s : String) : Printer Unit := do
  match kind with
  | .number _ =>
    if (← get).isDraft then literal kind s
    else literal kind (String.ofList (normalized s.toList))
  | _ => literal kind s

def exprRule (r : Rules) (block : Block → Printer Unit) (x : Expr) (least depth : Nat) :
    Printer Unit := do
  setPos x.start
  match x.form with
  | .ident s => name s
  | .literal kind s => basicLiteral kind s
  | .ellipsis elem =>
    token "..."
    match elem with
    | some t => r.plain t
    | none => pure ()
  | .func type body =>
    setPos type.start
    token "func"
    let column : Int := (← get).column - 4
    r.signature type
    r.funcBody block (← distanceFrom type.start column) .blank body
  | .composite type lbrace elems rbrace => compositeExpr r type lbrace elems rbrace depth
  | .paren inner rparen =>
    if inner.isParen then r.nested inner depth
    else
      token "("
      r.nested inner (max 1 (depth - 1))
      setPos rparen
      token ")"
  | .selector inner sel => let _ ← r.selector inner sel depth false
  | .index inner lbrack args rbrack =>
    r.expr inner 7 1
    setPos lbrack
    token "["
    match args with
    | [arg] => r.nested arg (depth + 1)
    | _ => r.exprList (some lbrack) args (depth + 1) closedListStyle (some rbrack)
    setPos rbrack
    token "]"
  | .slice inner lbrack low high most isThree rbrack =>
    r.expr inner 7 1
    setPos lbrack
    token "["
    sliceExpr r (if isThree then [low, high, most] else [low, high]) depth
    setPos rbrack
    token "]"
  | .assertion inner lparen type rparen =>
    r.expr inner 7 depth
    token "."
    setPos lparen
    token "("
    match type with
    | some t => r.plain t
    | none => token "type"
    setPos rparen
    token ")"
  | .call fn lparen args ellipsis rparen => callExpr r fn lparen args ellipsis rparen depth
  | .star inner =>
    if 6 < least then
      token "("
      token "*"
      r.plain inner
      token ")"
    else
      token "*"
      r.plain inner
  | .unary op inner =>
    if 6 < least then
      token "("
      r.plain x
      token ")"
    else
      token op
      r.expr inner 6 depth
  | .binary left opPos op right =>
    if precedence op < least then
      token "("
      r.nested x (max 1 (depth - 1))
      token ")"
    else binaryExpr r left opPos op right (cutoff x depth) depth
  | .keyValue key colon value =>
    r.plain key
    setPos colon
    token ":"
    space .blank
    r.plain value
  | .array length elem =>
    token "["
    match length with
    | some n => r.plain n
    | none => pure ()
    token "]"
    r.plain elem
  | .struct l =>
    token "struct"
    r.fieldList l true
  | .funcType t =>
    token "func"
    r.signature t
  | .interface l =>
    token "interface"
    r.fieldList l false
  | .map key value =>
    token "map"
    token "["
    r.plain key
    token "]"
    r.plain value
  | .chan dir arrow elem =>
    match dir with
    | .both => token "chan"
    | .receive =>
      token "<-"
      token "chan"
    | .send =>
      token "chan"
      setPos arrow
      token "<-"
    space .blank
    r.plain elem

end Rules

end PduCompiler.GoSource.Layout
