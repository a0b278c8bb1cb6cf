import PduCompiler.GoSource.BuildTag
import PduCompiler.GoSource.DocComment.Format
import PduCompiler.GoSource.Layout.Page

/-!
Comments on a page. Before a word is written, the comments that stand before it in the source are,
each on the line where it stood.
-/

namespace PduCompiler.GoSource.Layout

open Text

private def breaksLine (lines : LineTable) (group : CommentGroup) : Bool :=
  match group with
  | [] => false
  | c :: _ =>
    group.any fun d =>
      lines.lineAt d.pos ≠ lines.lineAt c.pos || !d.isBlock || d.text.toList.contains '\n'

/-- Whether the next group is to be written before the place. One that breaks the line waits where
this would end the statement. -/
def Page.hasCommentBefore (p : Page) (next : Nat) : Bool :=
  match p.comments with
  | [] => false
  | group :: _ =>
    (group.head?).any (·.pos < next) && !(p.endsStatement && breaksLine p.lines group)

def Page.commentSizeBefore (p : Page) (next : Nat) : Nat :=
  let groups := p.comments.takeWhile fun group =>
    (group.head?).any (·.pos < next) && !(p.endsStatement && breaksLine p.lines group)
  groups.foldl (fun n group => group.foldl (fun n c => n + c.text.utf8ByteSize) n) 0

private def isWhite (s : List Char) : Bool := s.all (· ≤ ' ')

private def sharedStart : List Char → List Char → List Char
  | a :: s, b :: t => if a = b && (a ≤ ' ' || a = '*') then a :: sharedStart s t else []
  | _, _ => []

private def withoutEnd (tail s : List Char) : List Char :=
  if tail.isSuffixOf s then s.take (s.length - tail.length) else s

/-- The indentation that the lines of a block comment keep relative to its start: the white space
after the opening on the first line, which counts as two blanks, or up to three blanks or a
tabulator if there is nothing else on that line. -/
private def withoutMargin (first shared : List Char) : List Char :=
  let text := first.drop 2
  if isWhite text then
    let blanks := (shared.reverse.takeWhile (· = ' ')).length
    if blanks > 0 then shared.take (shared.length - min 3 blanks)
    else if shared.getLast? = some '\t' then shared.dropLast
    else shared
  else
    let margin := text.takeWhile (· ≤ ' ')
    withoutEnd (if margin.head? = some '\t' then margin else ' ' :: ' ' :: margin) shared

private def beforeEnd : List Char → List Char
  | [] => []
  | '*' :: '/' :: _ => []
  | c :: rest => c :: beforeEnd rest

/-- The lines of a block comment without the indentation they share. A last line that holds nothing
but the end mark is aligned with the start, or with the stars if every line begins with one. -/
def alignedLines (lines : List (List Char)) : List (List Char) :=
  match lines with
  | [] => []
  | [l] => [l]
  | first :: rest =>
    let inner := rest.dropLast.map fun l => if isWhite l then [] else l
    let last := rest.getLastD []
    let shared := match inner.filter (!·.isEmpty) with
      | [] => sharedStart last last
      | l :: others => others.foldl sharedStart (sharedStart l l)
    let hasStars := shared.contains '*'
    let shared :=
      if hasStars then withoutEnd [' '] (shared.takeWhile (· ≠ '*')) else withoutMargin first shared
    let isEndOnly := isWhite (beforeEnd last)
    let last := if isEndOnly then shared ++ (if hasStars then " */" else "*/").toList else last
    let shared := if isEndOnly then shared else sharedStart shared last
    let cut (l : List Char) : List Char := if l.isEmpty then l else l.drop shared.length
    first :: (inner.map cut ++ [cut last])

private def trimEnd (s : List Char) : String := String.ofList (dropEndWhile isBlank s)

private def writeLines (place : Place) : List (List Char) → Printer Unit
  | [] => return
  | [l] => if l.isEmpty then return else writeText place true (trimEnd l)
  | l :: rest => do
    if !l.isEmpty then writeText place true (trimEnd l)
    writeSpacing .formFeed 1
    writeLines (← get).pos rest

def writeComment (c : Comment) : Printer Unit := do
  let place ← placeOf c.pos
  let text := c.text.toList
  let indent := (← get).indent
  let isDirective := "//line ".toList.isPrefixOf text && place.column == 1
  if isDirective then modify fun p => { p with indent := 0 }
  if c.isBlock then
    let lines := text.splitOn '\n'
    let lines :=
      if place.column == 1 && (← get).indent > 0 then
        match lines with
        | first :: rest => first :: rest.map fun l => ' ' :: ' ' :: ' ' :: l
        | [] => []
      else lines
    writeLines place (alignedLines lines)
  else
    if (newConstraint? c.text).isSome then
      modify fun p => { p with constraints := p.constraints.push p.pieces.size }
    else if (oldConstraint? c.text).isSome then
      modify fun p => { p with oldConstraints := p.oldConstraints.push p.pieces.size }
    writeText place true (trimEnd text)
  if isDirective then modify fun p => { p with indent }

/-- Goes through pending spacing up to the first that is not passed over. `f` gives what becomes of
a space, with the spaces after it, and whether it is passed over. The result is the spacing and the
number of spaces passed; if all are passed, none is. -/
private def passOver (f : Space → List Space → Space × Bool) : List Space → List Space × Option Nat
  | [] => ([], none)
  | s :: rest =>
    let (new, isPassed) := f s rest
    if isPassed then
      let (others, n) := passOver f rest
      (new :: others, n.map (· + 1))
    else (new :: rest, some 0)

/-- The spacing before a comment on the line of what has been written last: at least a blank, or a
tabulator if nothing follows the comment on its line. -/
private def separateOnLine (place next : Place) (isFirst : Bool) : Printer Unit := do
  let mut hasSeparator := false
  if isFirst then
    let pending := (← get).pending.toList
    let (pending, n) := passOver (fun s _ =>
      match s with
      | .blank => (.ignore, true)
      | .softTab => (.softTab, true)
      | .indent => (.indent, true)
      | s => (s, false)) pending
    hasSeparator := (pending.take (n.getD pending.length)).contains .softTab
    modify fun p => { p with pending := pending.toArray }
    writePending (n.getD 0)
  if !hasSeparator then
    writeSpacing (if place.line == next.line then .blank else .tab) 1

private def separateByBreak (place next : Place) (before : Option Comment) (mark : Mark) :
    Printer Unit := do
  let pending := (← get).pending.toList
  let (pending', n) := passOver (fun s rest =>
    match s with
    | .blank | .softTab => (.ignore, true)
    | .indent => (.indent, true)
    | .unindent =>
      (.unindent, rest.head? = some .unindent ||
        (mark ≠ .token "\x7d" && place.column == next.column))
    | .newline | .formFeed => (.ignore, false)
    | s => (s, false)) pending
  let isDropped := before.isNone && (match n with
    | some n => (pending.getD n .blank).isBreak
    | none => false)
  modify fun p => { p with pending := pending'.toArray }
  writePending (n.getD 0)
  let p ← get
  let breaks := if p.last.line > 0 then place.line - p.last.line else 0
  let breaks := if p.indent == 0 && isDropped then breaks + 1 else breaks
  let breaks := if breaks == 0 && before.any (!·.isBlock) then 1 else breaks
  if breaks > 0 then writeSpacing .formFeed (breakLimit breaks)

def writeCommentStart (place next : Place) (before : Option Comment) (mark : Mark) :
    Printer Unit := do
  let p ← get
  if p.pieces.isEmpty then return
  else if place.line == p.last.line && before.all (·.isBlock) then
    separateOnLine place next before.isNone
  else separateByBreak place next before mark

/-- Writes the pending spacing after a comment without what has become needless. The result tells
whether the line was broken and whether a form feed was dropped. -/
def writeCommentEnd (needsBreak : Bool) : Printer (Bool × Bool) := do
  let step := fun (done, needsBreak, wrote, dropped) (s : Space) =>
    match s with
    | .blank | .softTab => (done.push .ignore, needsBreak, wrote, dropped)
    | .newline | .formFeed =>
      if needsBreak then (done.push s, false, true, dropped)
      else (done.push .ignore, needsBreak, wrote, dropped || s == .formFeed)
    | s => (done.push s, needsBreak, wrote, dropped)
  let (pending, needsBreak, wrote, dropped) :=
    (← get).pending.foldl step ((#[] : Array Space), needsBreak, false, false)
  modify fun p => { p with pending }
  writePending pending.size
  if needsBreak then writeSpacing .newline 1
  return (wrote || needsBreak, dropped)

/-- Writes the groups of comments before a place. `before` is the comment written last. A group at
the start of a line and right above the next word documents what follows, unless that is an import
or a name: it is put into its standard form, which may be nothing. The result is the last comment,
or `none` with the result of the whole if a group vanished. Every step takes a group. -/
private def writeGroups (next : Place) (mark : Mark) :
    (fuel : Nat) → Option Comment → Printer (Option Comment ⊕ (Bool × Bool))
  | 0, before => return .inl before
  | fuel + 1, before => do
    let p ← get
    match p.comments, p.hasCommentBefore next.offset with
    | (c :: others) :: rest, true =>
      let group := c :: others
      let last := group.getLastD c
      let place := p.lines.place c.pos
      let isDoc := mark ≠ .token "import" && mark ≠ .name && place.column == 1 &&
        p.lines.place (last.stop + 1) == next
      let list := if isDoc then DocComment.standard group else group
      if list.isEmpty then
        writeCommentStart place next before mark
        modify fun p => { p with pos := next, last := next, comments := rest }
        return .inr (← writeCommentEnd false)
      else
        let mut before := before
        for d in list do
          writeCommentStart (p.lines.place d.pos) next before mark
          writeComment d
          before := some d
        if isDoc then
          before := some last
          let stop := p.lines.place last.stop
          modify fun p => { p with pos := stop, last := stop }
        modify fun p => { p with comments := rest }
        writeGroups next mark fuel before
    | _, _ => return .inl before

/-- Writes the comments before the next word. After a block comment a blank follows, or a line break
outside of literals if there is one in the pending spacing; after other comments, at the end and
before a closing brace always a line break. -/
def writeComments (next : Place) (mark : Mark) : Printer (Bool × Bool) := do
  match ← writeGroups next mark (← get).comments.length none with
  | .inr result => return result
  | .inl none => return (false, false)
  | .inl (some last) =>
    let p ← get
    let isSeparated := !p.refusesBlank && last.isBlock &&
      p.lines.lineAt last.pos == next.line && mark ≠ .token "," &&
      (mark ≠ .token ")" || p.opened == some "(") && (mark ≠ .token "]" || p.opened == some "[")
    let hasBreak := p.pending.any Space.isBreak && !p.refusesBreak && p.level == 0
    if isSeparated && !hasBreak then writeSpacing .blank 1
    let needsBreak := (isSeparated && hasBreak) || !last.isBlock || mark == .eof ||
      (mark == .token "\x7d" && !p.refusesBreak)
    writeCommentEnd needsBreak

def flush (next : Place) (mark : Mark) : Printer (Bool × Bool) := do
  let p ← get
  if p.hasCommentBefore next.offset then writeComments next mark
  else
    writePending p.pending.size
    return (false, false)

private def mayCombine (mark : Mark) (c : Char) : Bool :=
  match mark with
  | .literal (.number .int) => c = '.'
  | .token "+" => c = '+'
  | .token "-" => c = '-'
  | .token "/" => c = '*'
  | .token "<" => c = '-' || c = '<'
  | .token "&" => c = '&' || c = '^'
  | _ => false

private def emit (mark : Mark) (s : String) (endsStatement : Bool) : Printer Unit := do
  modify fun p => { p with mark }
  let next := (← get).pos
  let (wroteBreak, droppedFeed) ← flush next mark
  let p ← get
  let mut ends := endsStatement
  if !p.endsStatement then
    let n := breakLimit (next.line - p.pos.line)
    let n := if wroteBreak && n == 2 then 1 else n
    if n > 0 then
      writeSpacing (if droppedFeed then .formFeed else .newline) n
      ends := false
  modify fun p =>
    match p.slot with
    | some i => { p with slots := p.slots.setIfInBounds i p.line, slot := none }
    | none => p
  let isLiteral := match mark with
    | .literal _ => true
    | _ => false
  writeText next isLiteral s
  let endsNow := ends
  modify fun p => { p with endsStatement := endsNow }

def token (s : String) : Printer Unit := do
  noteOpened
  if mayCombine (← get).mark (s.toList.headD ' ') then
    modify fun p => { p with pending := #[.blank] }
  emit (.token s) s (["break", "continue", "fallthrough", "return", "++", "--", ")", "]",
    "\x7d"].contains s)

def name (s : String) : Printer Unit := do
  noteOpened
  emit .name s true

def literal (kind : LiteralKind) (s : String) : Printer Unit := do
  noteOpened
  emit (.literal kind) s true

/-- On a draft, the comments of a node are those it has itself. -/
def setComment (group : CommentGroup) : Printer Unit := do
  let p ← get
  match group with
  | [] => return
  | c :: _ =>
    if p.isDraft then
      if p.comments.length ≥ 2 then let _ ← flush (p.lines.place c.pos) .space
      modify fun p => { p with comments := p.comments.take 1 ++ [group] }

def finish : Printer Unit := do
  modify fun p => { p with endsStatement := false }
  let _ ← flush ⟨infinity, infinity, 0⟩ .eof

end PduCompiler.GoSource.Layout
