import PduCompiler.GoSource.Columns
import PduCompiler.GoSource.Syntax
import Std.Data.HashMap

/-!
The page on which a source is laid out. Beside what has been written it keeps the place in the
source that has been reached, because line breaks of the source are kept, and the spacing that is to
come before the next word, because comments go into it.
-/

namespace PduCompiler.GoSource.Layout

inductive Space where
  | ignore
  | blank
  | softTab
  | newline
  | formFeed
  | indent
  | unindent
  deriving DecidableEq, Repr, Inhabited

def Space.isBreak : Space → Bool
  | newline | formFeed => true
  | _ => false

inductive Mark where
  | space
  | name
  | literal (kind : LiteralKind)
  | token (s : String)
  | eof
  deriving DecidableEq, Repr, Inhabited

/-- A part of a source whose size may be asked for: an expression or a statement between two places.
No two expressions begin and end together, and no two statements do. -/
structure Part where
  start : Nat
  stop : Nat
  isStmt : Bool
  deriving DecidableEq, Hashable, Repr

structure Page where
  lines : LineTable
  isDraft : Bool
  pieces : Array Piece
  indent : Nat
  outdent : Nat
  level : Nat
  refusesBlank : Bool
  refusesBreak : Bool
  endsColumns : Bool
  endsStatement : Bool
  mark : Mark
  opened : Option String
  pending : Array Space
  pos : Place
  last : Place
  line : Nat
  column : Nat
  slots : Array Nat
  slot : Option Nat
  comments : List CommentGroup
  constraints : Array Nat
  oldConstraints : Array Nat
  sizes : Std.HashMap Part (Option Nat)

def Page.blank (lines : LineTable) (isDraft : Bool) (comments : List CommentGroup) : Page :=
  { lines, isDraft, comments
    pieces := #[]
    indent := 0
    outdent := 0
    level := 0
    refusesBlank := false
    refusesBreak := false
    endsColumns := false
    endsStatement := false
    mark := .space
    opened := none
    pending := #[]
    pos := ⟨0, 1, 1⟩
    last := ⟨0, 0, 0⟩
    line := 1
    column := 1
    slots := #[]
    slot := none
    constraints := #[]
    oldConstraints := #[]
    sizes := ∅ }

abbrev Printer := StateM Page

def infinity : Nat := 1073741824

def breakLimit (n : Nat) : Nat := min n 2

def lineOf (pos : Nat) : Printer Nat := return (← get).lines.lineAt pos

def placeOf (pos : Nat) : Printer Place := return (← get).lines.place pos

def setPos (pos : Nat) : Printer Unit := modify fun p => { p with pos := p.lines.place pos }

private def writeIndent : Printer Unit :=
  modify fun p =>
    let n := p.indent - p.outdent
    { p with
      pieces := p.pieces ++ Array.replicate n .tab
      pos := { p.pos with offset := p.pos.offset + n, column := p.pos.column + n }
      column := p.column + n }

def writeSpacing (piece : Piece) (n : Nat) : Printer Unit := do
  let p ← get
  let piece :=
    if !p.endsColumns then piece
    else match piece with
      | .tab | .softTab => .blank
      | .newline | .formFeed => .formFeed
      | other => other
  if piece.isLineEnd then modify fun p => { p with endsColumns := false }
  if p.column == 1 then writeIndent
  modify fun p =>
    let pieces := p.pieces ++ Array.replicate n piece
    if piece.isLineEnd then
      { p with
        pieces
        pos := ⟨p.pos.offset + n, p.pos.line + n, 1⟩
        line := p.line + n
        column := 1 }
    else
      { p with
        pieces
        pos := { p.pos with offset := p.pos.offset + n, column := p.pos.column + n }
        column := p.column + n }

/-- Writes a text that stands at the given place in the source. A text that is kept may be anything,
other texts are words. -/
def writeText (place : Place) (isKept : Bool) (s : String) : Printer Unit := do
  if (← get).column == 1 then writeIndent
  let chars := s.toList
  let isBreak (c : Char) : Bool := c = '\n' || c = '\x0c'
  let breaks := chars.countP isBreak
  let tail := (chars.reverse.takeWhile (!isBreak ·)).reverse
  modify fun p =>
    let pos : Place := if place.line > 0 then place else p.pos
    let pos : Place :=
      if breaks > 0 then ⟨pos.offset + extent chars, pos.line + breaks, extent tail + 1⟩
      else { pos with offset := pos.offset + extent chars, column := pos.column + extent chars }
    { p with
      pieces := p.pieces.push (if isKept then .text s else .word s)
      endsColumns := p.endsColumns || breaks > 0
      pos
      last := pos
      line := p.line + breaks
      column := if breaks > 0 then extent tail + 1 else p.column + extent chars }

private def writeSpaces : List Space → Printer Unit
  | [] => return
  | .newline :: .unindent :: rest | .formFeed :: .unindent :: rest => do
    modify fun p => { p with indent := p.indent - 1 }
    writeSpaces (.formFeed :: rest)
  | s :: rest => do
    match s with
    | .ignore => pure ()
    | .indent => modify fun p => { p with indent := p.indent + 1 }
    | .unindent => modify fun p => { p with indent := p.indent - 1 }
    | .blank => writeSpacing .blank 1
    | .softTab => writeSpacing .softTab 1
    | .newline => writeSpacing .newline 1
    | .formFeed => writeSpacing .formFeed 1
    writeSpaces rest
termination_by spaces => spaces.length

def writePending (n : Nat) : Printer Unit := do
  let pending := (← get).pending.toList
  writeSpaces (pending.take n)
  modify fun p => { p with pending := (pending.drop n).toArray }

/-- A word after spacing or after another word forgets the opening bracket. -/
def noteOpened : Printer Unit :=
  modify fun p =>
    match p.mark with
    | .space => p
    | .token s => { p with opened := if s = "(" || s = "[" then some s else none }
    | _ => { p with opened := none }

def space (s : Space) : Printer Unit := do
  noteOpened
  if s ≠ .ignore then
    if (← get).pending.size ≥ 16 then writePending 16
    modify fun p =>
      { p with
        pending := p.pending.push s
        endsStatement := p.endsStatement && !s.isBreak
        mark := .space }

def toggleBlank : Printer Unit := do
  noteOpened
  modify fun p => { p with refusesBlank := !p.refusesBlank }

def toggleBreak : Printer Unit := do
  noteOpened
  modify fun p => { p with refusesBreak := !p.refusesBreak }

def newSlot : Printer Nat :=
  modifyGet fun p => (p.slots.size, { p with slots := p.slots.push 0 })

def recordLine (slot : Nat) : Printer Unit := modify fun p => { p with slot := some slot }

def hasLinesFrom (slot : Nat) : Printer Bool := return (← get).line > (← get).slots.getD slot 0

/-- Breaks the line as often as the source does before the given line, and at least `least` times.
The result is the number of breaks, a new section counted as two. -/
def lineBreak (line least : Nat) (s : Space) (isSection : Bool) : Printer Nat := do
  let n := max (breakLimit (line - (← get).pos.line)) least
  if n == 0 then return 0
  else
    space s
    if isSection then space .formFeed
    for _ in List.range (if isSection then n - 1 else n) do space .newline
    return if isSection then n + 1 else n

end PduCompiler.GoSource.Layout
