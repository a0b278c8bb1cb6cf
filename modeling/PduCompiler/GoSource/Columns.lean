/-!
Lines with columns. A text is a sequence of pieces, which are written down as glyphs. Tabulators end
cells, and the cells of neighbouring lines that stand at the same number of tabulators form a
column, as wide as its widest cell and a blank more. A column ends at a line without that cell, and
all columns end at a form feed and at a line without tabulators.
-/

namespace PduCompiler.GoSource

inductive Piece where
  | word (s : String)
  | text (s : String)
  | blank
  | tab
  | softTab
  | newline
  | formFeed
  deriving DecidableEq, Repr, Inhabited

inductive Glyph where
  | char (c : Char)
  | edge
  deriving DecidableEq, Repr, Inhabited

namespace Glyph

def ofText (s : String) : List Glyph := s.toList.map char

def kept (s : String) : List Glyph := edge :: ofText s ++ [edge]

def isChar : Glyph → Bool
  | char _ => true
  | edge => false

def isLineEnd (g : Glyph) : Bool := g = char '\n' || g = char '\x0c'

end Glyph

namespace Piece

def isLineEnd : Piece → Bool
  | newline | formFeed => true
  | _ => false

def glyphs : Piece → List Glyph
  | word s => Glyph.ofText s
  | text s => Glyph.kept s
  | blank => [.char ' ']
  | tab => [.char '\t']
  | softTab => [.char '\x0b']
  | newline => [.char '\n']
  | formFeed => [.char '\x0c']

end Piece

structure Cell where
  glyphs : List Glyph
  isSoft : Bool
  deriving Repr

def Cell.width (c : Cell) : Nat := c.glyphs.countP Glyph.isChar

structure Row where
  cells : List Cell
  last : List Glyph
  endsColumns : Bool
  deriving Repr

namespace Row

/-- The rows of glyphs, given the cells and the last cell of the row begun, both in reverse;
`isKept` tells whether the glyphs belong to a text that is kept. A row without line end is a row if
there is anything in it. -/
def ofGlyphs (isKept : Bool) (cells : List Cell) (last : List Glyph) :
    List Glyph → List Row × Option Row
  | [] => ([], if cells.isEmpty && last.isEmpty then none
      else some ⟨cells.reverse, last.reverse, true⟩)
  | .edge :: rest => ofGlyphs (!isKept) cells (.edge :: last) rest
  | .char c :: rest =>
    if isKept then ofGlyphs true cells (.char c :: last) rest
    else if c = '\t' || c = '\x0b' then
      ofGlyphs false (⟨last.reverse, c = '\x0b'⟩ :: cells) [] rest
    else if c = '\n' || c = '\x0c' then
      let (rows, end?) := ofGlyphs false [] [] rest
      (⟨cells.reverse, last.reverse, c = '\x0c' || cells.isEmpty⟩ :: rows, end?)
    else ofGlyphs false cells (.char c :: last) rest

end Row

def columnWidth (cells : List Cell) : Nat :=
  if cells.all fun c => c.isSoft && c.width == 0 then 0
  else cells.foldl (fun n c => max n (c.width + 1)) 0

/-- The widths of the columns at every row. Rows with a first cell that follow each other share its
width, and the rest of them is treated in the same way. Every step drops a cell of a row, or a
row. -/
def columnWidths : (fuel : Nat) → List (List Cell) → List (List Nat)
  | 0, rows => rows.map fun _ => []
  | _, [] => []
  | fuel + 1, [] :: rest => [] :: columnWidths fuel rest
  | fuel + 1, rows =>
    let run := rows.takeWhile (!·.isEmpty)
    let width := columnWidth (run.filterMap List.head?)
    (columnWidths fuel (run.map List.tail)).map (width :: ·) ++
      columnWidths fuel (rows.dropWhile (!·.isEmpty))

/-- A row with its cells filled up. Empty cells at the left are filled with tabulators of eight
columns, other cells with blanks. -/
def Row.filled (widths : List Nat) (r : Row) : List Glyph :=
  let leading := r.cells.takeWhile (·.glyphs.isEmpty)
  let tabs := (leading.zip widths).flatMap fun (_, w) => List.replicate ((w + 7) / 8) (.char '\t')
  let others := ((r.cells.zip widths).drop leading.length).flatMap fun (c, w) =>
    c.glyphs ++ List.replicate (w - c.width) (.char ' ')
  tabs ++ others ++ r.last

/-- The characters of a line, in reverse and after those given. Blanks are put off until something
follows them, so that none stand at the end of the line. -/
def lineChars (isKept : Bool) (putOff done : List Char) : List Glyph → List Char
  | [] => done
  | .edge :: rest => lineChars (!isKept) [] (putOff ++ done) rest
  | .char c :: rest =>
    if !isKept && (c = ' ' || c = '\t') then lineChars false (c :: putOff) done rest
    else lineChars isKept [] (c :: (putOff ++ done)) rest

def sections : List Row → List (List Row)
  | [] => []
  | r :: rest =>
    match sections rest with
    | [] => [[r]]
    | s :: others => if r.endsColumns then [r] :: s :: others else (r :: s) :: others

def sectionLines (rows : List Row) : List String :=
  let fuel := rows.foldl (fun n r => n + r.cells.length + 2) 1
  (rows.zip (columnWidths fuel (rows.map Row.cells))).map fun (r, widths) =>
    String.ofList (lineChars false [] [] (r.filled widths)).reverse

def aligned (glyphs : List Glyph) : String :=
  let (rows, last) := Row.ofGlyphs false [] [] glyphs
  let lines := (sections rows).flatMap sectionLines
  let text := lines.foldl (fun text line => text ++ line ++ "\n") ""
  match last with
  | some r => text ++ (sectionLines [r]).foldl (· ++ ·) ""
  | none => text

def lineSize? (pieces : List Piece) : Option Nat :=
  let isBroken (p : Piece) : Bool :=
    match p with
    | .text s => s.toList.any fun c => c = '\n' || c = '\x0c'
    | p => p.isLineEnd
  if pieces.any isBroken then none
  else
    let spaced (p : Piece) : Piece :=
      match p with
      | .tab | .softTab => .blank
      | p => p
    let glyphs := pieces.flatMap fun p => (spaced p).glyphs
    some (String.ofList (lineChars false [] [] glyphs)).utf8ByteSize

end PduCompiler.GoSource
