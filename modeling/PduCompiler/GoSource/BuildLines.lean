import PduCompiler.GoSource.BuildTag
import PduCompiler.GoSource.Columns

/-!
The place of build constraints. Wherever comments with build constraints stand, they are brought
together above the package clause and made to agree.
-/

namespace PduCompiler.GoSource

/-- How many glyphs stand before the place for constraints: after the last empty line above the
first code. `pos` and `place` count the glyphs passed; every step takes a line. -/
private def linePlace : (fuel pos place : Nat) → List Glyph → Nat
  | 0, _, place, _ => place
  | fuel + 1, pos, place, glyphs =>
    let indent := glyphs.takeWhile fun g => g = .char ' ' || g = .char '\t'
    let rest := glyphs.drop indent.length
    let isComment := [Glyph.edge, .char '/', .char '/'].isPrefixOf rest
    let comment := if isComment then rest.takeWhile (!·.isLineEnd) else []
    match rest.drop comment.length with
    | g :: rest =>
      if g.isLineEnd then
        let pos := pos + indent.length + comment.length + 1
        linePlace fuel pos (if isComment then place else pos) rest
      else place
    | [] => place

private def restOfLine (glyphs : Array Glyph) (start : Nat) : List Glyph :=
  let rest := (glyphs.extract start glyphs.size).toList
  let line := rest.takeWhile (!·.isLineEnd)
  line ++ (rest.drop line.length).take 1

/-- The comment at a place, as far as it stands on the line. Where the line is indented that is only
its indentation. -/
private def commentAt (glyphs : Array Glyph) (start : Nat) : String :=
  let line := (glyphs.extract start glyphs.size).toList
  let line := if line.head? = some .edge then line.drop 1 else line
  String.ofList ((line.takeWhile fun g => g ≠ .edge && !g.isLineEnd).filterMap fun g =>
    match g with
    | .char c => some c
    | .edge => none)

private def endsBlank (glyphs : List Glyph) : Bool :=
  match glyphs.reverse with
  | g :: h :: _ => g.isLineEnd && h.isLineEnd
  | _ => false

private def appendLines (before after : List Glyph) : List Glyph :=
  match after with
  | g :: rest => if g.isLineEnd && (before.isEmpty || endsBlank before) then before ++ rest
    else before ++ after
  | [] => before

private def withoutLines (glyphs : Array Glyph) (kept : List Glyph) (start : Nat) :
    List Nat → List Glyph
  | [] => appendLines kept (glyphs.extract start glyphs.size).toList
  | stop :: rest =>
    if stop < start then withoutLines glyphs kept start rest
    else
      let line := restOfLine glyphs stop
      withoutLines glyphs (appendLines kept (glyphs.extract start stop).toList) (stop + line.length)
        rest

/-- The lines of the constraints, given where those in the new and in the old form begin. If they
cannot be understood, they stay as they are. -/
private def constraintLines (glyphs : Array Glyph) (new old : List Nat) : List Glyph :=
  let comment (s : String) : List Glyph := Glyph.kept s ++ [.char '\n']
  let expr : Option BuildExpr :=
    match new with
    | [] => (old.mapM fun i => BuildExpr.ofComment? (commentAt glyphs i)).bind (BuildExpr.join .and)
    | [i] => BuildExpr.ofComment? (commentAt glyphs i)
    | _ => none
  match expr with
  | none => (new ++ old).flatMap (restOfLine glyphs) ++ [.char '\n']
  | some e =>
    let oldLines :=
      if old.isEmpty then []
      else e.lines?.getD ["// +build error: expression too complex for // +build lines"]
    comment ("//go:build " ++ e.text) ++ oldLines.flatMap comment ++ [.char '\n']

/-- Brings the lines that begin at the given places together above the package clause. A line ends
at the first line end, even inside of a comment. -/
private def hoistLines (glyphs : Array Glyph) (new old : List Nat) : List Glyph :=
  let place := linePlace glyphs.size 0 0 glyphs.toList
  let place := match new.head?, old.head? with
    | some i, none => min i place
    | none, some i => min i place
    | some i, some j => if i < place then i else min j place
    | none, none => place
  let after := withoutLines glyphs [] place ((new ++ old).mergeSort (· ≤ ·))
  let after := if endsBlank after then after.dropLast else after
  (glyphs.extract 0 place).toList ++ constraintLines glyphs new old ++ after

/-- The glyphs of pieces, with the lines of the constraints brought together above the package
clause. The pieces are given with which constraints in the new and in the old form begin. -/
def hoistConstraints (pieces : Array Piece) (new old : List Nat) : List Glyph :=
  let glyphs := pieces.toList.flatMap Piece.glyphs
  if new.isEmpty && old.isEmpty then glyphs
  else
    let place (n : Nat) : Nat := ((pieces.extract 0 n).toList.flatMap Piece.glyphs).length
    hoistLines glyphs.toArray (new.map place) (old.map place)

end PduCompiler.GoSource
