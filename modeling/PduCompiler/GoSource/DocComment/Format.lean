import PduCompiler.GoSource.Comment
import PduCompiler.GoSource.DocComment.Inline

/-!
The standard form of a documentation comment. Its blocks are separated by blank lines, code and
lists are indented, definitions of links go to the end, and directives after them.
-/

namespace PduCompiler.GoSource.DocComment

open Text

structure Item where
  number : List Char
  paragraphs : List (List Char)
  deriving Repr

inductive Block where
  | paragraph (text : List Char)
  | heading (text : List Char)
  | code (lines : List Line)
  | list (items : List Item) (hasBlankBefore hasBlankBetween : Bool)
  deriving Repr

private def joined (lines : List Line) : List Char := (lines.intersperse ['\n']).flatten

private def paragraph (lines : List Line) : Option (List Char) × List LinkDef :=
  match lines.mapM LinkDef.ofLine? with
  | some defs => (none, defs)
  | none => (some (joined lines), [])

/-- The items of a list as they are read: those before, the one begun, the lines of its paragraph
begun, and whether a blank line has been seen. -/
private structure ListReading where
  items : List Item
  item : Option Item
  lines : List Line
  isLoose : Bool
  defs : List LinkDef

private def ListReading.endParagraph (r : ListReading) : ListReading :=
  match r.item with
  | none => { r with lines := [] }
  | some item =>
    let (text, defs) := paragraph r.lines
    { r with
      item := some { item with paragraphs := item.paragraphs ++ text.toList }
      lines := []
      defs := r.defs ++ defs }

private def ListReading.line (isNumbered : Bool) (r : ListReading) (l : Line) : ListReading :=
  let (r, l) := match listMarker? l with
    | some (number, rest) =>
      if !number.isEmpty == isNumbered then
        let r := r.endParagraph
        ({ r with items := r.items ++ r.item.toList, item := some ⟨number, []⟩ }, rest)
      else (r, l)
    | none => (r, l)
  let l := trimChars l
  if l.isEmpty then { r.endParagraph with isLoose := true } else { r with lines := r.lines ++ [l] }

private def listBlock (lines : List Line) (hasBlankBefore : Bool) : Block × List LinkDef :=
  let isNumbered := match lines.head?.bind listMarker? with
    | some (number, _) => !number.isEmpty
    | none => false
  let r := (lines.foldl (ListReading.line isNumbered) ⟨[], none, [], false, []⟩).endParagraph
  let items := r.items ++ r.item.toList
  let isLoose := r.isLoose || items.any (·.paragraphs.length ≠ 1)
  (.list items (hasBlankBefore || isLoose) isLoose, r.defs)

def blocks (lines : List Line) : List Block × List LinkDef :=
  let array := lines.toArray
  let part (s : Span) : List Line := (array.extract s.start s.stop).toList
  let all := spans lines
  let befores := (0 :: all.map Span.stop).zip all
  befores.foldl (fun (blocks, defs) (before, s) =>
    match s.kind with
    | .list =>
      let (b, new) := listBlock (part s) (decide (before < s.start))
      (blocks ++ [b], defs ++ new)
    | .code => (blocks ++ [.code (unindented (part s))], defs)
    | .oldHeading => (blocks ++ [.heading (trimChars (part s).flatten)], defs)
    | .heading => (blocks ++ [.heading (trimChars ((part s).flatten.drop 1))], defs)
    | .paragraph =>
      match paragraph (part s) with
      | (some text, _) => (blocks ++ [.paragraph text], defs)
      | (none, new) => (blocks, defs ++ new)) ([], [])

private def hanging (text : List Char) : List Char :=
  let rec go : List Char → List Char
    | [] => []
    | '\n' :: rest => '\n' :: ' ' :: ' ' :: ' ' :: ' ' :: go rest
    | c :: rest => c :: go rest
  go text

private def itemText (defs : List LinkDef) (item : Item) : List Char × List (List Char) :=
  let mark := ' ' :: (if item.number.isEmpty then [' ', '-', ' '] else item.number ++ ['.', ' '])
  let parts := item.paragraphs.map (linkedText defs)
  let texts := parts.map fun (text, _) => hanging text ++ ['\n']
  (mark ++ (texts.intersperse ['\n', ' ', ' ', ' ', ' ']).flatten, parts.flatMap Prod.snd)

private def blockText (defs : List LinkDef) : Block → List Char × List (List Char)
  | .paragraph text =>
    let (text, used) := linkedText defs text
    (text ++ ['\n'], used)
  | .heading text => ('#' :: ' ' :: text ++ ['\n'], [])
  | .code lines =>
    (lines.flatMap fun l => (if l.isEmpty then [] else '\t' :: l) ++ ['\n'], [])
  | .list items _ isLoose =>
    let parts := items.map (itemText defs)
    let texts := parts.map Prod.fst
    ((if isLoose then texts.intersperse ['\n'] else texts).flatten, parts.flatMap Prod.snd)

private def hasBlankBefore : Block → Bool
  | .list _ before _ => before
  | _ => true

private def isUsed (defs : List LinkDef) (used : List (List Char)) (i : Nat) (d : LinkDef) : Bool :=
  used.contains d.text && (defs.findIdx? (·.text = d.text)) = some i

private def linkLines (defs : List LinkDef) : List Char :=
  if defs.isEmpty then []
  else '\n' :: defs.flatMap fun d => '[' :: d.text ++ [']', ':', ' '] ++ d.address ++ ['\n']

def standardText (text : List Char) : List Char :=
  let (blocks, defs) := blocks (unindented (text.splitOn '\n'))
  let (body, used) := blocks.foldl (fun (body, used) b =>
    let (text, new) := blockText defs b
    let gap := if !body.isEmpty && hasBlankBefore b then ['\n'] else []
    (body ++ gap ++ text, used ++ new)) ([], [])
  let marked := (List.range defs.length).zip defs
  let (here, unused) := marked.partition fun (i, d) => isUsed defs used i d
  body ++ linkLines (here.map Prod.snd) ++ linkLines (unused.map Prod.snd)

def hasStars (text : List Char) : Bool :=
  ((text.splitOn '\n').drop 1).all fun l =>
    match l.dropWhile isIndent with
    | [] => false
    | c :: _ => c = '*'

private def slashed (line : List Char) : String :=
  String.ofList ('/' :: '/' :: (match line with
    | [] => []
    | '\t' :: _ => line
    | _ => ' ' :: line))

private def endedLines (text : List Char) : List (List Char) :=
  let lines := text.splitOn '\n'
  if lines.getLast? = some [] then lines.dropLast else lines

/-- The standard form of a documentation comment. Short block comments, those with a column of stars
and mixed ones are kept. -/
def standard (group : CommentGroup) : CommentGroup :=
  match group with
  | [] => []
  | c :: others =>
    let text := c.text.toList
    if c.isBlock then
      if !others.isEmpty || !text.contains '\n' || hasStars text then group
      else
        let inner := (text.drop 2).dropLast.dropLast
        if inner.isEmpty then group
        else [⟨c.pos, "/*\n" ++ String.ofList (standardText inner) ++ "*/"⟩]
    else if group.any Comment.isBlock then group
    else
      let (directives, lines) := group.partition fun c => isDirective (c.text.toList.drop 2)
      if lines.isEmpty then group
      else
        let body := lines.flatMap fun c => dropStart [' '] (c.text.toList.drop 2) ++ ['\n']
        let new := (endedLines (standardText body)).map fun l => (⟨c.pos, slashed l⟩ : Comment)
        let last := directives.map fun d => (⟨c.pos, d.text⟩ : Comment)
        new ++ if directives.isEmpty then [] else ⟨c.pos, "//"⟩ :: last

end PduCompiler.GoSource.DocComment
