import PduCompiler.Text.Blank
import PduCompiler.Text.Category

/-!
The blocks of a documentation comment: headings, paragraphs, lists and code, told apart by
indentation and by blank lines. Where a list or code was not indented as it should be, a few signs
give it away.
-/

namespace PduCompiler.GoSource.DocComment

open Text

abbrev Line := List Char

def isIndent (c : Char) : Bool := c = ' ' || c = '\t'

def isIndented (l : Line) : Bool := l.head?.any isIndent

def commonStart : List Char → List Char → List Char
  | a :: s, b :: t => if a = b then a :: commonStart s t else []
  | _, _ => []

def dropStart (start l : Line) : Line := if start.isPrefixOf l then l.drop start.length else l

def trimLines (lines : List Line) : List Line :=
  ((lines.dropWhile List.isEmpty).reverse.dropWhile List.isEmpty).reverse

/-- The lines without the indentation that all of them share and without empty lines at either end.
A line of blanks becomes empty. -/
def unindented (lines : List Line) : List Line :=
  match trimLines lines with
  | [] => []
  | first :: rest =>
    let shared := rest.foldl
      (fun start l => if l.isEmpty then start else commonStart start (l.takeWhile isIndent))
      (first.takeWhile isIndent)
    trimLines ((first :: rest).map fun l =>
      let l := dropStart shared l
      if (trimChars l).isEmpty then [] else l)

/-- The number and the text of a line that begins an item of a list; the number is empty if a bullet
stands there. -/
def listMarker? (l : Line) : Option (List Char × List Char) :=
  let l := trimChars l
  let marker : Option (List Char × List Char) :=
    match l with
    | [] => none
    | c :: rest =>
      if c = '•' || c = '*' || c = '+' || c = '-' then some ([], rest)
      else
        let number := l.takeWhile Char.isDigit
        match number, l.dropWhile Char.isDigit with
        | _ :: _, d :: rest => if d = '.' || d = ')' then some (number, rest) else none
        | _, _ => none
  match marker with
  | some (number, rest) =>
    if isIndented rest && !(trimChars rest).isEmpty then some (number, rest) else none
  | none => none

def isListItem (l : Line) : Bool := (listMarker? l).isSome

def isHeading (l : Line) : Bool :=
  match l with
  | '#' :: c :: _ => isIndent c && trimChars l ≠ ['#']
  | _ => false

def restsAfter (c : Char) : List Char → List (List Char)
  | [] => []
  | d :: rest => if d = c then rest :: restsAfter c rest else restsAfter c rest

/-- Whether a line alone between blank lines reads like a heading: it begins with a capital letter,
ends in a letter or digit, and has no punctuation of sentences or code. -/
def looksLikeHeading (l : Line) : Bool :=
  let l := trimChars l
  l.head?.any (fun c => isLetter c && isUpper c) &&
    l.getLast?.any (fun c => isLetter c || isDigit c) &&
    !l.any (";:!?+*/=[]\x7b\x7d_^°&§~%#@<\">\\".toList.contains ·) &&
    (restsAfter '\'' l).all (fun rest => rest = ['s'] || ['s', ' '].isPrefixOf rest) &&
    (restsAfter '.' l).all (fun rest => !rest.isEmpty && rest.head? ≠ some ' ')

inductive Kind where
  | code
  | heading
  | list
  | oldHeading
  | paragraph
  deriving DecidableEq, Repr

structure Span where
  start : Nat
  stop : Nat
  kind : Kind
  deriving Repr

section

variable (lines : Array Line)

private def lineAt (i : Nat) : Line := lines.getD i []

private def skipWhile (p : Nat → Bool) : (fuel i : Nat) → Nat
  | 0, i => i
  | fuel + 1, i => if i < lines.size && p i then skipWhile p fuel (i + 1) else i

private def backWhile (p : Line → Bool) (start : Nat) : Nat → Nat
  | 0 => 0
  | n + 1 => if start < n + 1 && p (lineAt lines n) then backWhile p start n else n + 1

/-- The end of an indented span. If it begins with an item that is not indented, further such items
belong to it up to the first blank line. -/
private def indentedEnd (forced : Nat) : (fuel : Nat) → (itemsToo : Bool) → (i : Nat) → Nat
  | 0, _, i => i
  | fuel + 1, itemsToo, i =>
    let l := lineAt lines i
    if i < lines.size &&
        (l.isEmpty || i < forced || isIndented l || (itemsToo && isListItem l)) then
      indentedEnd forced fuel (itemsToo && !l.isEmpty) (i + 1)
    else i

private def isOldHeading (i : Nat) : Bool :=
  i > 0 && (lineAt lines (i - 1)).isEmpty && i + 2 < lines.size && (lineAt lines (i + 1)).isEmpty &&
    !isIndented (lineAt lines (i + 2)) && looksLikeHeading (lineAt lines i)

/-- The end of a span that is not indented, and up to where lines count as indented after it. If an
indented line follows at once, the list items before it, or a line that opens a block, belong to
what follows. -/
private def plainEnd (forced start : Nat) : Nat × Nat :=
  let stop := skipWhile lines
    (fun i => !(lineAt lines i).isEmpty && !isIndented (lineAt lines i)) lines.size (start + 1)
  let next := lineAt lines stop
  let before := lineAt lines (stop - 1)
  if stop < lines.size && !next.isEmpty && !isListItem next then
    if isListItem before then (backWhile lines isListItem start (stop - 1), stop)
    else if before.getLast? = some '\x7b' || before.getLast? = some '\\' then (stop - 1, stop)
    else (stop, forced)
  else (stop, forced)

/-- The spans from a line on. Lines before `forced` count as indented. A span takes a line, and
lines are made to count as indented at most once for a span, so twice the number of lines is
enough. -/
private def spansFrom : (fuel forced i : Nat) → List Span
  | 0, _, _ => []
  | fuel + 1, forced, i =>
    let start := skipWhile lines (fun i => (lineAt lines i).isEmpty) lines.size i
    if lines.size ≤ start then []
    else
      let first := lineAt lines start
      if start < forced || isIndented first then
        let itemsToo := isListItem first && start < forced
        let stop := indentedEnd lines forced lines.size itemsToo (start + 1)
        let stop := backWhile lines List.isEmpty start stop
        let stop := if (lineAt lines stop).head? = some '\x7d' then stop + 1 else stop
        let kind := if isListItem first then Kind.list else .code
        ⟨start, stop, kind⟩ :: spansFrom fuel forced stop
      else
        let (stop, forced) := plainEnd lines forced start
        if stop = start && start < forced then spansFrom fuel forced start
        else
          let kind :=
            if stop = start + 1 && isHeading first then Kind.heading
            else if stop = start + 1 && isOldHeading lines start then .oldHeading
            else .paragraph
          ⟨start, stop, kind⟩ :: spansFrom fuel forced stop

end

def spans (lines : List Line) : List Span := spansFrom lines.toArray (2 * lines.length + 1) 0 0

end PduCompiler.GoSource.DocComment
