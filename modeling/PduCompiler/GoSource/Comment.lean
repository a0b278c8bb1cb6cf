import PduCompiler.GoSource.Lines
import PduCompiler.GoSource.Token
import PduCompiler.Text.Blank

/-!
Comments and the tokens they belong to. Comments on neighbouring lines form a group. A group that
follows a token on its line belongs to it, and one that ends on the line above a token belongs to
that one.
-/

namespace PduCompiler.GoSource

structure Comment where
  pos : Nat
  text : String
  deriving DecidableEq, Repr, Inhabited

/-- The place after a comment of this text. Carriage returns of the source are not in the text, and
not counted. -/
def Comment.stop (c : Comment) : Nat := c.pos + c.text.utf8ByteSize

def Comment.isBlock (c : Comment) : Bool := ['/', '*'].isPrefixOf c.text.toList

abbrev CommentGroup := List Comment

/-- Whether a comment is meant for a program: what follows its slashes begins with a word and a
colon, or with one of three words. -/
def isDirective (s : List Char) : Bool :=
  let isWordPart (c : Char) : Bool := c.isLower || c.isDigit
  ["line ", "extern ", "export "].any (·.toList.isPrefixOf s) ||
    match s.takeWhile (· ≠ ':'), s.dropWhile (· ≠ ':') with
    | [], _ => false
    | word, ':' :: c :: _ => word.all isWordPart && isWordPart c
    | _, _ => false

/-- The lines of a comment without its marks. Of a line comment one blank goes too, and nothing is
left of a directive. -/
def Comment.proseLines (c : Comment) : List (List Char) :=
  let text := c.text.toList.drop 2
  if c.isBlock then text.dropLast.dropLast.splitOn '\n'
  else match text with
    | ' ' :: rest => [rest]
    | _ => if isDirective text then [] else [text]

/-- The text of a group, without blanks at the ends of lines. Empty lines at its ends are left out,
and of several in a row one is kept. -/
def proseOf (group : CommentGroup) : String :=
  let isEnd (c : Char) : Bool := c = ' ' || c = '\t' || c = '\r'
  let lines := group.flatMap fun c => c.proseLines.map (Text.dropEndWhile isEnd)
  let kept := lines.foldl (fun kept line =>
    if line.isEmpty && (kept.head?).all List.isEmpty then kept else line :: kept) []
  let kept := match kept with
    | [] :: _ | [] => kept
    | _ => [] :: kept
  String.ofList (['\n'].intercalate kept.reverse)

structure Word where
  token : Token
  pos : Nat
  stop : Nat
  lead : CommentGroup
  line : CommentGroup
  deriving Repr, Inhabited

structure Renumbering where
  pos : Nat
  shift : Int

def renumberings (lines : LineTable) (lexemes : List Lexeme) : List Renumbering :=
  lexemes.filterMap fun l =>
    match l.token with
    | .comment s =>
      let c : Comment := ⟨l.pos, s⟩
      let isStart := (lines.place l.pos).column == 1
      match LineDirective.ofComment c.isBlock isStart (s.toList.drop 2) with
      | .line n =>
        let pos := if c.isBlock then c.stop else lines.startOf (lines.lineAt l.pos + 1)
        some ⟨pos, n - lines.lineAt pos⟩
      | _ => none
    | _ => none

def shownLine (lines : LineTable) (changes : List Renumbering) (pos : Nat) : Int :=
  lines.lineAt pos + ((changes.reverse.find? (·.pos ≤ pos)).elim 0 (·.shift))

/-- The longest group at the front whose comments are at most `gap` lines apart, with its last line,
and the comments after it. -/
def takeGroup (line : Nat → Int) (gap last : Int) : List Comment → CommentGroup × Int × List Comment
  | [] => ([], last, [])
  | c :: rest =>
    if line c.pos ≤ last + gap then
      let last := line c.pos + if c.isBlock then (c.text.toList.count '\n' : Nat) else 0
      let (group, last, rest) := takeGroup line gap last rest
      (c :: group, last, rest)
    else ([], last, c :: rest)

/-- Cuts comments into groups, each with its last line. A group takes a comment, so `fuel` need not
exceed their number. -/
def groups (line : Nat → Int) : (fuel : Nat) → List Comment → List (CommentGroup × Int)
  | 0, _ => []
  | _, [] => []
  | fuel + 1, c :: rest =>
    let (group, last, rest) := takeGroup line 1 (line c.pos) (c :: rest)
    (group, last) :: groups line fuel rest

def Word.ofLexeme (line : Nat → Int) (above : Int) (comments : List Comment) (l : Lexeme) :
    Word × List CommentGroup :=
  match comments with
  | [] => (⟨l.token, l.pos, l.stop, [], []⟩, [])
  | c :: _ =>
    let (first, last, rest) :=
      if line c.pos = above then takeGroup line 0 (line c.pos) comments else ([], 0, comments)
    let isLine : Bool := match rest with
      | next :: _ => line next.pos ≠ last
      | [] => line l.pos ≠ last || (match l.token with
        | .semicolon _ | .eof => true
        | _ => false)
    let later := groups line rest.length rest
    let lead := match later.getLast? with
      | some (group, last) => if last + 1 = line l.pos then group else []
      | none => []
    (⟨l.token, l.pos, l.stop, lead, if isLine then first else []⟩,
      (if first.isEmpty then [] else [first]) ++ later.map Prod.fst)

private def wordsFrom (line : Nat → Int) (above : Int) (comments : List Comment) :
    List Lexeme → List Word × List CommentGroup
  | [] => ([], [])
  | l :: rest =>
    match l.token with
    | .comment s => wordsFrom line above (comments ++ [⟨l.pos, s⟩]) rest
    | _ =>
      let (word, before) := Word.ofLexeme line above comments l
      let (words, after) := wordsFrom line (line l.pos) [] rest
      (word :: words, before ++ after)

def wordsOf (lines : LineTable) (lexemes : List Lexeme) : List Word × List CommentGroup :=
  wordsFrom (shownLine lines (renumberings lines lexemes)) 0 [] lexemes

end PduCompiler.GoSource
