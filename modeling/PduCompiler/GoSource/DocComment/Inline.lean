import PduCompiler.GoSource.DocComment.Span
import PduCompiler.Text.Category

/-!
The text inside a documentation comment. Doubled quotes become quotation marks, except within
addresses; a text in brackets that has been given an address or names a package is a link.
-/

namespace PduCompiler.GoSource.DocComment

open Text

/-- Characters in places of bytes: a character that takes several bytes is followed by fillers. -/
def spread (s : List Char) : List Char :=
  s.flatMap fun c => c :: List.replicate (c.utf8Size - 1) '\x00'

def unspread (s : List Char) : List Char := s.filter (· ≠ '\x00')

def isScheme (s : List Char) : Bool :=
  ["file", "ftp", "gopher", "http", "https", "mailto", "nntp"].contains (String.ofList s)

def isHostPart (c : Char) : Bool := c.isAlphanum || ['_', '@', '-', '.', '[', ']', ':'].contains c

def isStop (c : Char) : Bool := ['.', ',', ':', ';', '?', '!'].contains c

def isPathPart (c : Char) : Bool :=
  c.isAlphanum || ['$', '\'', '(', ')', '*', '+', '&', '#', '=', '@', '~', '_', '/', '-', '[', ']',
    '\x7b', '\x7d', '%'].contains c

def hostLength (s : List Char) : Nat :=
  (dropEndWhile isStop (s.takeWhile isHostPart)).length

/-- The length of the path that a text begins with. Brackets in it have to match, and it does not
end in punctuation or within brackets. `open?` are the brackets to be closed, `i` is the length so
far and `best` the length up to the last possible end. -/
def pathLength (open? : List Char) (i best : Nat) : List Char → Nat
  | [] => best
  | c :: rest =>
    if isStop c then pathLength open? (i + 1) best rest
    else if !isPathPart c then best
    else
      let opened : Option (List Char) :=
        if c = '(' then some (')' :: open?)
        else if c = '\x7b' then some ('\x7d' :: open?)
        else if c = '[' then some (']' :: open?)
        else if c = ')' || c = '\x7d' || c = ']' then
          match open? with
          | d :: others => if c = d then some others else none
          | [] => none
        else some open?
      match opened with
      | none => best
      | some open? => pathLength open? (i + 1) (if open?.isEmpty then i + 1 else best) rest

def addressLength? (s : List Char) : Option Nat :=
  if (s.drop 6).isEmpty then none
  else
    match [3, 4, 5, 6].find? fun i => s[i]? = some ':' with
    | none => none
    | some i =>
      let rest := s.drop (i + 3)
      if (s.drop i).take 3 = [':', '/', '/'] && isScheme (s.take i) &&
          rest.head?.any (fun c => isHostPart c && !isStop c) then
        let host := hostLength rest
        some (pathLength [] (i + 3 + host) (i + 3 + host) (rest.drop host))
      else none

/-- The length of the name that a text in places of bytes begins with; digits are those of ASCII. -/
def nameLength : (isFirst : Bool) → List Char → Nat
  | _, [] => 0
  | isFirst, c :: rest =>
    if c.toNat < 128 then
      if c = '\x00' then (if isFirst then 0 else nameLength false rest + 1)
      else if c = '_' || c.isAlpha || (!isFirst && c.isDigit) then nameLength false rest + 1
      else 0
    else if isLetter c then nameLength false rest + 1
    else 0

/-- A text with quotation marks, in places of bytes; `i` places stand before it. Addresses are left
alone if `hasAddresses`. A run of three backquotes is kept, with the backquotes that follow it `i`
places behind. Every step takes a place. -/
private def quotedFrom (hasAddresses : Bool) : (fuel i : Nat) → List Char → List Char
  | 0, _, _ => []
  | _, _, [] => []
  | fuel + 1, i, c :: rest =>
    let s := c :: rest
    let kept : Nat :=
      if hasAddresses then (addressLength? s).getD (nameLength true s) else 0
    if kept > 0 then s.take kept ++ quotedFrom hasAddresses fuel (i + kept) (s.drop kept)
    else match c, rest with
      | '\x60', '\x60' :: '\x60' :: _ =>
        let n := 3 + ((s.drop (i + 3)).takeWhile (· = '\x60')).length
        s.take n ++ quotedFrom hasAddresses fuel (i + n) (s.drop n)
      | '\x60', '\x60' :: rest => '“' :: quotedFrom hasAddresses fuel (i + 2) rest
      | '\'', '\'' :: rest => '”' :: quotedFrom hasAddresses fuel (i + 2) rest
      | _, _ => c :: quotedFrom hasAddresses fuel (i + 1) rest

def quotedText (hasAddresses : Bool) (text : List Char) : List Char :=
  let text := spread text
  unspread (quotedFrom hasAddresses text.length 0 text)

structure LinkDef where
  text : List Char
  address : List Char
  deriving DecidableEq, Repr

private def splitAtText? (mark : List Char) : List Char → Option (List Char × List Char)
  | [] => none
  | c :: rest =>
    if mark.isPrefixOf (c :: rest) then some ([], (c :: rest).drop mark.length)
    else (splitAtText? mark rest).map fun (before, after) => (c :: before, after)

def LinkDef.ofLine? (l : Line) : Option LinkDef :=
  match l with
  | '[' :: _ =>
    match splitAtText? [']', ':'] l with
    | some (before, c :: d :: rest) =>
      let address := trimChars (d :: rest)
      match splitAtText? [':', '/', '/'] address with
      | some (scheme, _) =>
        if isIndent c && isScheme scheme then some ⟨before.drop 1, address⟩ else none
      | none => none
    | _ => none
  | _ => none

def bordersLink (c : Option Char) : Bool :=
  c.all fun c => isPunctuation c || c = ' ' || c = '\t' || c = '\n'

def isExportedName (s : List Char) : Bool :=
  let places := spread s
  s.head?.any isUpper && nameLength true places == places.length

def withoutName (s : List Char) : List Char × Bool :=
  let name := (s.reverse.takeWhile (· ≠ '.')).reverse
  if isExportedName name then (s.take (s.length - name.length - 1), true) else (s, false)

def standardPackages : List String :=
  ["bufio", "bytes", "cmp", "context", "crypto", "embed", "encoding", "errors", "expvar", "flag",
    "fmt", "hash", "html", "image", "io", "iter", "log", "maps", "math", "mime", "net", "os",
    "path", "plugin", "reflect", "regexp", "runtime", "slices", "sort", "strconv", "strings",
    "structs", "sync", "syscall", "testing", "time", "unicode", "unique", "unsafe", "weak"]

def isPackagePath (s : List Char) : Bool :=
  let isPart (part : List Char) : Bool :=
    !part.isEmpty && part.head? ≠ some '.' && part.getLast? ≠ some '.' &&
      part.all fun c => c.isAlphanum || ['-', '.', '~', '_', '+'].contains c
  s.head? ≠ some '-' && (s.splitOn '/').all isPart

/-- Whether a text in brackets names a package, or something in one: it may be a pointer to a type,
and a method is named after its type. A path with a slash is taken for that of a package. -/
def namesPackage (s : List Char) : Bool :=
  let s := if s.head? = some '*' then s.drop 1 else s
  let (package, isNamed) := withoutName s
  let package := if isNamed then (withoutName package).1 else package
  if package.contains '/' then isPackagePath package
  else standardPackages.contains (String.ofList package)

/-- The state of a search for links: what has been written, what is to be written up to the bracket
last opened and after it, the text read since the first bracket, and the character before the
bracket last opened and before the place reached. Texts are in reverse. -/
private structure Search where
  done : List Char
  pending : List Char
  inside : Option (List Char)
  key : List Char
  used : List (List Char)
  border : Option Char
  before : Option Char

private def Search.close (defs : List LinkDef) (after : Option Char) (s : Search) : Search :=
  match s.inside with
  | none => { s with pending := ']' :: s.pending, key := [] }
  | some inside =>
    let isDefined := defs.any (·.text = s.key.reverse)
    let isLink := isDefined ||
      (bordersLink s.border && bordersLink after && namesPackage inside.reverse)
    if isLink then
      let text :=
        quotedText true s.pending.reverse ++ '[' :: quotedText false inside.reverse ++ [']']
      { s with
        done := text.reverse ++ s.done
        pending := []
        inside := none
        key := []
        used := if isDefined then s.used ++ [s.key.reverse] else s.used }
    else { s with pending := ']' :: (inside ++ '[' :: s.pending), inside := none, key := [] }

private def Search.step (defs : List LinkDef) (c : Char) (after : Option Char) (s : Search) :
    Search :=
  let s' : Search :=
    if c = '[' then
      match s.inside with
      | none => { s with inside := some [], border := s.before }
      | some inside =>
        { s with pending := inside ++ '[' :: s.pending, inside := some [], border := s.before }
    else if c = ']' then s.close defs after
    else match s.inside with
      | none => { s with pending := c :: s.pending }
      | some inside =>
        { s with
          inside := some (c :: inside)
          key := (if c = '\n' || c = '\t' then ' ' else c) :: s.key }
  { s' with before := some c }

private def Search.run (defs : List LinkDef) : List Char → Search → Search
  | [], s => s
  | c :: rest, s => Search.run defs rest (s.step defs c rest.head?)

def linkedText (defs : List LinkDef) (text : List Char) : List Char × List (List Char) :=
  let s := Search.run defs text ⟨[], [], none, [], [], none, none⟩
  let rest := match s.inside with
    | some inside => inside ++ '[' :: s.pending
    | none => s.pending
  (s.done.reverse ++ quotedText true rest.reverse, s.used)

end PduCompiler.GoSource.DocComment
