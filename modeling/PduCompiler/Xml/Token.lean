import PduCompiler.Xml.Name
import PduCompiler.Xml.Text

/-!
The tokens of an XML document. Tags matter to a reader; text, comments, directives and processing
instructions only have to be well formed.
-/

namespace PduCompiler.Xml

inductive Token where
  | openTag (name : QName) (attributes : List (QName × String)) (isEmpty : Bool)
  | closeTag (name : QName)
  | skipped

def splitAt? (pattern : List Char) : List Char → Option (List Char × List Char)
  | [] => none
  | c :: rest =>
    if pattern.isPrefixOf (c :: rest) then some ([], (c :: rest).drop pattern.length)
    else (splitAt? pattern rest).map fun (before, after) => (c :: before, after)

def skipSpace (s : List Char) : List Char :=
  s.dropWhile fun c => c = ' ' || c = '\r' || c = '\n' || c = '\t'

def readName? (s : List Char) : Option (List Char × List Char) :=
  let name := s.takeWhile isNameLike
  let rest := s.dropWhile isNameLike
  if isName name && !rest.isEmpty then some (name, rest) else none

def readQName? (s : List Char) : Option (QName × List Char) := do
  let (name, rest) ← readName? s
  return (← QName.ofChars? name, rest)

def readValue? : List Char → Option (String × List Char)
  | [] => none
  | q :: s =>
    if q = '"' || q = '\'' then
      let raw := s.takeWhile (· ≠ q)
      match s.dropWhile (· ≠ q) with
      | [] => none
      | _ :: rest => if raw.contains '<' then none else (decode? raw).map (·, rest)
    else none

/-- Reads attributes up to the end of the tag. Every attribute takes characters, so `fuel` need not
exceed their number. -/
def readAttributes? : (fuel : Nat) → List (QName × String) → List Char →
    Option (List (QName × String) × Bool × List Char)
  | 0, _, _ => none
  | fuel + 1, attributes, s =>
    match skipSpace s with
    | [] => none
    | '/' :: '>' :: rest => some (attributes, true, rest)
    | '>' :: rest => some (attributes, false, rest)
    | s => do
      let (name, rest) ← readQName? s
      match skipSpace rest with
      | '=' :: rest =>
        let (value, rest) ← readValue? (skipSpace rest)
        readAttributes? fuel (attributes ++ [(name, value)]) rest
      | _ => none

/-- Where a reader of a directive such as `<!DOCTYPE …>` stands. Angle brackets nest, except in
quotes and comments. -/
inductive DirectiveState where
  | plain (depth : Nat)
  | quoted (quote : Char) (depth : Nat)
  | opened (depth seen : Nat)
  /-- In a comment, with the number of hyphens just before, at most two. -/
  | comment (depth hyphens : Nat)

namespace DirectiveState

def enter (depth : Nat) (c : Char) : DirectiveState :=
  if c = '"' || c = '\'' then quoted c depth
  else if c = '>' then plain (depth - 1)
  else if c = '<' then opened depth 0
  else plain depth

def step? : DirectiveState → Char → Option DirectiveState
  | plain depth, c => if c = '>' && depth == 0 then none else some (enter depth c)
  | quoted q depth, c => some (if c = q then plain depth else quoted q depth)
  | opened depth seen, c =>
    if ['!', '-', '-'][seen]? = some c then
      some (if seen == 2 then comment depth 0 else opened depth (seen + 1))
    else some (enter (depth + 1) c)
  | comment depth hyphens, c =>
    if c = '>' && hyphens == 2 then some (plain depth)
    else if c = '-' then some (comment depth (min 2 (hyphens + 1)))
    else some (comment depth 0)

end DirectiveState

def skipDirective? (state : DirectiveState) : List Char → Option (List Char)
  | [] => none
  | c :: rest =>
    match state.step? c with
    | none => some rest
    | some state => skipDirective? state rest

/-- The value of a pseudo attribute in the text of a processing instruction, empty if there is
none. Places where no quote follows the equals sign are passed over, up to `fuel` of them. -/
def pseudoAttribute (param : List Char) : (fuel : Nat) → List Char → List Char
  | 0, _ => []
  | fuel + 1, s =>
    match splitAt? (param ++ ['=']) s with
    | none => []
    | some (_, []) => []
    | some (_, q :: rest) =>
      if q = '"' || q = '\'' then
        if rest.contains q then rest.takeWhile (· ≠ q) else []
      else pseudoAttribute param fuel rest

def isKnownDeclaration (text : List Char) : Bool :=
  let version := pseudoAttribute "version".toList text.length text
  let encoding := pseudoAttribute "encoding".toList text.length text
  (version.isEmpty || version = "1.0".toList) &&
    (encoding.isEmpty || encoding.map Char.toLower = "utf-8".toList)

def readInstruction? (s : List Char) : Option (List Char) := do
  let (target, rest) ← readName? s
  let (text, rest) ← splitAt? ['?', '>'] (skipSpace rest)
  if target = "xml".toList && !isKnownDeclaration text then none else some rest

/-- What follows a comment, after its opening: two hyphens may only stand at its end. -/
def readComment? (s : List Char) : Option (List Char) :=
  match splitAt? ['-', '-'] s with
  | some (_, '>' :: rest) => some rest
  | _ => none

def readSection? (s : List Char) : Option (List Char) := do
  let (raw, rest) ← splitAt? [']', ']', '>'] s
  let _ ← decodeSection? raw
  return rest

def readText? (s : List Char) : Option (List Char) := do
  let raw := s.takeWhile (· ≠ '<')
  if (splitAt? [']', ']', '>'] raw).isSome then none
  else
    let _ ← decode? raw
    return s.dropWhile (· ≠ '<')

def nextToken? : List Char → Option (Token × List Char)
  | '<' :: '/' :: s => do
    let (name, rest) ← readQName? s
    match skipSpace rest with
    | '>' :: rest => some (.closeTag name, rest)
    | _ => none
  | '<' :: '?' :: s => (readInstruction? s).map (.skipped, ·)
  | '<' :: '!' :: '-' :: '-' :: s => (readComment? s).map (.skipped, ·)
  | '<' :: '!' :: '-' :: _ => none
  | '<' :: '!' :: '[' :: s =>
    if "CDATA[".toList.isPrefixOf s then (readSection? (s.drop 6)).map (.skipped, ·) else none
  | '<' :: '!' :: _ :: s => (skipDirective? (.plain 0) s).map (.skipped, ·)
  | '<' :: s => do
    let (name, rest) ← readQName? s
    let (attributes, isEmpty, rest) ← readAttributes? (rest.length + 1) [] rest
    return (.openTag name attributes isEmpty, rest)
  | s => (readText? s).map (.skipped, ·)

/-- The tokens up to the first place where there is none. Every token takes characters, so `fuel`
need not exceed their number by more than one. -/
def tokensWithin : (fuel : Nat) → List Char → List (Option Token)
  | 0, _ => [none]
  | _ + 1, [] => []
  | fuel + 1, s =>
    match nextToken? s with
    | none => [none]
    | some (token, rest) => some token :: tokensWithin fuel rest

def tokens (s : List Char) : List (Option Token) := tokensWithin (s.length + 1) s

end PduCompiler.Xml
