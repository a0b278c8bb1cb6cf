import PduCompiler.GoSource.Syntax
import PduCompiler.PatternSort
import PduCompiler.Text.Quoted
import PduCompiler.Text.Blank

/-!
Imports in order. Within a group of imports on successive lines, imports are sorted by their paths,
and of two that say the same one is dropped. An import takes its comments with it.
-/

namespace PduCompiler.GoSource

private def escapedChar (c : Char) : Char :=
  match c with
  | 'a' => '\x07'
  | 'b' => '\x08'
  | 'f' => '\x0c'
  | 'n' => '\n'
  | 'r' => '\r'
  | 't' => '\t'
  | 'v' => '\x0b'
  | c => c

private def bytesOf (c : Char) : List UInt8 := (String.singleton c).toUTF8.toList

/-- The bytes of a string literal after its opening quote. An escape of two hexadecimal or of three
octal digits is a byte, other escapes are characters. Every step takes a character. -/
private def unescaped : (fuel : Nat) → List Char → List UInt8
  | 0, _ => []
  | fuel + 1, s =>
    let byte (base count : Nat) (s : List Char) : List UInt8 :=
      (digits? base count s).elim [] fun (n, rest) => UInt8.ofNat n :: unescaped fuel rest
    let code (count : Nat) (s : List Char) : List UInt8 :=
      (digits? 16 count s).elim [] fun (n, rest) => bytesOf (Char.ofNat n) ++ unescaped fuel rest
    match s with
    | [] | ['"'] => []
    | '\\' :: 'x' :: rest => byte 16 2 rest
    | '\\' :: 'u' :: rest => code 4 rest
    | '\\' :: 'U' :: rest => code 8 rest
    | '\\' :: c :: rest =>
      if c.isDigit then byte 8 3 (c :: rest) else bytesOf (escapedChar c) ++ unescaped fuel rest
    | c :: rest => bytesOf c ++ unescaped fuel rest

def Literal.bytes (l : Literal) : List UInt8 :=
  match l.text.toList with
  | '\x60' :: rest => rest.dropLast.flatMap bytesOf
  | _ :: rest => unescaped rest.length rest
  | [] => []

private def isPathPart (c : Char) : Bool :=
  Text.isPrintable c && !Text.isBlank c &&
    !("!\"#$%&'()*,:;<=>?[\\]^\x7b|\x7d\x60".toList.contains c) && c.toNat ≠ 0xfffd

def Literal.asPath (l : Literal) : Literal :=
  match String.fromUTF8? l.bytes.toByteArray with
  | some s => if !s.isEmpty && s.toList.all isPathPart then { l with text := Text.quote s } else l
  | none => l

private def groupStart (g : CommentGroup) : Nat := (g.head?).elim 0 Comment.pos

private def groupStop (g : CommentGroup) : Nat := (g.getLast?).elim 0 Comment.stop

private structure Import where
  number : Nat
  spec : Spec
  path : List UInt8
  name : String
  comment : CommentGroup
  prose : String

private def Import.ofSpec (number : Nat) (spec : Spec) : Import :=
  match spec with
  | .imported _ name path comment _ =>
    ⟨number, spec, path.bytes, (name.map Ident.name).getD "", comment, proseOf comment⟩
  | _ => ⟨number, spec, [], "", [], ""⟩

private def Import.precedes (a b : Import) : Bool :=
  if a.path ≠ b.path then a.path < b.path
  else if a.name ≠ b.name then a.name < b.name
  else a.prose < b.prose

private def Import.movedTo (i : Import) (start stop : Nat) : Spec :=
  match i.spec with
  | .imported doc name path comment _ =>
    let path := { path with pos := start, stop := start + (path.stop - path.pos) }
    .imported doc (name.map fun x => { x with pos := start }) path comment (some stop)
  | s => s

private structure Attached where
  owner : Nat
  isLeft : Bool
  group : CommentGroup

/-- Gives every comment to an import: to the one that begins before it, or to the next one if the
comment stands on the line between. -/
private def attachComments (lines : LineTable) (specs : List Spec) (groups : List CommentGroup) :
    List Attached :=
  let starts := (specs.map Spec.start).toArray
  (groups.foldl (fun (i, attached) g =>
    let pos := groupStart g
    let i := (List.range starts.size).foldl
      (fun i j => if j = i + 1 && starts.getD j 0 ≤ pos then j else i) i
    if i == 0 && starts.getD 0 0 > pos then (i, ⟨i, true, g⟩ :: attached)
    else if i + 1 < starts.size && lines.lineAt (starts.getD i 0) + 1 == lines.lineAt pos then
      (i + 1, ⟨i + 1, true, g⟩ :: attached)
    else (i, ⟨i, false, g⟩ :: attached)) (0, ([] : List Attached))).2.reverse

/-- Drops an import that the next one repeats. Its line is joined with the one below, unless the two
stand on one line. -/
private def withoutRepeats (lines : LineTable) : List Import → List Import × LineTable
  | [] => ([], lines)
  | [i] => ([i], lines)
  | i :: next :: rest =>
    if i.path = next.path && i.name = next.name && i.comment.isEmpty then
      let line := lines.lineAt i.spec.start
      let lines := if line = lines.lineAt next.spec.start then lines else lines.merge line
      withoutRepeats lines (next :: rest)
    else
      let (kept, lines) := withoutRepeats lines (next :: rest)
      (i :: kept, lines)

/-- Sorts a group of imports, and moves the comments on its lines. The comments of a dropped import
stay where they are. -/
private def sortRun (lines : LineTable) (comments : List CommentGroup) (specs : List Spec) :
    List Spec × LineTable × List CommentGroup :=
  match specs with
  | [] | [_] => (specs, lines, comments)
  | first :: _ =>
    let places := specs.map fun s => (s.start, s.stop)
    let stop := (specs.getLast?).elim 0 Spec.stop
    let stopLine := lines.lineAt stop
    let stop := if stopLine = lines.starts.size then stop else lines.startOf (stopLine + 1)
    let begin := lines.startOf (lines.lineAt first.start)
    let (before, rest) := comments.span fun g => groupStart g < begin
    let (here, after) := rest.span fun g => groupStop g < stop
    let attached := attachComments lines specs here
    let imports := ((List.range specs.length).zip specs).map fun (n, s) => Import.ofSpec n s
    let (kept, lines) := withoutRepeats lines (patternSort Import.precedes imports)
    let placed := kept.zip places
    let groups := attached.map fun c =>
      match placed.find? fun (i, _) => i.number = c.owner with
      | some (_, start, stop) =>
        c.group.map fun d => { d with pos := if c.isLeft then start - 1 else stop }
      | none => c.group
    (placed.map fun (i, start, stop) => i.movedTo start stop, lines,
      before ++ patternSort (fun a b => groupStart a < groupStart b) groups ++ after)

private def runs (lines : LineTable) : List Spec → List (List Spec)
  | [] => []
  | s :: rest =>
    match runs lines rest with
    | (next :: run) :: others =>
      if lines.lineAt next.start > 1 + lines.lineAt s.stop then [s] :: (next :: run) :: others
      else (s :: next :: run) :: others
    | others => [s] :: others

private def Spec.withPath : Spec → Spec
  | .imported doc name path comment stop => .imported doc name path.asPath comment stop
  | s => s

private def joinBlankLines (above below : Nat) : (fuel : Nat) → LineTable → LineTable
  | 0, lines => lines
  | fuel + 1, lines =>
    if lines.lineAt below > lines.lineAt above + 1 then
      joinBlankLines above below fuel (lines.merge (lines.lineAt below - 1))
    else lines

private def sortDecl (f : File) (d : GenDecl) : File × GenDecl :=
  match d.parens with
  | none => (f, d)
  | some (_, rparen) =>
    let (specs, lines, comments) := (runs f.lines d.specs).foldl
      (fun (specs, lines, comments) run =>
        let (run, lines, comments) := sortRun lines comments run
        (specs ++ run, lines, comments)) ([], f.lines, f.comments)
    let lines := match specs.getLast? with
      | some s => joinBlankLines s.start rparen lines.starts.size lines
      | none => lines
    ({ f with lines, comments }, { d with specs })

def File.withSortedImports (f : File) : File :=
  let (f, decls) := f.decls.foldl (fun (f, decls) d =>
    match d with
    | .gen d =>
      if d.keyword = "import" then
        let (f, d) := sortDecl f d
        (f, decls ++ [.gen { d with specs := d.specs.map Spec.withPath }])
      else (f, decls ++ [.gen d])
    | .func d => (f, decls ++ [.func d])) (f, ([] : List Decl))
  { f with decls }

end PduCompiler.GoSource
