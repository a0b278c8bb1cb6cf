import PduCompiler.GoSource.Imports
import PduCompiler.GoSource.Layout.File
import PduCompiler.GoSource.Parse.File
import PduCompiler.Text.Blank

/-!
The standard form of Go source. A source is read and laid out again; where it cannot be read it has
no standard form. A source without package clause may be a fragment, that is declarations or
statements. It is laid out inside of the text that makes a file of it, and taken out again.
-/

namespace PduCompiler.GoSource

/-- What is put around a fragment to make a file of it, and how much of the layout of that file is
not the fragment's own. -/
structure Frame where
  before : String
  after : String
  head : Nat
  tail : Nat
  outdent : Nat

namespace Frame

/-- Declarations are those of a package. The clause ends in one character, a line end or the blank
before a comment. -/
def declarations : Frame := ⟨"package p;", "", 10, 0, 0⟩

/-- Statements are the body of a function. Its end has a line of its own, for comments before it. -/
def statements : Frame := ⟨"package p; func _() \x7b", "\n\n\x7d", 21, 2, 1⟩

/-- The standard form of a fragment whose file has been read. The fragment begins in the first
column of its first line; white space after it is kept. -/
def fragment (frame : Frame) (source : String) (f : File) : String :=
  let text := (Layout.text f frame.outdent source.length).toList.drop frame.head
  let own := Text.trimChars (text.take (text.length - frame.tail))
  let ending := source.toList.reverse.takeWhile fun c => c = ' ' || c = '\t' || c = '\n' || c = '\r'
  if own.isEmpty then source else String.ofList (own ++ ending.reverse)

end Frame

def formatFragment? (source : String) : Option String := do
  let opening (frame : Frame) := Opening.ofSource? (frame.before ++ source ++ frame.after)
  match ← opening .declarations with
  | .whole f => return Frame.declarations.fragment source f
  | .declarations =>
    match ← opening .statements with
    | .whole f => return Frame.statements.fragment source f
    | _ => none
  | .other => none

def format? (source : String) : Option String := do
  match ← Opening.ofSource? source with
  | .whole f => return Layout.text f.withSortedImports 0 source.length
  | .declarations => none
  | .other => formatFragment? source

end PduCompiler.GoSource
