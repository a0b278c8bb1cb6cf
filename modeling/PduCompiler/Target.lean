import PduCompiler.Target.Go
import PduCompiler.Target.ObjectiveC
import PduCompiler.Target.Python

/-! The target languages under one roof, and what generation takes of any of them. -/

namespace PduCompiler

inductive Target where
  | go (package : String)
  | objectiveC
  | python
  deriving DecidableEq, Repr

structure UnknownTarget where
  name : String
  deriving DecidableEq, Repr

namespace Target

open Text

def names : List String := ["go", "objc", "python"]

def name : Target → String
  | go _ => "go"
  | objectiveC => "objc"
  | python => "python"

/-- The target of a name in any case and between blanks. An empty package means the usual one. -/
def ofName (name package : String) : Except UnknownTarget Target :=
  match lowered (trim name) with
  | "go" => .ok (go (if package == "" then Go.defaultPackage else package))
  | "objc" => .ok objectiveC
  | "python" => .ok python
  | _ => .error ⟨name⟩

def classFiles (t : Target) (p : ClassPlan) : Except RenderError (List SourceFile) :=
  match t with
  | go package => return [← Go.classFile package p]
  | objectiveC => ObjectiveC.classFiles p
  | python => return [← Python.classFile p]

def moduleFiles (t : Target) (p : Program) : Except RenderError (List SourceFile) :=
  match t with
  | go package => return [← Go.moduleFile package p]
  | objectiveC => .ok [ObjectiveC.moduleFile p]
  | python => .ok [Python.moduleFile p]

end Target

/-- What generation takes of a target language: its name, the files of a class, and for some also
those of the program as a whole. An error is what it says. -/
structure Backend where
  name : String
  classFiles : ClassPlan → Except String (List SourceFile)
  moduleFiles? : Option (Program → Except String (List SourceFile))

def Target.backend (t : Target) : Backend where
  name := t.name
  classFiles p := (t.classFiles p).mapError RenderError.message
  moduleFiles? := some fun p => (t.moduleFiles p).mapError RenderError.message

def UnknownTarget.message (e : UnknownTarget) : String :=
  let known := ", ".intercalate Target.names
  s!"unknown backend {Text.quote e.name} (have {known})"

end PduCompiler
