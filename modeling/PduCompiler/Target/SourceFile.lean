import PduCompiler.Plan

/-!
Generated files, and what the target languages share: the notice on top of every file and the
classes that a class refers to.
-/

namespace PduCompiler

structure SourceFile where
  name : String
  content : String
  deriving DecidableEq, Repr

inductive Method where
  | init | marshal | unmarshal | size
  deriving DecidableEq, Repr

def Method.name : Method → String
  | init => "init"
  | marshal => "marshal"
  | unmarshal => "unmarshal"
  | size => "size"

inductive RenderError where
  | refused (error : PlanError)
  | unexpected (className : String) (method : Method) (op : Op)
  /-- A step names a type that the target language has no counterpart for. -/
  | untyped (className : String) (type : TypeName)
  | malformed (name : String)
  deriving DecidableEq, Repr

def RenderError.message : RenderError → String
  | refused e => e.message
  | unexpected c m op => s!"{c}: unexpected {m.name} action {op.name}"
  | untyped c t => s!"{c}: no type for {t}"
  | malformed name => s!"format {name}"

namespace Target

def unlines (lines : List String) : String := lines.foldl (fun s line => s ++ line ++ "\n") ""

def notice : List String :=
  ["This code is licensed under the BSD software license.", "Generated by pdugen. Do not edit."]

def linesOf (p : ClassPlan) (method : Method) (actions : List Action)
    (step : Action → Option (List String)) : Except RenderError (List String) :=
  List.flatten <$> actions.mapM fun a =>
    match step a with
    | some lines => .ok lines
    | none => .error (.unexpected p.name method a.op)

def addName (names : List String) (name : String) : List String :=
  if name == "" || names.contains name then names else names ++ [name]

def constructed (a : Action) : List String :=
  match a.op with
  | .initObject | .initObjectArray | .initList => [a.className]
  | _ => []

/-- The classes that a class refers to: its parent, then the classes of its objects and elements as
they are declared. -/
def references (p : ClassPlan) : List String :=
  let parent := if p.description.hasParent then [p.description.parent] else []
  ((parent ++ p.init.flatMap constructed).foldl addName [p.name]).drop 1

def floatBitField? (p : ClassPlan) : Option RenderError :=
  (p.bitFields.find? (·.type.isFloat)).map fun b =>
    .refused ⟨p.name, b.field, .floatBitField b.name⟩

def withoutKind (p : ClassPlan) (a : Attribute) : RenderError := .refused ⟨p.name, a.name, .noKind⟩

def hexLiteral (w : Word) : String := "0x" ++ (String.ofList (Nat.toDigits 16 w.toNat)).toUpper

end Target

end PduCompiler
