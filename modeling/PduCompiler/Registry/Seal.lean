import PduCompiler.Registry.Embedding
import PduCompiler.Table

/-!
Sealing checks a registry for consistency, ties each count field to its list and each bit field to
its attribute, and freezes the registry. All problems are reported together; cycles of embedding
are looked for only when each class is consistent by itself.
-/

namespace PduCompiler

open Text

inductive SealError where
  | unnamedAttribute (className : String)
  | duplicateAttribute (className attr : String)
  | noKind (className attr : String)
  | unknownType (className attr : String) (type : TypeName)
  | unknownElementType (className attr : String) (type : TypeName)
  | mixedElement (className attr : String) (elem : Element)
  | unknownClass (className attr name : String)
  | badLength (className attr : String) (length : Int)
  | countField (className attr : String) (cause : CountFieldError)
  | floatCount (className attr field : String) (type : TypeName)
  | sharedCount (className field first second : String)
  | embedsItself (path : List String)
  deriving DecidableEq, Repr

def SealError.message : SealError → String
  | unnamedAttribute c => s!"{c}: attribute has no name"
  | duplicateAttribute c a => s!"{c}: duplicate attribute {quote a}"
  | noKind c a => s!"{c}.{a}: attribute has no kind"
  | unknownType c a t => s!"{c}.{a}: unknown primitive type {quote t}"
  | unknownElementType c a t => s!"{c}.{a}: unknown element type {quote t}"
  | mixedElement c a e => s!"{c}.{a}: element is both {e.type} and {e.className}"
  | unknownClass c a name => s!"{c}.{a}: unknown class {quote name}"
  | badLength c a n => s!"{c}.{a}: fixed list length must be positive, got {n}"
  | countField c a cause => s!"{c}.{a}: {cause.message}"
  | floatCount c a field t =>
    s!"{c}.{a}: count field {quote field} must be an integer type, got {t}"
  | sharedCount c field first second =>
    s!"{c}: count field {quote field} shared by {quote first} and {quote second}"
  | embedsItself path =>
    let name := path.getLastD ""
    let steps := String.intercalate " -> " path
    s!"class {quote name} embeds itself: {steps}"

namespace Registry

def checkClassName (r : Registry) (c a name : String) : List SealError :=
  if r.contains name then [] else [.unknownClass c a name]

def checkElement (r : Registry) (c a : String) (e : Element) : List SealError :=
  if e.isObject then
    if e.type != "" then [.mixedElement c a e] else r.checkClassName c a e.className
  else if e.type.isCanonical then [] else [.unknownElementType c a e.type]

def checkDynamicList (r : Registry) (c a field : String) (elem : Element) (counted : Table String) :
    List SealError × Table String :=
  let bad := r.checkElement c a elem
  match r.countField c field with
  | .error cause => (bad ++ [.countField c a cause], counted)
  | .ok (_, p) =>
    let float := if p.type.isFloat then [.floatCount c a field p.type] else []
    let shared := (counted.get? field).toList.map fun first => .sharedCount c field first a
    (bad ++ float ++ shared, counted.set field a)

/-- Goes through the attributes of a class with the names seen so far and the lists seen so far by
their count fields. -/
def checkAttributes (r : Registry) (c : String) (seen : List String) (counted : Table String) :
    List Attribute → List SealError
  | [] => []
  | a :: rest =>
    if a.name == "" then .unnamedAttribute c :: r.checkAttributes c seen counted rest
    else
      let repeated := if seen.contains a.name then [.duplicateAttribute c a.name] else []
      let (bad, counted) := match a.kind with
        | none => ([.noKind c a.name], counted)
        | some (.primitive p) =>
          (if p.type.isCanonical then [] else [.unknownType c a.name p.type], counted)
        | some (.object name) => (r.checkClassName c a.name name, counted)
        | some (.fixedList n e) =>
          ((if 0 < n then [] else [.badLength c a.name n]) ++ r.checkElement c a.name e, counted)
        | some (.dynamicList field e) => r.checkDynamicList c a.name field e counted
      repeated ++ bad ++ r.checkAttributes c (a.name :: seen) counted rest

def checkClass (r : Registry) (c : ClassDescription) : List SealError :=
  r.checkAttributes c.name [] [] c.attributes

/-- All problems of a registry: those of single classes, or else cycles of embedding. -/
def problems (r : Registry) : List SealError :=
  match r.classes.flatMap r.checkClass with
  | [] => r.embeddingCycles.map .embedsItself
  | bad => bad

def countedList? (attributes : List Attribute) (field : String) : Option String :=
  (attributes.reverse.find? fun a =>
    match a.kind with
    | some (.dynamicList f _) => f == field
    | _ => false).map (·.name)

/-- An attribute with what sealing knows about it: the list it counts and the owner of its bits. -/
def linkAttribute (attributes : List Attribute) (a : Attribute) : Attribute :=
  match a.kind with
  | some (.primitive p) =>
    let p := { p with
      countFor := (countedList? attributes a.name).getD p.countFor
      bitFields := p.bitFields.map fun b => { b with owner := a.name } }
    { a with kind := some (.primitive p) }
  | _ => a

def linkClass (c : ClassDescription) : ClassDescription :=
  { c with attributes := c.attributes.map (linkAttribute c.attributes) }

def toSealed (r : Registry) : Except (List SealError) Registry :=
  if r.isSealed then .ok r
  else match r.problems with
    | [] => .ok { classes := r.classes.map linkClass, isSealed := true }
    | bad => .error bad

end Registry

end PduCompiler
