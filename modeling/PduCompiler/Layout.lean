import PduCompiler.Number.Word
import PduCompiler.Registry
import PduCompiler.Table

/-!
Where attributes lie on the wire. The size of a class is known in advance unless a dynamic list is
part of it; offsets are known up to the first such list. Sizes are signed 64-bit numbers and wrap
around, and every negative size means "not known".
-/

namespace PduCompiler

inductive LayoutError where
  | unknownType (type : TypeName)
  | unknownClass (name : String)
  | containsItself (name : String)
  | noKind
  | within (className attr : String) (cause : LayoutError)
  deriving DecidableEq, Repr

def LayoutError.message : LayoutError → String
  | unknownType t => s!"unknown type: {t}"
  | unknownClass name => s!"unknown class: {name}"
  | containsItself name => s!"class {name} contains itself"
  | noKind => "attribute has no kind"
  | within className attr cause => s!"{className}.{attr}: {cause.message}"

namespace LayoutError

/-- Whether an error is told with the place of the attribute it arose in. The errors of a class that
was reached tell their own place. -/
def isOwn : LayoutError → Bool
  | unknownType _ => true
  | noKind => true
  | _ => false

end LayoutError

/-- The extent of an attribute: its size in bytes, or a negative number in place of one where the
size depends on list contents. -/
inductive Extent where
  | known (bytes : Int)
  | varying (mark : Int)
  deriving DecidableEq, Repr

def Extent.toInt : Extent → Int
  | known bytes => bytes
  | varying mark => mark

namespace Registry

def typeSize (t : TypeName) : Except LayoutError Int :=
  match t.sizeOf? with
  | some n => .ok n
  | none => .error (.unknownType t)

/-- The extent of an attribute, given the sizes of classes. A product that wraps around to a
negative number is still a known size. -/
def extent (classSize : String → Except LayoutError Int) (a : Attribute) :
    Except LayoutError Extent :=
  match a.kind with
  | none => .error .noKind
  | some (.primitive p) => return .known (← typeSize p.type)
  | some (.object name) => do
    let n ← classSize name
    return if n < 0 then .varying n else .known n
  | some (.fixedList length e) =>
    if e.isObject then do
      let n ← classSize e.className
      return if n < 0 then .varying n else .known (wrap (length * n))
    else return .known (wrap (length * (← typeSize e.type)))
  | some (.dynamicList _ _) => .ok (.varying (-1))

/-- Adds up the serialised attributes of a class, from a size on. The first one that varies decides
the answer. -/
def sumSizes (className : String) (classSize : String → Except LayoutError Int) (total : Int) :
    List Attribute → Except LayoutError Int
  | [] => .ok total
  | a :: rest =>
    if a.transient then sumSizes className classSize total rest
    else match extent classSize a with
      | .error e => .error (if e.isOwn then .within className a.name e else e)
      | .ok (.varying mark) => .ok mark
      | .ok (.known n) => sumSizes className classSize (wrap (total + n)) rest

/-- The size of a class below the classes being visited. Each step down visits another class, so
`fuel` need not exceed the number of classes by more than one. -/
def sizeBelow (r : Registry) : (fuel : Nat) → (visiting : List String) → (name : String) →
    Except LayoutError Int
  | 0, _, name => .error (.containsItself name)
  | fuel + 1, visiting, name =>
    match r.lookup name with
    | none => .error (.unknownClass name)
    | some c =>
      if visiting.contains name then .error (.containsItself name)
      else do
        let below := r.sizeBelow fuel (name :: visiting)
        let inherited ← if c.hasParent then below c.parent else .ok 0
        if inherited < 0 then return inherited
        sumSizes name below inherited c.attributes

/-- The size on the wire of every object of a class, or a negative number if objects differ. -/
def staticSize (r : Registry) (name : String) : Except LayoutError Int :=
  r.sizeBelow (r.classes.length + 1) [] name

end Registry

/-- The place of one attribute. A start or end that depends on list contents is -1. -/
structure Region where
  isDynamic : Bool
  className : String
  attr : Attribute
  start : Int
  boundary : Int
  deriving DecidableEq, Repr

def Region.kindName (g : Region) : String := if g.isDynamic then "dynamic" else "fixed"

structure Layout where
  name : String
  staticSize : Int := 0
  regions : List Region := []
  errors : List String := []
  deriving DecidableEq, Repr

namespace Layout

def isValid (l : Layout) : Bool := l.errors.isEmpty

def listBeforeCount? (seen : List String) : List Region → Option (String × String)
  | [] => none
  | g :: rest =>
    match g.attr.kind with
    | some (.dynamicList field _) =>
      if seen.contains field then listBeforeCount? (g.attr.name :: seen) rest
      else some (g.attr.name, field)
    | _ => listBeforeCount? (g.attr.name :: seen) rest

end Layout

inductive AnalyzeError where
  | unknownClass (name : String)
  | sizes (count : Nat)
  | listBeforeCount (list field : String)
  deriving DecidableEq, Repr

def AnalyzeError.message : AnalyzeError → String
  | unknownClass name => s!"unknown class: {name}"
  | sizes count => s!"layout has {count} errors"
  | listBeforeCount list field => s!"field '{list}' is read before its count field '{field}'"

namespace Registry

def wireAttributes (r : Registry) (name : String) : List (String × Attribute) :=
  (r.chain name).reverse.flatMap fun c =>
    (c.attributes.filter (!·.transient)).map fun a => (c.name, a)

def placeAll (r : Registry) (offset : Int) : List (String × Attribute) →
    List Region × List String × Int
  | [] => ([], [], offset)
  | (className, a) :: rest =>
    match extent r.staticSize a with
    | .error e =>
      let (regions, errors, final) := r.placeAll offset rest
      (regions, s!"{className}.{a.name}: {e.message}" :: errors, final)
    | .ok known =>
      let size := known.toInt
      let boundary := if size < 0 || offset < 0 then -1 else wrap (offset + size)
      let (regions, errors, final) := r.placeAll boundary rest
      (⟨size < 0, className, a, offset, boundary⟩ :: regions, errors, final)

/-- The layout of a class. With an error comes what could be laid out, if the class is known. -/
def analyze (r : Registry) (name : String) : Option Layout × Option AnalyzeError :=
  if !r.contains name then (none, some (.unknownClass name))
  else
    let (regions, errors, final) := r.placeAll 0 (r.wireAttributes name)
    if !errors.isEmpty then
      (some { name, regions, errors }, some (.sizes errors.length))
    else
      let layout : Layout := { name, regions, staticSize := if final < 0 then -1 else final }
      match Layout.listBeforeCount? [] regions with
      | none => (some layout, none)
      | some (list, field) =>
        let error := AnalyzeError.listBeforeCount list field
        (some { layout with errors := [error.message] }, some error)

end Registry

end PduCompiler
