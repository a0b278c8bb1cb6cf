import PduCompiler.Schema.Class
import PduCompiler.Text.Quoted

/-!
The classes of one run, in increasing order of name. Classes are added one by one until the registry
is sealed; from then on it does not change.
-/

namespace PduCompiler

open Text

structure Registry where
  classes : List ClassDescription := []
  isSealed : Bool := false
  deriving DecidableEq, Repr

inductive AddError where
  | registrySealed
  | unnamed
  | reserved (name : String)
  | duplicate (name : String)
  deriving DecidableEq, Repr

def AddError.message : AddError → String
  | registrySealed => "registry is sealed"
  | unnamed => "class has no name"
  | reserved name => s!"class name {quote name} is reserved"
  | duplicate name => s!"duplicate class {quote name}"

inductive CountFieldError where
  | unknownClass (name : String)
  | notFound (className field : String)
  | notPrimitive (className field kind : String)
  deriving DecidableEq, Repr

def CountFieldError.message : CountFieldError → String
  | unknownClass name => s!"unknown class {quote name}"
  | notFound className field => s!"{className}: count field {quote field} not found"
  | notPrimitive className field kind =>
    s!"{className}: count field {quote field} must be a primitive, got {kind}"

namespace Registry

def lookup (r : Registry) (name : String) : Option ClassDescription :=
  r.classes.find? (·.name == name)

def contains (r : Registry) (name : String) : Bool := (r.lookup name).isSome

def names (r : Registry) : List String := r.classes.map (·.name)

def insertByName (c : ClassDescription) : List ClassDescription → List ClassDescription
  | [] => [c]
  | d :: rest => if c.name < d.name then c :: d :: rest else d :: insertByName c rest

def add (r : Registry) (c : ClassDescription) : Except AddError Registry :=
  if r.isSealed then .error .registrySealed
  else if c.name == "" then .error .unnamed
  else if isRoot c.name then .error (.reserved c.name)
  else if r.contains c.name then .error (.duplicate c.name)
  else .ok { r with classes := insertByName { c with parent := c.parentName } r.classes }

def countField (r : Registry) (className field : String) :
    Except CountFieldError (Attribute × Primitive) :=
  match r.lookup className with
  | none => .error (.unknownClass className)
  | some c =>
    match c.attribute? field with
    | none => .error (.notFound className field)
    | some a =>
      match a.primitive? with
      | none => .error (.notPrimitive className field (Kind.nameOf a.kind))
      | some p => .ok (a, p)

/-- Walks up from a class. The walk ends at a class without a parent, before a parent that is not
registered and before a name in `seen`; each step adds a name to `seen`, so `fuel` need not exceed
the number of classes. -/
def ancestorsFrom (r : Registry) : (fuel : Nat) → (seen : List String) → ClassDescription →
    List ClassDescription
  | 0, _, _ => []
  | fuel + 1, seen, c =>
    if c.hasParent && !seen.contains c.parent then
      match r.lookup c.parent with
      | none => []
      | some p => p :: r.ancestorsFrom fuel (c.parent :: seen) p
    else []

def ancestors (r : Registry) (name : String) : List ClassDescription :=
  match r.lookup name with
  | none => []
  | some c => r.ancestorsFrom r.classes.length [name] c

def chain (r : Registry) (name : String) : List ClassDescription :=
  (r.lookup name).toList ++ r.ancestors name

/-- The nearest class of the chain that declares an attribute, with the attribute. -/
def findAttribute (r : Registry) (className attr : String) :
    Option (ClassDescription × Attribute) :=
  (r.chain className).findSome? fun c => (c.attribute? attr).map fun a => (c, a)

end Registry

end PduCompiler
