import PduCompiler.Schema.Scalar

/-!
Descriptions of classes. The attributes of a class stand in wire order, after those of its parent.
A description may be inconsistent; sealing a registry finds that out.
-/

namespace PduCompiler

structure BitField where
  name : String := ""
  mask : String := ""
  description : String := ""
  /-- The attribute it belongs to, known once the registry is sealed. -/
  owner : String := ""
  deriving DecidableEq, Repr

structure Primitive where
  type : TypeName := ""
  default : String := ""
  bitFields : List BitField := []
  /-- The dynamic list whose length this field carries, known once the registry is sealed. -/
  countFor : String := ""
  deriving DecidableEq, Repr

/-- What a list holds: scalars or objects of a class. A consistent element names only one of
them. -/
structure Element where
  type : TypeName := ""
  className : String := ""
  deriving DecidableEq, Repr

namespace Element

def isObject (e : Element) : Bool := e.className != ""

def text (e : Element) : String := if e.isObject then e.className else e.type

end Element

inductive Kind where
  | primitive (p : Primitive)
  | object (className : String)
  | fixedList (length : Int) (elem : Element)
  | dynamicList (countField : String) (elem : Element)
  deriving DecidableEq, Repr

namespace Kind

def name : Kind → String
  | primitive _ => "primitive"
  | object _ => "classref"
  | fixedList _ _ => "fixedlist"
  | dynamicList _ _ => "dynamiclist"

def primitive? : Kind → Option Primitive
  | primitive p => some p
  | _ => none

def element? : Kind → Option Element
  | fixedList _ e => some e
  | dynamicList _ e => some e
  | _ => none

def nameOf (k : Option Kind) : String := k.elim "none" name

end Kind

structure Attribute where
  name : String := ""
  comment : String := ""
  kind : Option Kind := none
  /-- A transient attribute is part of an object but not of its encoding. -/
  transient : Bool := false
  deriving DecidableEq, Repr

namespace Attribute

def primitive? (a : Attribute) : Option Primitive := a.kind.bind Kind.primitive?

def isCountField (a : Attribute) : Bool := a.primitive?.any (·.countFor != "")

end Attribute

structure InitialValue where
  attr : String := ""
  value : String := ""
  deriving DecidableEq, Repr

def rootName : String := "root"

def isRoot (parent : String) : Bool := parent == "" || parent.map Char.toLower == rootName

structure ClassDescription where
  name : String := ""
  parent : String := ""
  comment : String := ""
  attributes : List Attribute := []
  initialValues : List InitialValue := []
  isAbstract : Bool := false
  xmlRoot : Bool := false
  aliasFor : String := ""
  specialCase : String := ""
  interfaces : String := ""
  deriving DecidableEq, Repr

namespace ClassDescription

def hasParent (c : ClassDescription) : Bool := !isRoot c.parent

def parentName (c : ClassDescription) : String := if c.hasParent then c.parent else rootName

def attribute? (c : ClassDescription) (name : String) : Option Attribute :=
  c.attributes.find? (·.name == name)

end ClassDescription

end PduCompiler
