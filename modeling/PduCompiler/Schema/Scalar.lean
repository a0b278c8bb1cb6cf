import PduCompiler.Text.Blank
import PduCompiler.Text.Category

/-! The ten scalar types of the wire, and the names by which descriptions call them. -/

namespace PduCompiler

inductive Scalar where
  | uint8 | int8 | uint16 | int16 | uint32 | int32 | uint64 | int64 | float32 | float64
  deriving DecidableEq, Repr

namespace Scalar

def all : List Scalar :=
  [uint8, int8, uint16, int16, uint32, int32, uint64, int64, float32, float64]

def name : Scalar → String
  | uint8 => "uint8"
  | int8 => "int8"
  | uint16 => "uint16"
  | int16 => "int16"
  | uint32 => "uint32"
  | int32 => "int32"
  | uint64 => "uint64"
  | int64 => "int64"
  | float32 => "float32"
  | float64 => "float64"

def legacyName : Scalar → String
  | uint8 => "unsigned byte"
  | int8 => "byte"
  | uint16 => "unsigned short"
  | int16 => "short"
  | uint32 => "unsigned int"
  | int32 => "int"
  | uint64 => "unsigned long"
  | int64 => "long"
  | float32 => "float"
  | float64 => "double"

def width : Scalar → Nat
  | uint8 | int8 => 1
  | uint16 | int16 => 2
  | uint32 | int32 | float32 => 4
  | uint64 | int64 | float64 => 8

def bits (t : Scalar) : Nat := 8 * t.width

def isSigned : Scalar → Bool
  | int8 | int16 | int32 | int64 => true
  | _ => false

def isFloat : Scalar → Bool
  | float32 | float64 => true
  | _ => false

def ofName? (s : String) : Option Scalar := all.find? (·.name == s)

/-- The type of a canonical name, or of a legacy one in any case, between blanks. -/
def parse? (s : String) : Option Scalar :=
  let s := Text.trim s
  ofName? s <|> all.find? (·.legacyName == Text.lowered s)

theorem ofName?_name (t : Scalar) : ofName? t.name = some t := by cases t <;> decide

theorem name_of_ofName? {s : String} {t : Scalar} (h : ofName? s = some t) : t.name = s := by
  simpa using List.find?_some h

end Scalar

/-- A type as a description gives it; it need not name a scalar, and is empty where none is
meant. -/
abbrev TypeName := String

namespace TypeName

def scalar? (t : TypeName) : Option Scalar := Scalar.ofName? t

/-- The width in bytes, 0 for a name that is not canonical. -/
def width (t : TypeName) : Nat := t.scalar?.elim 0 Scalar.width

def bits (t : TypeName) : Nat := 8 * t.width

def isFloat (t : TypeName) : Bool := t.scalar?.any Scalar.isFloat

def isSigned (t : TypeName) : Bool := t.scalar?.any Scalar.isSigned

def isCanonical (t : TypeName) : Bool := t.scalar?.isSome

def sizeOf? (t : TypeName) : Option Nat := (Scalar.parse? t).map Scalar.width

end TypeName

end PduCompiler
