import PduCompiler.Number.IntLiteral
import PduCompiler.Schema.Class

/-!
Access to a bit field: reading takes `(field & mask) >> shift`, writing stores
`(field & ~mask) | (value << shift)`. A value that is too large spills into neighbouring bits.
-/

namespace PduCompiler

structure BitAccessor where
  name : String := ""
  field : String := ""
  type : TypeName := ""
  mask : String := ""
  maskValue : Word := 0
  shift : Int := 0
  description : String := ""
  deriving DecidableEq, Repr

namespace BitAccessor

/-- The end of the run of ones that goes on at position `i`. -/
def runEnd (mask : Word) (bits i : Nat) : Nat :=
  if i + 1 < bits && mask.getLsbD (i + 1) then runEnd mask bits (i + 1) else i
termination_by bits - i
decreasing_by simp at *; omega

/-- The lowest run of ones among the low `bits` bits, from a position on; `(0, 0)` if there is
none. -/
def lowestRunFrom (mask : Word) (bits i : Nat) : Nat × Nat :=
  if i < bits then
    if mask.getLsbD i then (i, runEnd mask bits i) else lowestRunFrom mask bits (i + 1)
  else (0, 0)
termination_by bits - i

def lowestRun (bits : Nat) (mask : Word) : Nat × Nat := lowestRunFrom mask bits 0

/-- How far a value is shifted to lie under a mask within a type. -/
def resolveShift (type mask : String) : Nat :=
  match Scalar.parse? type, IntLiteral.decode? mask with
  | some t, some m => (lowestRun t.bits m).1
  | _, _ => 0

def ofBitField (field : String) (type : TypeName) (b : BitField) : BitAccessor where
  name := b.name
  field := field
  type := type
  mask := b.mask
  maskValue := (IntLiteral.decode? b.mask).getD 0
  shift := resolveShift type b.mask
  description := b.description

def ofAttribute (a : Attribute) : List BitAccessor :=
  match a.primitive? with
  | none => []
  | some p => p.bitFields.map (ofBitField a.name p.type)

/-- Nothing is left of a value that is shifted by a negative amount. -/
def get (b : BitAccessor) (field : Word) : Word :=
  if b.shift < 0 then 0 else (field &&& b.maskValue) >>> b.shift.toNat

def set (b : BitAccessor) (field value : Word) : Word :=
  (field &&& ~~~b.maskValue) ||| if b.shift < 0 then 0 else value <<< b.shift.toNat

/-- The mask cut to the width of the type; unknown types have no width. -/
def narrowMask (b : BitAccessor) : Word :=
  if 64 ≤ b.type.bits then b.maskValue else b.maskValue.truncate b.type.bits

end BitAccessor

end PduCompiler
