import PduCompiler.Machine.Error
import PduCompiler.Machine.Instance
import PduCompiler.Plan

/-! Bit fields of objects. -/

namespace PduCompiler

inductive BitError where
  | machine (error : MachineError)
  | field (error : FieldError)
  deriving DecidableEq, Repr

def BitError.message : BitError → String
  | machine e => e.message
  | field e => e.message

namespace Program

/-- The accessor of a bit field in a class or the nearest ancestor that has it, going up to a number
of classes. -/
def findBitField (p : Program) : (fuel : Nat) → (className name : String) →
    Except MachineError (Option BitAccessor)
  | 0, _, _ => .error .endless
  | fuel + 1, className, name =>
    match p.plan? className with
    | none => .error (.unknownClass className)
    | some plan =>
      match plan.bitFields.find? (·.name == name) with
      | some b => .ok (some b)
      | none =>
        if plan.description.hasParent then p.findBitField fuel plan.description.parent name
        else .ok none

def bitField (p : Program) (className name : String) : Except BitError BitAccessor :=
  match p.findBitField (p.plans.length + 1) className name with
  | .error e => .error (.machine e)
  | .ok none => .error (.field (.noBitField className name))
  | .ok (some b) => .ok b

def getBits (p : Program) (i : Instance) (name : String) : Except BitError Word := do
  let b ← p.bitField i.className name
  return b.get (i.uint b.field)

/-- Stores the bits of a value; those beyond the mask overwrite neighbouring bits. -/
def setBits (p : Program) (i : Instance) (name : String) (value : Word) :
    Except BitError Instance := do
  let b ← p.bitField i.className name
  match i.setUint b.field (b.set (i.uint b.field) value) with
  | .ok i => return i
  | .error e => throw (.field e)

end Program

end PduCompiler
