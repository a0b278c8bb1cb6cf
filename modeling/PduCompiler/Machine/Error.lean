import PduCompiler.Literal
import PduCompiler.Plan.Action
import PduCompiler.Schema.Class

/-! What can go wrong when plans are carried out. -/

namespace PduCompiler

def maxListCount : Nat := Nat.pow 2 24

inductive Phase where
  | init | marshal | unmarshal | size
  deriving DecidableEq, Repr

def Phase.name : Phase → String
  | init => "init"
  | marshal => "marshal"
  | unmarshal => "unmarshal"
  | size => "size"

inductive MachineError where
  | unknownClass (name : String)
  | shortBuffer (need offset left : Nat)
  | countTooLarge (field : String) (count : Nat)
  | badLiteral (error : LiteralError)
  | unexpected (phase : Phase) (op : Op)
  | within (className attr : String) (cause : MachineError)
  | inClass (className : String) (cause : MachineError)
  /-- A plan reaches outside the storage of a fixed list or asks for a type without a width. -/
  | outOfBounds
  | noObject
  | endless
  deriving DecidableEq, Repr

namespace MachineError

def message : MachineError → String
  | unknownClass name => s!"unknown class: {name}"
  | shortBuffer need offset left =>
    s!"short buffer: need {need} bytes at offset {offset}, have {left}"
  | countTooLarge field count => s!"count field {field} = {count} exceeds {maxListCount}"
  | badLiteral e => e.message
  | unexpected phase op => s!"unexpected {phase.name} action {op.name}"
  | within className attr cause => s!"{className}.{attr}: {cause.message}"
  | inClass className cause => s!"{className}: {cause.message}"
  | outOfBounds => "access outside a fixed list"
  | noObject => "missing object"
  | endless => "endless recursion"

def root : MachineError → MachineError
  | within _ _ cause => cause.root
  | inClass _ cause => cause.root
  | e => e

end MachineError

end PduCompiler
