import PduCompiler.Machine.Error
import PduCompiler.Machine.Instance
import PduCompiler.Plan

/-! Encoding and measuring objects. Scalars are written with the most significant byte first. -/

namespace PduCompiler

/-- A scalar on the wire. A type without a width is written with eight bytes. -/
def TypeName.encode (t : TypeName) (w : Word) : List UInt8 :=
  bigEndian (t.scalar?.elim 8 Scalar.width) w.toNat

namespace Program

/-- The bytes of one marshal action. `below` encodes an object by the plan of a class. -/
def encodeAction (s : Store) (below : Instance → String → Except MachineError (List UInt8))
    (className : String) (i : Instance) (act : Action) : Except MachineError (List UInt8) :=
  let object (ref : Option Ref) : Except MachineError (List UInt8) :=
    match ref.bind s.get? with
    | none => .error .noObject
    | some obj => below obj obj.className
  let objects (refs : List Ref) : Except MachineError (List UInt8) :=
    return (← refs.mapM fun ref => object (some ref)).flatten
  match act.op with
  | .super => below i act.className
  | .write => .ok (act.type.encode (i.uint act.attr))
  | .writeLength => .ok (act.type.encode (BitVec.ofNat 64 (i.listLength act.list)))
  | .marshal => object (i.object? act.attr)
  | .writeArray => .ok ((i.array act.attr).flatMap act.type.encode)
  | .marshalArray => objects (i.objectArray act.attr)
  | .writeList => .ok ((i.primList act.attr).flatMap act.type.encode)
  | .marshalList => objects (i.list act.attr)
  | op => .error (.inClass className (.unexpected .marshal op))

def encode (p : Program) (s : Store) : (depth : Nat) → Instance → String →
    Except MachineError (List UInt8)
  | 0, _, _ => .error .endless
  | depth + 1, i, className =>
    match p.plan? className with
    | none => .error (.unknownClass className)
    | some plan => do
      let parts ← plan.marshal.mapM (encodeAction s (p.encode s depth) className i)
      return parts.flatten

/-- How deep plans can nest over a store: a chain of objects, and for each a chain of parents. -/
def depthOver (p : Program) (s : Store) : Nat := (s.size + 1) * (p.plans.length + 1)

def marshal (p : Program) (s : Store) (i : Instance) : Except MachineError (List UInt8) :=
  p.encode s (p.depthOver s) i i.className

def measureAction (s : Store) (below : Instance → String → Except MachineError Int)
    (className : String) (i : Instance) (act : Action) : Except MachineError Int :=
  let object (ref : Option Ref) : Except MachineError Int :=
    match ref.bind s.get? with
    | none => .error .noObject
    | some obj => below obj obj.className
  let objects (refs : List Ref) : Except MachineError Int :=
    refs.foldlM (fun total ref => return wrap (total + (← object (some ref)))) 0
  match act.op with
  | .super => below i act.className
  | .sizeConst => .ok act.bytes
  | .sizeObject => object (i.object? act.attr)
  | .sizeArray => objects (i.objectArray act.attr)
  | .sizeList => .ok (wrap ((i.primList act.attr).length * act.bytes))
  | .sizeListObjects => objects (i.list act.attr)
  | op => .error (.inClass className (.unexpected .size op))

def measure (p : Program) (s : Store) : (depth : Nat) → Instance → String →
    Except MachineError Int
  | 0, _, _ => .error .endless
  | depth + 1, i, className =>
    match p.plan? className with
    | none => .error (.unknownClass className)
    | some plan => plan.size.foldlM
        (fun total act =>
          return wrap (total + (← measureAction s (p.measure s depth) className i act))) 0

def size (p : Program) (s : Store) (i : Instance) : Except MachineError Int :=
  p.measure s (p.depthOver s) i i.className

end Program

end PduCompiler
