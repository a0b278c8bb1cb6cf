import PduCompiler.Machine.Error
import PduCompiler.Machine.Instance
import PduCompiler.Plan

/-!
Construction: a new object with the defaults that the init plans of its chain give it. A store is
extended only when the object and all objects inside of it are complete.
-/

namespace PduCompiler

/-- Objects that are to be added to a store in which `first` is the next reference. -/
structure Nursery where
  first : Ref
  objects : Array Instance := #[]

def Nursery.push (n : Nursery) (i : Instance) : Nursery × Ref :=
  ({ n with objects := n.objects.push i }, n.first + n.objects.size)

namespace Program

def buildMany (build : Nursery → Instance → String → Except MachineError (Nursery × Instance))
    (className : String) : Nat → Nursery → Except MachineError (Nursery × List Ref)
  | 0, n => .ok (n, [])
  | count + 1, n => do
    let (n, obj) ← build n { className } className
    let (n, ref) := n.push obj
    let (n, refs) ← buildMany build className count n
    return (n, ref :: refs)

/-- Carries one init action out on an object under construction. `build` constructs an object of a
class on top of fields it has already. -/
def initStep (build : Nursery → Instance → String → Except MachineError (Nursery × Instance))
    (className : String) (state : Nursery × Instance) (act : Action) :
    Except MachineError (Nursery × Instance) :=
  let (n, i) := state
  match act.op with
  | .super => build n i act.className
  | .initValue | .assign =>
    match act.type.readLiteral act.value with
    | .error e => .error (.within className act.attr (.badLiteral e))
    | .ok w => .ok (n, { i with
        types := i.types.set act.attr act.type
        prims := i.prims.set act.attr w })
  | .initObject => do
    let (n, obj) ← build n { className := act.className } act.className
    let (n, ref) := n.push obj
    return (n, { i with objects := i.objects.set act.attr ref })
  | .initArray =>
    .ok (n, { i with arrays := i.arrays.set act.attr (List.replicate act.length.toNat 0) })
  | .initObjectArray => do
    let (n, refs) ← buildMany build act.className act.length.toNat n
    return (n, { i with objectArrays := i.objectArrays.set act.attr refs })
  | .initList =>
    if act.className == "" then .ok (n, { i with primLists := i.primLists.set act.attr [] })
    else .ok (n, { i with lists := i.lists.set act.attr [] })
  | op => .error (.inClass className (.unexpected .init op))

def construct (p : Program) : (depth : Nat) → Nursery → Instance → String →
    Except MachineError (Nursery × Instance)
  | 0, _, _, _ => .error .endless
  | depth + 1, n, i, className =>
    match p.plan? className with
    | none => .error (.unknownClass className)
    | some plan => plan.init.foldlM (initStep (p.construct depth) className) (n, i)

/-- How deep init plans of a planned registry can nest: a chain of classes that hold each other, and
below each of them a chain of parents. -/
def initDepth (p : Program) : Nat := (p.plans.length + 1) * (p.plans.length + 1)

/-- A new object of a class with the objects inside of it, for a store in which `first` is the next
reference. -/
def build (p : Program) (first : Ref) (className : String) :
    Except MachineError (Array Instance × Ref) := do
  let (n, i) ← p.construct p.initDepth { first } { className } className
  let (n, ref) := n.push i
  return (n.objects, ref)

def new (p : Program) (s : Store) (className : String) : Except MachineError (Store × Ref) := do
  let (objects, ref) ← p.build s.size className
  return (s.append objects, ref)

end Program

end PduCompiler
