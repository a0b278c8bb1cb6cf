import PduCompiler.Registry

/-!
Inheritance as a forest. Classes are emitted so that each stands after its parent: first a class,
then everything below it, with siblings in order of name. Operations that have something to tell on
the side, as this one has, return log entries beside their result.
-/

namespace PduCompiler

open Text

inductive LogLevel where
  | debug | info | warn | error
  deriving DecidableEq, Repr

def LogLevel.name : LogLevel → String
  | debug => "debug"
  | info => "info"
  | warn => "warn"
  | error => "error"

def LogLevel.all : List LogLevel := [debug, info, warn, error]

def LogLevel.ofName? (name : String) : Option LogLevel := all.find? (·.name == name)

def LogLevel.covers (level least : LogLevel) : Bool := least.ctorIdx ≤ level.ctorIdx

structure LogEntry where
  level : LogLevel
  message : String
  fields : List (String × String) := []
  deriving DecidableEq, Repr

def LogEntry.text (e : LogEntry) : String :=
  e.fields.foldl (fun line (key, value) => s!"{line} {key}={value}") s!"{e.level.name} {e.message}"

/-- The classes whose chain of parents never ends at the root, in order of name. -/
structure OrderError where
  unplaced : List ClassDescription
  deriving DecidableEq, Repr

namespace OrderError

def names (e : OrderError) : List String := e.unplaced.map (·.name)

def message (e : OrderError) : String :=
  let parts := e.unplaced.map fun c => s!"{c.name} (parent {quote c.parent})"
  let count := e.unplaced.length
  let list := String.intercalate ", " parts
  s!"unresolved or cyclic parent for {count} classes: {list}"

end OrderError

namespace Registry

def isRooted (r : Registry) (c : ClassDescription) : Bool :=
  !((r.ancestors c.name).getLastD c).hasParent

def children (r : Registry) (parent : String) : List ClassDescription :=
  r.classes.filter (·.parentName == parent)

def descendants (r : Registry) : (depth : Nat) → (parent : String) → List ClassDescription
  | 0, _ => []
  | depth + 1, parent => (r.children parent).flatMap fun c => c :: r.descendants depth c.name

def order (r : Registry) : Except OrderError (List ClassDescription) :=
  match r.classes.filter (!r.isRooted ·) with
  | [] => .ok (r.descendants r.classes.length rootName)
  | unplaced => .error ⟨unplaced⟩

def orderResolved (classes : List ClassDescription) : LogEntry :=
  { level := .debug, message := "class order resolved",
    fields := [("classes", toString classes.length)] }

end Registry

end PduCompiler
