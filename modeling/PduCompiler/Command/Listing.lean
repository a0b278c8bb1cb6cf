import PduCompiler.Command.Flags
import PduCompiler.Layout
import PduCompiler.Plan
import PduCompiler.Registry.Seal
import PduCompiler.Schema.Document
import PduCompiler.Text.Name

/-! The command that prints the layout of every class of a description, and its plans if asked. -/

namespace PduCompiler.Command

open Files Text

namespace Listing

def commandName : String := "parse"

def flags : List Flag := [⟨"plans", .switch, "print the planned actions of every class"⟩]

def rangeText (g : Region) : String :=
  if 0 ≤ g.start && 0 ≤ g.boundary then s!"[{g.start}, {g.boundary})"
  else if 0 ≤ g.start then s!"@{g.start}"
  else ""

def regionLine (className : String) (g : Region) : String :=
  let name := padded 28 g.attr.name
  let kind := padded 12 (Kind.nameOf g.attr.kind)
  let extent := padded 8 g.kindName
  let range := rangeText g
  let source := if g.className == className then "" else s!" from {g.className}"
  s!"  {name} {kind} {extent} {range}{source}"

def bitsLine (b : BitAccessor) : String :=
  let name := padded 23 b.name
  s!"  bits {name} {b.field} & {b.mask} >> {b.shift}"

def actionLine (a : Action) : String :=
  let given (label value : String) : String := if value == "" then "" else s!" {label}={value}"
  let length := if 0 < a.length then s!" len={a.length}" else ""
  String.join ["    ", padded 18 a.op.name, " ", a.attr, given "class" a.className,
    given "type" a.type, length, given "count" a.count, given "list" a.list, given "value" a.value]

def actionLines (label : String) (actions : List Action) : List String :=
  s!"  {label}:" :: actions.map actionLine

def planLines (p : ClassPlan) : List String :=
  actionLines "init" p.init ++ actionLines "marshal" p.marshal ++
    actionLines "unmarshal" p.unmarshal ++ actionLines "size" p.size

def classLines (plans : Bool) (p : ClassPlan) (l : Layout) : List String :=
  let size := if 0 ≤ l.staticSize then toString l.staticSize else "dynamic"
  let parent := p.description.parentName
  ["", s!"{p.name} (parent={parent}, size={size})", "Regions:"] ++
    l.regions.map (regionLine p.name) ++ p.bitFields.map bitsLine ++
    p.warnings.map (fun w => s!"  warning: {w}") ++ (if plans then planLines p else [])

/-- Adds one class to what is printed. A class without a layout is only complained about. -/
def addClass (registry : Registry) (plans : Bool) (run : Run) (p : ClassPlan) : Run :=
  match registry.analyze p.name with
  | (_, some e) => { run with complaints := run.complaints ++ [s!"{p.name}: {e.message}"] }
  | (some l, none) => { run with output := run.output ++ classLines plans p l }
  | (none, none) => run

def ofFile (d : Disk) (path : String) (plans : Bool) : Run :=
  match Registry.ofFile d path with
  | .error e => .failed d e.message
  | .ok registry =>
    match registry.toSealed with
    | .error errors => .failed d ("; ".intercalate (errors.map SealError.message))
    | .ok registry =>
      if registry.classes.isEmpty then { disk := d, output := ["No classes found"] }
      else
        match registry.planAll ⟨true⟩ with
        | (_, .error e) => .failed d ("; ".intercalate e.messages)
        | (_, .ok program) => program.plans.foldl (addClass registry plans) { disk := d }

end Listing

open Listing in
def list (d : Disk) (args : List String) : Run :=
  match Arguments.read flags {} args with
  | .error halt => .halted d commandName flags halt
  | .ok a =>
    match a.rest with
    | [] => .misused d s!"{commandName} [-plans] <file.xml>"
    | path :: _ => Listing.ofFile d path (a.isOn "plans")

end PduCompiler.Command
