import PduCompiler.Lineage
import PduCompiler.Number.Word
import PduCompiler.Plan.Action
import PduCompiler.Plan.BitAccessor
import PduCompiler.Table

/-!
Plans. The plan of a class says step by step how an object is constructed, encoded, decoded and
measured. A planned registry is a program.
-/

namespace PduCompiler

open Text

inductive PlanCause where
  | transientCount (list : String)
  | countAfterList (field : String)
  | noKind
  | primitiveList (type : TypeName)
  | floatBitField (name : String)
  deriving DecidableEq, Repr

namespace PlanCause

/-- Constructs that are refused, as against descriptions that are inconsistent. -/
def isUnsupported : PlanCause → Bool
  | primitiveList _ => true
  | floatBitField _ => true
  | _ => false

def message : PlanCause → String
  | transientCount list => s!"count field for {quote list} cannot be transient"
  | countAfterList field => s!"count field {quote field} must precede the list"
  | noKind => "attribute has no kind"
  | primitiveList t => s!"dynamic list of primitive {t} elements"
  | floatBitField name => s!"bit field {quote name} on floating point field"

end PlanCause

structure PlanError where
  className : String
  attr : String
  cause : PlanCause
  deriving DecidableEq, Repr

def PlanError.message (e : PlanError) : String :=
  let kind := if e.cause.isUnsupported then "unsupported" else "invalid"
  let place := if e.attr == "" then e.className else s!"{e.className}.{e.attr}"
  s!"plan {kind}: {place}: {e.cause.message}"

inductive PlanFailure where
  | notSealed (className : String)
  | invalid (error : PlanError)
  deriving DecidableEq, Repr

def PlanFailure.message : PlanFailure → String
  | notSealed className => s!"plan {className}: registry is not sealed"
  | invalid error => error.message

structure ClassPlan where
  description : ClassDescription
  init : List Action := []
  marshal : List Action := []
  unmarshal : List Action := []
  size : List Action := []
  bitFields : List BitAccessor := []
  warnings : List String := []
  deriving DecidableEq, Repr

def ClassPlan.name (p : ClassPlan) : String := p.description.name

structure PlanOptions where
  primitiveLists : Bool := false
  deriving DecidableEq, Repr

namespace Plan

structure WireActions where
  marshal : Action
  unmarshal : Action
  size : Action
  deriving DecidableEq, Repr

def wireActions (options : PlanOptions) (a : Attribute) : Except PlanCause WireActions :=
  match a.kind with
  | none => .error .noKind
  | some (.primitive p) => .ok {
      marshal := if p.countFor == "" then { op := .write, attr := a.name, type := p.type }
        else { op := .writeLength, attr := a.name, type := p.type, list := p.countFor }
      unmarshal := { op := .read, attr := a.name, type := p.type }
      size := { op := .sizeConst, attr := a.name, type := p.type, bytes := p.type.width } }
  | some (.object name) => .ok {
      marshal := { op := .marshal, attr := a.name, className := name }
      unmarshal := { op := .unmarshal, attr := a.name, className := name }
      size := { op := .sizeObject, attr := a.name, className := name } }
  | some (.fixedList n e) =>
    if e.isObject then .ok {
      marshal := { op := .marshalArray, attr := a.name, className := e.className, length := n }
      unmarshal := { op := .unmarshalArray, attr := a.name, className := e.className, length := n }
      size := { op := .sizeArray, attr := a.name, className := e.className, length := n } }
    else .ok {
      marshal := { op := .writeArray, attr := a.name, type := e.type, length := n }
      unmarshal := { op := .readArray, attr := a.name, type := e.type, length := n }
      size := { op := .sizeConst, attr := a.name, type := e.type, length := n,
                bytes := wrap (n * e.type.width) } }
  | some (.dynamicList field e) =>
    if e.isObject then .ok {
      marshal := { op := .marshalList, attr := a.name, className := e.className }
      unmarshal :=
        { op := .unmarshalList, attr := a.name, className := e.className, count := field }
      size := { op := .sizeListObjects, attr := a.name, className := e.className } }
    else if options.primitiveLists then .ok {
      marshal := { op := .writeList, attr := a.name, type := e.type }
      unmarshal := { op := .readList, attr := a.name, type := e.type, count := field }
      size := { op := .sizeList, attr := a.name, type := e.type, bytes := e.type.width } }
    else .error (.primitiveList e.type)

/-- The construction step of an attribute; `overrides` holds the initial values of the class. -/
def initAction (overrides : Table String) (a : Attribute) : Action :=
  match a.kind with
  | some (.primitive p) =>
    let declared := if p.default == "" then "0" else p.default
    { op := .initValue, attr := a.name, type := p.type,
      value := (overrides.get? a.name).getD declared }
  | some (.object name) => { op := .initObject, attr := a.name, className := name }
  | some (.fixedList n e) =>
    if e.isObject then
      { op := .initObjectArray, attr := a.name, className := e.className, length := n }
    else { op := .initArray, attr := a.name, type := e.type, length := n }
  | some (.dynamicList _ e) =>
    { op := .initList, attr := a.name, type := e.type, className := e.className }
  | none => { op := .initList, attr := a.name }

structure InitialValues where
  overrides : Table String := []
  assigns : List Action := []
  warnings : List (String × String) := []

/-- Takes in one initial value. An attribute counts as the class's own only if the class is the
registered one; a description beside the registry owns nothing in it. -/
def InitialValues.take (r : Registry) (c : ClassDescription) (registered : Bool)
    (acc : InitialValues) (v : InitialValue) : InitialValues :=
  match r.findAttribute c.name v.attr with
  | none =>
    let warning :=
      s!"no attribute matches initial value {quote v.attr} in class {c.name} or its ancestors"
    { acc with warnings := acc.warnings ++ [(warning, v.attr)] }
  | some (owner, a) =>
    match a.primitive? with
    | none =>
      let kind := Kind.nameOf a.kind
      let warning :=
        s!"initial value {quote v.attr} in class {c.name} targets a {kind} attribute"
      { acc with warnings := acc.warnings ++ [(warning, v.attr)] }
    | some p =>
      if registered && owner.name == c.name then
        { acc with overrides := acc.overrides.set a.name v.value }
      else
        let assign : Action :=
          { op := .assign, attr := a.name, type := p.type, value := v.value, owner := owner.name }
        { acc with assigns := acc.assigns ++ [assign] }

def initialValues (r : Registry) (c : ClassDescription) (registered : Bool) : InitialValues :=
  c.initialValues.foldl (InitialValues.take r c registered) {}

def countPrecedes (before : List String) (a : Attribute) : Except PlanCause Unit :=
  match a.kind with
  | some (.dynamicList field _) =>
    if before.contains field then .ok () else .error (.countAfterList field)
  | _ => .ok ()

/-- What one attribute adds to the three wire plans: nothing if it is transient. -/
def attributeActions (options : PlanOptions) (before : List String) (a : Attribute) :
    Except PlanCause (Option WireActions) :=
  if a.transient then
    if a.isCountField then .error (.transientCount ((a.primitive?.map (·.countFor)).getD ""))
    else .ok none
  else do
    countPrecedes before a
    return some (← wireActions options a)

def wirePlan (options : PlanOptions) (before : List String) : List Attribute →
    List WireActions × List (String × PlanCause)
  | [] => ([], [])
  | a :: rest =>
    let (actions, bad) := wirePlan options (a.name :: before) rest
    match attributeActions options before a with
    | .ok step => (step.toList ++ actions, bad)
    | .error cause => (actions, (a.name, cause) :: bad)

end Plan

open Plan in
/-- Plans one class over a sealed registry. `registered` says whether the description is the
registry's own. -/
def Registry.plan (r : Registry) (options : PlanOptions) (c : ClassDescription)
    (registered : Bool := true) : List LogEntry × Except (List PlanFailure) ClassPlan :=
  if !r.isSealed then ([], .error [.notSealed c.name])
  else
    let super : List Action :=
      if c.hasParent then [{ op := .super, className := c.parent }] else []
    let values := initialValues r c registered
    let log := values.warnings.map fun (warning, attr) =>
      { level := .warn, message := warning,
        fields := [("attribute", attr), ("class", c.name)] }
    let (wire, bad) := wirePlan options [] c.attributes
    if bad.isEmpty then
      (log, .ok {
        description := c
        init := super ++ c.attributes.map (initAction values.overrides) ++ values.assigns
        marshal := super ++ wire.map (·.marshal)
        unmarshal := super ++ wire.map (·.unmarshal)
        size := super ++ wire.map (·.size)
        bitFields := c.attributes.flatMap BitAccessor.ofAttribute
        warnings := values.warnings.map (·.1) })
    else
      (log, .error (bad.map fun (attr, cause) => .invalid ⟨c.name, attr, cause⟩))

structure Program where
  registry : Registry
  plans : List ClassPlan := []
  deriving DecidableEq, Repr

namespace Program

def plan? (p : Program) (name : String) : Option ClassPlan := p.plans.find? (·.name == name)

def warnings (p : Program) : List String := p.plans.flatMap (·.warnings)

def modify (p : Program) (name : String) (change : ClassPlan → ClassPlan) : Program :=
  { p with plans := p.plans.map fun q => if q.name == name then change q else q }

end Program

inductive PlanAllError where
  | order (error : OrderError)
  | plans (failures : List PlanFailure)
  deriving DecidableEq, Repr

def PlanAllError.messages : PlanAllError → List String
  | order e => [e.message]
  | plans failures => failures.map PlanFailure.message

/-- Plans every class of a registry, or reports the problems of all classes together. -/
def Registry.planAll (r : Registry) (options : PlanOptions) :
    List LogEntry × Except PlanAllError Program :=
  match r.order with
  | .error e => ([], .error (.order e))
  | .ok classes =>
    let results := classes.map (r.plan options)
    let log := orderResolved classes :: results.flatMap (·.1)
    let failures := results.flatMap fun (_, result) =>
      match result with
      | .error bad => bad
      | .ok _ => []
    if failures.isEmpty then
      let plans := results.filterMap fun (_, result) => result.toOption
      let planned : LogEntry :=
        { level := .debug, message := "planned classes",
          fields := [("classes", toString plans.length)] }
      (log ++ [planned], .ok ⟨r, plans⟩)
    else (log, .error (.plans failures))

end PduCompiler
