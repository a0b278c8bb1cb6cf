import PduCompiler.Proofs.Making
import PduCompiler.Target

/-! Planned classes in the target languages. The plan of a method holds operations of this method
only, and every target language knows all of them. So a class is refused for a bit field on a
floating point attribute and for nothing else, until its source is brought into standard form. -/

namespace PduCompiler

def Method.ops : Method → List Op
  | .init => Program.initOps
  | .marshal => [.super, .write, .writeLength, .marshal, .writeArray, .marshalArray, .writeList,
      .marshalList]
  | .unmarshal => [.super, .read, .unmarshal, .readArray, .unmarshalArray, .readList,
      .unmarshalList]
  | .size => [.super, .sizeConst, .sizeObject, .sizeArray, .sizeList, .sizeListObjects]

def Op.scalarOps : List Op :=
  [.write, .writeLength, .writeArray, .writeList, .read, .readArray, .readList]

def ClassPlan.steps (q : ClassPlan) : Method → List Action
  | .init => q.init
  | .marshal => q.marshal
  | .unmarshal => q.unmarshal
  | .size => q.size

structure Action.Suits (act : Action) (m : Method) : Prop where
  op_mem : act.op ∈ m.ops
  canonical : act.op ∈ Op.scalarOps → act.type.isCanonical = true

structure ClassPlan.Suitable (q : ClassPlan) : Prop where
  steps : ∀ m, ∀ act ∈ q.steps m, act.Suits m
  kinds : ∀ a ∈ q.description.attributes, a.kind ≠ none
  bitFields : q.bitFields = q.description.attributes.flatMap BitAccessor.ofAttribute

section Planned

variable {r : Registry} {c : ClassDescription} {a : Attribute} {q : ClassPlan}

theorem Plan.wire_suits (h : r.KindSound c a) :
    (wire a).marshal.Suits .marshal ∧ (wire a).unmarshal.Suits .unmarshal ∧
      (wire a).size.Suits .size := by
  have hscalar : ∀ e : Element, e.isObject = false → r.ElementSound e →
      e.type.isCanonical = true := by
    intro e he hs
    simpa [Registry.ElementSound, he] using hs
  have hk := h
  unfold Registry.KindSound at hk
  cases Attribute.form h.ne_none with
  | word q hq =>
    simp only [hq] at hk
    by_cases hcount : q.countFor = "" <;> refine ⟨⟨?_, ?_⟩, ⟨?_, ?_⟩, ⟨?_, ?_⟩⟩ <;>
      simp [wire, wireActions, hq, hcount, hk, Except.toOption, Method.ops, Op.scalarOps]
  | object name hq =>
    refine ⟨⟨?_, ?_⟩, ⟨?_, ?_⟩, ⟨?_, ?_⟩⟩ <;>
      simp [wire, wireActions, hq, Except.toOption, Method.ops, Op.scalarOps]
  | array n e hq he =>
    simp only [hq] at hk
    have ht := hscalar e he hk.2
    refine ⟨⟨?_, ?_⟩, ⟨?_, ?_⟩, ⟨?_, ?_⟩⟩ <;>
      simp [wire, wireActions, hq, he, ht, Except.toOption, Method.ops, Op.scalarOps]
  | objects n e hq he =>
    refine ⟨⟨?_, ?_⟩, ⟨?_, ?_⟩, ⟨?_, ?_⟩⟩ <;>
      simp [wire, wireActions, hq, he, Except.toOption, Method.ops, Op.scalarOps]
  | words field e hq he =>
    simp only [hq] at hk
    have ht := hscalar e he hk.1
    refine ⟨⟨?_, ?_⟩, ⟨?_, ?_⟩, ⟨?_, ?_⟩⟩ <;>
      simp [wire, wireActions, hq, he, ht, Except.toOption, Method.ops, Op.scalarOps]
  | list field e hq he =>
    refine ⟨⟨?_, ?_⟩, ⟨?_, ?_⟩, ⟨?_, ?_⟩⟩ <;>
      simp [wire, wireActions, hq, he, Except.toOption, Method.ops, Op.scalarOps]

theorem ClassPlan.Follows.suits (h : q.Follows c) (hk : ∀ a ∈ c.attributes, r.KindSound c a)
    (m : Method) : ∀ act ∈ q.steps m, act.Suits m := by
  have hsuper : ∀ m, ∀ act ∈ Plan.superStep c, act.Suits m := by
    intro m act hact
    unfold Plan.superStep at hact
    split at hact
    · rw [List.mem_singleton.mp hact]
      exact ⟨by cases m <;> simp [Method.ops, Program.initOps], by simp [Op.scalarOps]⟩
    · simp at hact
  have hwire : ∀ a ∈ c.serialised, (Plan.wire a).marshal.Suits .marshal ∧
      (Plan.wire a).unmarshal.Suits .unmarshal ∧ (Plan.wire a).size.Suits .size :=
    fun a ha => Plan.wire_suits (hk a (List.mem_filter.mp ha).1)
  have hmapped : ∀ (m : Method) (step : Attribute → Action),
      (∀ a ∈ c.serialised, (step a).Suits m) →
      ∀ act ∈ Plan.superStep c ++ c.serialised.map step, act.Suits m := by
    intro m step hstep act hact
    rcases List.mem_append.mp hact with hact | hact
    · exact hsuper m act hact
    · obtain ⟨a, ha, rfl⟩ := List.mem_map.mp hact
      exact hstep a ha
  cases m with
  | init =>
    intro act hact
    have hop := h.init_ops (fun a ha => (hk a ha).ne_none) act hact
    refine ⟨hop, fun hs => ?_⟩
    simp only [Program.initOps, List.mem_cons, List.not_mem_nil, or_false] at hop
    rcases hop with he | he | he | he | he | he | he <;> simp [he, Op.scalarOps] at hs
  | marshal =>
    rw [steps, h.marshal]
    exact hmapped _ _ fun a ha => (hwire a ha).1
  | unmarshal =>
    rw [steps, h.unmarshal]
    exact hmapped _ _ fun a ha => (hwire a ha).2.1
  | size =>
    rw [steps, h.size]
    exact hmapped _ _ fun a ha => (hwire a ha).2.2

theorem Program.Compiled.suitable {p : Program} {source : Registry} {options : PlanOptions}
    (h : p.Compiled source options) (hq : q ∈ p.plans) : q.Suitable := by
  obtain ⟨c, hc, hplan⟩ := h.plan_class hq
  have hf := Registry.plan_follows hplan
  have hk := h.toPlanned.consistent.kinds c hc
  refine ⟨hf.suits hk, fun a ha => (hk a (hf.description ▸ ha)).ne_none, ?_⟩
  rw [hf.description]
  obtain ⟨-, -, -, -, -, -, -, hbits, -⟩ := Registry.plan_eq_ok hplan
  exact hbits

end Planned

def Attribute.floatBits (a : Attribute) : List BitField :=
  match a.primitive? with
  | some p => if p.type.isFloat then p.bitFields else []
  | none => []

namespace Target

section Steps

variable {c : ClassDescription} {q : ClassPlan} {act : Action} {m : Method}

theorem linesOf_ok {actions : List Action} {step : Action → Option (List String)}
    (h : ∀ act ∈ actions, (step act).isSome = true) :
    ∃ lines, linesOf q m actions step = .ok lines := by
  obtain ⟨parts, hparts⟩ := exists_forall₂ fun act hact => Option.isSome_iff_exists.mp (h act hact)
  refine ⟨parts.flatten, ?_⟩
  rw [linesOf, mapM_eq_ok.mpr (hparts.imp fun act lines he => by simp [he])]
  rfl

theorem typedLines_ok {actions : List Action} {isScalar : Op → Bool}
    {step : Scalar → Action → Option (List String)}
    (h : ∀ act ∈ actions, (isScalar act.op = true → act.type.isCanonical = true) ∧
      ∀ t, (step t act).isSome = true) :
    ∃ lines, Go.typedLines q m actions isScalar step = .ok lines := by
  unfold Go.typedLines
  generalize hf : (fun act : Action => _) = f
  have hline : ∀ act ∈ actions, ∃ lines, f act = .ok lines := by
    intro act hact
    obtain ⟨htype, hstep⟩ := h act hact
    subst hf
    cases ht : act.type.scalar? with
    | none =>
      have hs : isScalar act.op = false := by
        by_contra hs
        simpa [TypeName.isCanonical, ht] using htype (by simpa using hs)
      obtain ⟨lines, hl⟩ := Option.isSome_iff_exists.mp (hstep .uint8)
      exact ⟨lines, by simp [ht, hs, hl]⟩
    | some t =>
      obtain ⟨lines, hl⟩ := Option.isSome_iff_exists.mp (hstep t)
      exact ⟨lines, by simp [ht, hl]⟩
  obtain ⟨parts, hparts⟩ := exists_forall₂ hline
  exact ⟨parts.flatten, by rw [mapM_eq_ok.mpr hparts]; rfl⟩

def Python.step (c : ClassDescription) : Method → Action → Option (List String)
  | .init => initStep c
  | .marshal => marshalStep c
  | .unmarshal => unmarshalStep c
  | .size => sizeStep c

def ObjectiveC.step : Method → Action → Option (List String)
  | .init => initStep
  | .marshal => marshalStep
  | .unmarshal => unmarshalStep
  | .size => sizeStep

def Go.step (name : String) (t : Scalar) : Method → Action → Option (List String)
  | .init => initStep
  | .marshal => marshalStep t
  | .unmarshal => unmarshalStep name t
  | .size => sizeStep

theorem Python.step_isSome : (step c m act).isSome = m.ops.contains act.op := by
  obtain ⟨op⟩ := act
  cases m <;> cases op <;> rfl

theorem ObjectiveC.step_isSome : (step m act).isSome = m.ops.contains act.op := by
  obtain ⟨op⟩ := act
  cases m <;> cases op <;> rfl

theorem Go.step_isSome (name : String) (t : Scalar) :
    (step name t m act).isSome = m.ops.contains act.op := by
  obtain ⟨op⟩ := act
  cases m <;> cases op <;> rfl

end Steps

section Classes

variable {q : ClassPlan} {a : Attribute}

theorem ObjectiveC.variableLines_ok (h : a.kind ≠ none) :
    ∃ lines, variableLines q a = .ok lines := by
  have hline : ∃ line, variableLine? a = some line := by
    cases Attribute.form h with
    | word p hp => simp [variableLine?, hp]
    | object name hp => simp [variableLine?, hp]
    | array n e hp he => simp [variableLine?, hp, he]
    | objects n e hp he => simp [variableLine?, hp, he]
    | words field e hp he => simp [variableLine?, hp]
    | list field e hp he => simp [variableLine?, hp]
  obtain ⟨line, hline⟩ := hline
  simp [variableLines, hline]

theorem Go.fieldLine_ok (h : a.kind ≠ none) : ∃ line, fieldLine q a = .ok line := by
  have htype : ∃ type, fieldType? a = some type := by
    cases Attribute.form h with
    | word p hp => simp [fieldType?, hp]
    | object name hp => simp [fieldType?, hp]
    | array n e hp he => simp [fieldType?, hp]
    | objects n e hp he => simp [fieldType?, hp]
    | words field e hp he => simp [fieldType?, hp]
    | list field e hp he => simp [fieldType?, hp]
  obtain ⟨type, htype⟩ := htype
  simp [fieldLine, htype]

theorem floatBitField?_eq (h : q.Suitable) :
    floatBitField? q = q.description.attributes.findSome? fun a =>
      a.floatBits.head?.map fun b => .refused ⟨q.name, a.name, .floatBitField b.name⟩ := by
  have hown : ∀ a : Attribute, ((BitAccessor.ofAttribute a).find? (·.type.isFloat)).map
      (fun b => RenderError.refused ⟨q.name, b.field, .floatBitField b.name⟩) =
      a.floatBits.head?.map fun b => .refused ⟨q.name, a.name, .floatBitField b.name⟩ := by
    intro a
    unfold BitAccessor.ofAttribute Attribute.floatBits
    cases a.primitive? with
    | none => rfl
    | some p =>
      by_cases hp : p.type.isFloat = true
      · cases hb : p.bitFields with
        | nil => simp [hp, hb]
        | cons b rest => simp [hp, hb, BitAccessor.ofBitField]
      · simp [hp, BitAccessor.ofBitField, Function.comp_def]
  rw [floatBitField?, h.bitFields, List.find?_flatMap, List.map_findSome?]
  congr 1
  funext a
  exact hown a

theorem floatBitField?_eq_none (h : q.Suitable) :
    floatBitField? q = none ↔ ∀ a ∈ q.description.attributes, a.floatBits = [] := by
  simp [floatBitField?_eq h, List.findSome?_eq_none_iff]

theorem floatBitField?_of_first {b : BitField} (h : q.Suitable)
    (ha : q.description.attributes.find? (!·.floatBits.isEmpty) = some a)
    (hb : a.floatBits.head? = some b) :
    floatBitField? q = some (.refused ⟨q.name, a.name, .floatBitField b.name⟩) := by
  obtain ⟨-, before, after, hsplit, hbefore⟩ := List.find?_eq_some_iff_append.mp ha
  have hnone : before.findSome? (fun a => a.floatBits.head?.map fun b =>
      RenderError.refused ⟨q.name, a.name, .floatBitField b.name⟩) = none := by
    refine List.findSome?_eq_none_iff.mpr fun x hx => ?_
    have hempty : x.floatBits = [] := by simpa using hbefore x hx
    simp [hempty]
  rw [floatBitField?_eq h, hsplit, List.findSome?_append, hnone, List.findSome?_cons]
  simp [hb]

/-- A class is accepted, or refused for its first bit field on a floating point attribute. -/
def Judges {α : Type} (q : ClassPlan) (result : Except RenderError α) : Prop :=
  match floatBitField? q with
  | some e => result = .error e
  | none => ∃ a, result = .ok a

theorem Python.judges (h : q.Suitable) : Judges q (Target.python.classFiles q) := by
  have hlines : ∀ m, ∃ lines, linesOf q m (q.steps m) (step q.description m) = .ok lines := by
    intro m
    refine linesOf_ok fun act hact => ?_
    simpa [step_isSome] using (h.steps m act hact).op_mem
  obtain ⟨init, hinit⟩ := hlines .init
  obtain ⟨marshal, hmarshal⟩ := hlines .marshal
  obtain ⟨unmarshal, hunmarshal⟩ := hlines .unmarshal
  obtain ⟨size, hsize⟩ := hlines .size
  simp only [ClassPlan.steps, step] at hinit hmarshal hunmarshal hsize
  simp only [Judges, classFiles, classFile, hinit, hmarshal, hunmarshal, hsize, bind, Except.bind]
  cases floatBitField? q with
  | some e => rfl
  | none => exact ⟨_, rfl⟩

theorem ObjectiveC.judges (h : q.Suitable) : Judges q (Target.objectiveC.classFiles q) := by
  have hlines : ∀ m, ∃ lines, linesOf q m (q.steps m) (step m) = .ok lines := by
    intro m
    refine linesOf_ok fun act hact => ?_
    simpa [step_isSome] using (h.steps m act hact).op_mem
  obtain ⟨fields, hfields⟩ := exists_forall₂ fun a ha => variableLines_ok (q := q) (h.kinds a ha)
  obtain ⟨init, hinit⟩ := hlines .init
  obtain ⟨marshal, hmarshal⟩ := hlines .marshal
  obtain ⟨unmarshal, hunmarshal⟩ := hlines .unmarshal
  obtain ⟨size, hsize⟩ := hlines .size
  simp only [ClassPlan.steps, step] at hinit hmarshal hunmarshal hsize
  simp only [Judges, Target.classFiles, classFiles, headerText, implementationText,
    mapM_eq_ok.mpr hfields, hinit, hmarshal, hunmarshal, hsize, bind, Except.bind]
  cases floatBitField? q with
  | some e => rfl
  | none => exact ⟨_, rfl⟩

theorem Go.judges (h : q.Suitable) (package : String) : Judges q (Go.classText package q) := by
  have hlines : ∀ m, ∃ lines, linesOf q m (q.steps m) (step q.name .uint8 m) = .ok lines := by
    intro m
    refine linesOf_ok fun act hact => ?_
    simpa [step_isSome] using (h.steps m act hact).op_mem
  have htyped : ∀ m, ∀ isScalar : Op → Bool, (∀ op, isScalar op = true → op ∈ Op.scalarOps) →
      ∃ lines, typedLines q m (q.steps m) isScalar (step q.name · m) = .ok lines := by
    intro m isScalar hs
    refine typedLines_ok fun act hact => ⟨fun he => ?_, fun t => ?_⟩
    · exact (h.steps m act hact).canonical (hs _ he)
    · simpa [step_isSome] using (h.steps m act hact).op_mem
  obtain ⟨fields, hfields⟩ := exists_forall₂ fun a ha => fieldLine_ok (q := q) (h.kinds a ha)
  obtain ⟨init, hinit⟩ := hlines .init
  obtain ⟨size, hsize⟩ := hlines .size
  obtain ⟨marshal, hmarshal⟩ := htyped .marshal
    ([Op.write, .writeLength, .writeArray, .writeList].contains ·) (by simp [Op.scalarOps])
  obtain ⟨unmarshal, hunmarshal⟩ := htyped .unmarshal
    ([Op.read, .readArray, .readList].contains ·) (by simp [Op.scalarOps])
  simp only [ClassPlan.steps, step] at hinit hmarshal hunmarshal hsize
  simp only [Judges, classText, body, structLines, mapM_eq_ok.mpr hfields, hinit, hmarshal,
    hunmarshal, hsize, bind, Except.bind]
  cases floatBitField? q with
  | some e => rfl
  | none => exact ⟨_, rfl⟩

theorem Judges.ok_iff {α : Type} {result : Except RenderError α} (h : q.Suitable)
    (hj : Judges q result) :
    (∃ a, result = .ok a) ↔ ∀ a ∈ q.description.attributes, a.floatBits = [] := by
  rw [← floatBitField?_eq_none h]
  unfold Judges at hj
  cases hf : floatBitField? q with
  | some e => simp [hf] at hj; simp [hj]
  | none => simpa [hf] using hj

theorem Judges.error {α : Type} {result : Except RenderError α} {e : RenderError}
    (hj : Judges q result) (he : result = .error e) : floatBitField? q = some e := by
  unfold Judges at hj
  cases hf : floatBitField? q with
  | some e' => simp_all
  | none => simp [hf, he] at hj

theorem Judges.refuses {α : Type} {result : Except RenderError α} {e : RenderError}
    (hj : Judges q result) (hf : floatBitField? q = some e) : result = .error e := by
  simpa [Judges, hf] using hj

theorem Go.classFiles_of_text {package text : String} (h : Go.classText package q = .ok text) :
    (Target.go package).classFiles q = match GoSource.format? text with
      | some content => .ok [⟨Text.snakeCase q.name ++ ".go", content⟩]
      | none => .error (.malformed q.name) := by
  simp only [Target.classFiles, classFile, h, bind, Except.bind]
  cases GoSource.format? text <;> rfl

theorem Go.classFiles_of_error {package : String} {e : RenderError}
    (h : Go.classText package q = .error e) : (Target.go package).classFiles q = .error e := by
  simp [Target.classFiles, classFile, h, bind, Except.bind]

end Classes

end Target

open Target in
structure ClassPlan.Rendered (q : ClassPlan) : Prop where
  python : (∃ files, Target.python.classFiles q = .ok files) ↔
    ∀ a ∈ q.description.attributes, a.floatBits = []
  objectiveC : (∃ files, Target.objectiveC.classFiles q = .ok files) ↔
    ∀ a ∈ q.description.attributes, a.floatBits = []
  go : ∀ package, (∃ text, Go.classText package q = .ok text) ↔
    ∀ a ∈ q.description.attributes, a.floatBits = []
  formatted : ∀ package text, Go.classText package q = .ok text →
    (Target.go package).classFiles q = match GoSource.format? text with
      | some content => .ok [⟨Text.snakeCase q.name ++ ".go", content⟩]
      | none => .error (.malformed q.name)
  refused : ∀ a b, q.description.attributes.find? (!·.floatBits.isEmpty) = some a →
    a.floatBits.head? = some b →
    ∀ t : Target, t.classFiles q = .error (.refused ⟨q.name, a.name, .floatBitField b.name⟩)
  /-- No other error comes up, but for source in Go that is not well formed. -/
  errors : ∀ (t : Target) e, t.classFiles q = .error e →
    (∃ refusal, e = .refused refusal ∧ refusal.cause.isUnsupported = true) ∨
      ∃ package, t = .go package ∧ e = .malformed q.name

namespace Program

open Target

theorem compiled_rendered {p : Program} {source : Registry} {options : PlanOptions}
    (h : p.Compiled source options) {q : ClassPlan} (hq : q ∈ p.plans) : q.Rendered := by
  have hs := h.suitable hq
  have hpython := Python.judges hs
  have hobjc := ObjectiveC.judges hs
  have hgo := Go.judges hs
  refine ⟨hpython.ok_iff hs, hobjc.ok_iff hs, fun package => (hgo package).ok_iff hs,
    fun package text => Go.classFiles_of_text, ?_, ?_⟩
  · intro a b ha hb t
    have hfirst := floatBitField?_of_first hs ha hb
    cases t with
    | go package => exact Go.classFiles_of_error ((hgo package).refuses hfirst)
    | objectiveC => exact hobjc.refuses hfirst
    | python => exact hpython.refuses hfirst
  · have hunsupported : ∀ e, floatBitField? q = some e →
        ∃ refusal, e = .refused refusal ∧ refusal.cause.isUnsupported = true := by
      intro e he
      obtain ⟨b, -, rfl⟩ := Option.map_eq_some_iff.mp he
      exact ⟨_, rfl, rfl⟩
    intro t e he
    cases t with
    | go package =>
      cases ht : Go.classText package q with
      | error e' =>
        rw [Go.classFiles_of_error ht] at he
        cases he
        exact .inl (hunsupported _ ((hgo package).error ht))
      | ok text =>
        rw [Go.classFiles_of_text ht] at he
        cases hf : GoSource.format? text with
        | some content => simp [hf] at he
        | none =>
          simp only [hf, Except.error.injEq] at he
          exact .inr ⟨package, rfl, he.symm⟩
    | objectiveC => exact .inl (hunsupported _ (hobjc.error he))
    | python => exact .inl (hunsupported _ (hpython.error he))

end Program

namespace Telemetry

def source : Registry := .gather [
  { name := "Beacon", attributes := [{ name := "flags", kind := some (.primitive {
      type := "uint8", bitFields := [{ name := "lit", mask := "0x01" }] }) }] },
  { name := "Probe", parent := "Beacon", attributes := [
      { name := "count", kind := some (.primitive { type := "uint8" }) },
      { name := "level", kind := some (.primitive { type := "float32" }) },
      { name := "gain", kind := some (.primitive {
        type := "float64", bitFields := [{ name := "sign", mask := "0x8000000000000000" }] }) },
      { name := "home", kind := some (.object "Beacon") },
      { name := "samples", kind := some (.dynamicList "count" { type := "int16" }) }] }]

def program : Program := (Program.compile? source { primitiveLists := true }).getD ⟨{}, []⟩

def beacon : ClassPlan := (program.plan? "Beacon").getD { description := {} }

def probe : ClassPlan := (program.plan? "Probe").getD { description := {} }

theorem program_evaluated :
    (Program.compile? source { primitiveLists := true }).isSome = true ∧
      beacon ∈ program.plans ∧ probe ∈ program.plans ∧ probe.name = "Probe" ∧
      beacon.description.attributes.all (·.floatBits.isEmpty) = true ∧
      (probe.description.attributes.find? (!·.floatBits.isEmpty)).map
        (fun a => (a.name, a.floatBits.map (·.name))) = some ("gain", ["sign"]) := by
  decide +kernel

end Telemetry

theorem telemetry_rendered :
    (∃ files, Target.python.classFiles Telemetry.beacon = .ok files) ∧
    (∃ files, Target.objectiveC.classFiles Telemetry.beacon = .ok files) ∧
    (∃ text, Target.Go.classText "pdu" Telemetry.beacon = .ok text) ∧
    ∀ t : Target, t.classFiles Telemetry.probe =
      .error (.refused ⟨"Probe", "gain", .floatBitField "sign"⟩) := by
  obtain ⟨hsome, hbeacon, hprobe, hname, hnone, hfirst⟩ := Telemetry.program_evaluated
  have hcompiled : Telemetry.program.Compiled Telemetry.source { primitiveLists := true } :=
    Program.compiled_getD (Registry.gather_built _) hsome _
  have hb := Program.compiled_rendered hcompiled hbeacon
  have hp := Program.compiled_rendered hcompiled hprobe
  have hclear : ∀ a ∈ Telemetry.beacon.description.attributes, a.floatBits = [] := by
    simpa using hnone
  refine ⟨hb.python.mpr hclear, hb.objectiveC.mpr hclear, (hb.go "pdu").mpr hclear, fun t => ?_⟩
  obtain ⟨a, ha, hbits⟩ := Option.map_eq_some_iff.mp hfirst
  obtain ⟨hgain, hbits⟩ := Prod.mk.inj hbits
  obtain ⟨b, rest, hab, hsign, -⟩ := List.map_eq_cons_iff.mp hbits
  rw [← hname, ← hgain, ← hsign]
  exact hp.refused a b ha (by simp [hab]) t

end PduCompiler
