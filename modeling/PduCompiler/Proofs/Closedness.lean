import PduCompiler.Proofs.Failing

/-! The plans of a compiled program name no class that the program lacks. So an object is made unless
a literal is refused, it is always encoded and measured, and decoding fails by its input or by such
a literal. -/

namespace PduCompiler

def Action.classes (act : Action) : List String := [act.className, act.owner].filter (· ≠ "")

def ClassPlan.actions (plan : ClassPlan) : List Action :=
  plan.init ++ plan.marshal ++ plan.unmarshal ++ plan.size

section Plans

variable {r : Registry} {c : ClassDescription} {a : Attribute} {act : Action}

theorem Plan.attribute_classes (hk : r.KindSound c a)
    (hact : (∃ overrides, act = initAction overrides a) ∨
      act ∈ [(wire a).marshal, (wire a).unmarshal, (wire a).size]) :
    ∀ name ∈ act.classes, r.contains name = true := by
  have hnone : ∀ e : Element, e.isObject = false → e.className = "" := by
    intro e he
    simpa [Element.isObject] using he
  intro name hname
  simp only [List.mem_cons, List.not_mem_nil, or_false] at hact
  simp only [Action.classes, List.mem_filter, List.mem_cons, List.not_mem_nil, or_false,
    decide_eq_true_eq] at hname
  obtain ⟨hname, hne⟩ := hname
  cases Attribute.form hk.ne_none with
  | word q hq =>
    rcases hact with ⟨overrides, rfl⟩ | rfl | rfl | rfl
    · simp_all [initAction]
    · simp only [wire, wireActions, hq, Except.toOption, Option.getD_some] at hname
      split at hname <;> simp_all
    · simp_all [wire, wireActions, Except.toOption]
    · simp_all [wire, wireActions, Except.toOption]
  | object cls hq =>
    have hcls : name = cls := by
      rcases hact with ⟨overrides, rfl⟩ | rfl | rfl | rfl <;>
        simp_all [initAction, wire, wireActions, Except.toOption]
    simp only [Registry.KindSound, hq] at hk
    exact hcls ▸ hk
  | array n e hq he =>
    rcases hact with ⟨overrides, rfl⟩ | rfl | rfl | rfl <;>
      simp_all [initAction, wire, wireActions, Except.toOption]
  | objects n e hq he =>
    have hcls : name = e.className := by
      rcases hact with ⟨overrides, rfl⟩ | rfl | rfl | rfl <;>
        simp_all [initAction, wire, wireActions, Except.toOption]
    simp only [Registry.KindSound, hq, Registry.ElementSound, he, if_true] at hk
    exact hcls ▸ hk.2
  | words field e hq he =>
    have hcls := hnone e he
    rcases hact with ⟨overrides, rfl⟩ | rfl | rfl | rfl <;>
      simp_all [initAction, wire, wireActions, Except.toOption]
  | list field e hq he =>
    have hcls : name = e.className := by
      rcases hact with ⟨overrides, rfl⟩ | rfl | rfl | rfl <;>
        simp_all [initAction, wire, wireActions, Except.toOption]
    simp only [Registry.KindSound, hq, Registry.ElementSound, he, if_true] at hk
    exact hcls ▸ hk.1

/-- An action of a class hands over to the parent, is about an attribute of its own or gives a value
to one of an ancestor. -/
theorem Registry.plan_actions {options : PlanOptions} {plan : ClassPlan}
    (h : (r.plan options c).2 = .ok plan) (hact : act ∈ plan.actions) :
    (c.hasParent = true ∧ act = { op := .super, className := c.parent }) ∨
    (∃ a ∈ c.attributes, (∃ overrides, act = Plan.initAction overrides a) ∨
      act ∈ [(Plan.wire a).marshal, (Plan.wire a).unmarshal, (Plan.wire a).size]) ∨
    ∃ owner ∈ r.chain c.name, act.classes = [owner.name].filter (· ≠ "") := by
  obtain ⟨-, -, -, hinit, -⟩ := Registry.plan_eq_ok h
  have hf := Registry.plan_follows h
  have hsuper : act ∈ Plan.superStep c →
      c.hasParent = true ∧ act = { op := .super, className := c.parent } := by
    intro hm
    unfold Plan.superStep at hm
    split at hm
    · next hpar => exact ⟨hpar, List.mem_singleton.mp hm⟩
    · simp at hm
  have hwire : ∀ step : Plan.WireActions → Action,
      (∀ a, step (Plan.wire a) ∈
        [(Plan.wire a).marshal, (Plan.wire a).unmarshal, (Plan.wire a).size]) →
      act ∈ c.serialised.map (fun a => step (Plan.wire a)) → ∃ a ∈ c.attributes,
        (∃ overrides, act = Plan.initAction overrides a) ∨
        act ∈ [(Plan.wire a).marshal, (Plan.wire a).unmarshal, (Plan.wire a).size] := by
    intro step hstep hm
    obtain ⟨a, ha, rfl⟩ := List.mem_map.mp hm
    exact ⟨a, (List.mem_filter.mp ha).1, .inr (hstep a)⟩
  simp only [ClassPlan.actions, hinit, hf.marshal, hf.unmarshal, hf.size, List.mem_append] at hact
  rcases hact with (((((hm | hm) | hm) | hm | hm) | hm | hm) | hm | hm)
  · exact .inl (hsuper hm)
  · obtain ⟨a, ha, rfl⟩ := List.mem_map.mp hm
    exact .inr (.inl ⟨a, ha, .inl ⟨_, rfl⟩⟩)
  · refine .inr (.inr (Plan.initialValues_assigns (P := fun act => ∃ owner ∈ r.chain c.name,
      act.classes = [owner.name].filter (· ≠ "")) (fun owner ho _ _ _ _ _ => ?_) true act hm))
    exact ⟨owner, ho, by simp [Action.classes]⟩
  · exact .inl (hsuper hm)
  · exact .inr (.inl (hwire (·.marshal) (by simp) hm))
  · exact .inl (hsuper hm)
  · exact .inr (.inl (hwire (·.unmarshal) (by simp) hm))
  · exact .inl (hsuper hm)
  · exact .inr (.inl (hwire (·.size) (by simp) hm))

end Plans

namespace Program

open Decode

variable {p : Program}

theorem Compiled.plans_closed {source : Registry} {options : PlanOptions}
    (h : p.Compiled source options) {plan : ClassPlan} (hplan : plan ∈ p.plans) {act : Action}
    (hact : act ∈ plan.actions) {name : String} (hname : name ∈ act.classes) :
    ∃ q, p.plan? name = some q := by
  have hp := h.toPlanned
  have hclass : ∀ {d : ClassDescription}, d ∈ p.registry.classes → d.name = name →
      ∃ q, p.plan? name = some q := by
    rintro d hd rfl
    obtain ⟨q, hq, -⟩ := hp.plan d hd
    exact ⟨q, hq⟩
  obtain ⟨c, hc, hcp⟩ := h.plan_class hplan
  rcases Registry.plan_actions hcp hact with ⟨hpar, rfl⟩ | ⟨a, ha, hstep⟩ | ⟨owner, ho, heq⟩
  · obtain ⟨q, hq, hqn, -⟩ := hp.parent hc hpar
    have hparent : name = c.parent := by
      simp only [Action.classes, List.mem_filter, List.mem_cons, List.not_mem_nil, or_false,
        decide_eq_true_eq] at hname
      exact hname.1.resolve_right hname.2
    exact hclass hq (hqn.trans hparent.symm)
  · obtain ⟨d, hd, hdn⟩ := Registry.contains_iff.mp
      (Plan.attribute_classes (hp.consistent.kinds c hc a ha) hstep name hname)
    exact hclass hd hdn
  · rw [heq] at hname
    have howner := List.mem_singleton.mp (List.mem_filter.mp hname).1
    exact hclass (Registry.chain_mem owner ho) howner.symm

structure ErrorsLimited (p : Program) : Prop where
  closed : ∀ plan ∈ p.plans, ∀ act ∈ plan.actions, ∀ name ∈ act.classes,
    ∃ q, p.plan? name = some q
  new_iff : ∀ c ∈ p.registry.classes, ∀ s,
    (∃ e, p.new s c.name = .error e) ↔ ∃ le, p.Refuses c.name le
  new_root : ∀ c ∈ p.registry.classes, ∀ s e, p.new s c.name = .error e →
    ∃ le, e.root = .badLiteral le ∧ p.Refuses c.name le
  marshal : ∀ ops x i, (p.run ops).get? x = some i → (p.run ops).Acyclic x →
    ∃ bytes, p.marshal (p.run ops) i = .ok bytes
  size : ∀ ops x i, (p.run ops).get? x = some i → (p.run ops).Acyclic x →
    ∃ n, p.size (p.run ops) i = .ok n
  /-- Decoding has faults only, and without redeclared names none that comes from storage. -/
  unmarshal : ∀ ops x i bytes, (p.run ops).get? x = some i →
    ∀ e ∈ (p.unmarshal (p.run ops) x bytes).2.2, p.Fault e.root ∧
      (p.registry.NoRedeclaration → e.root ≠ .outOfBounds)

theorem compiled_errorsLimited {source : Registry} {options : PlanOptions}
    (h : p.Compiled source options) : p.ErrorsLimited := by
  have hp := h.toPlanned
  have hg := h.built.grounded h.isSealed
  have hroot : ∀ c ∈ p.registry.classes, ∀ s e, p.new s c.name = .error e →
      ∃ le, e.root = .badLiteral le ∧ p.Refuses c.name le := by
    intro c hc s e he
    exact construct_eq_error hp _ hc (draws_initDepth hp hg hc) (new_eq_error_iff.mp he)
  have hmarshal : ∀ ops x i, (p.run ops).get? x = some i → (p.run ops).Acyclic x →
      ∃ bytes, p.marshal (p.run ops) i = .ok bytes := by
    intro ops x i hi hx
    have hs := run_sound hp ops
    exact marshal_ok hp hs hi (hx.height hs (Store.get?_lt hi))
  refine ⟨fun plan hplan act hact name => h.plans_closed hplan hact, ?_, hroot, hmarshal, ?_, ?_⟩
  · intro c hc s
    constructor
    · rintro ⟨e, he⟩
      obtain ⟨le, -, hle⟩ := hroot c hc s e he
      exact ⟨le, hle⟩
    · rintro ⟨le, hle⟩
      exact exists_new_eq_error hp hc s hle
  · intro ops x i hi hx
    obtain ⟨bytes, hb⟩ := hmarshal ops x i hi hx
    obtain ⟨m, hm, -⟩ := marshal_sized hp (run_sound hp ops) hi hb
    exact ⟨_, hm⟩
  · intro ops x i bytes hi e he
    have hs := run_sound hp ops
    obtain ⟨d, hd⟩ := unmarshal_error hi he
    refine ⟨decodeInto_faulty hp hg hs hi bytes 0 e d hd, fun hno => ?_⟩
    have hext : ∀ s, p.Sound s → p.Extents (· ≤ ·) s := by
      intro s hs x i hi a ha n elem hk helem
      exact Nat.le_of_eq (hs.extents hp hno x i hi a ha n elem hk helem)
    have hscope : p.Scope anyField (p.run ops) x (p.registry.serialised i.className) :=
      ⟨hs, ⟨i, hi, serialised_sub _ _⟩, fun _ _ _ => trivial, fun _ _ _ => trivial⟩
    exact decodeInto_safe hp hext _ x i.className ⟨p.run ops, bytes, 0⟩ hscope e d hd

end Program

namespace Misprint

def source : Registry := .gather [
  { name := "Item", attributes := [
      { name := "weight", kind := some (.primitive { type := "uint8", default := "1O" }) }] },
  { name := "Holder", attributes := [{ name := "items", kind := some (.fixedList 2 {
      className := "Item" }) }] },
  { name := "Crate", parent := "Holder" },
  { name := "Batch", attributes := [
      { name := "count", kind := some (.primitive { type := "uint8" }) },
      { name := "items", kind := some (.dynamicList "count" { className := "Item" }) }] }]

def program : Program := (Program.compile? source {}).getD ⟨{}, []⟩

theorem program_evaluated : (Program.compile? source {}).isSome = true ∧
    program.registry.NoRedeclaration ∧ program.registry.contains "Crate" = true ∧
    (program.new { objects := #[] } "Crate").toOption.isNone = true ∧
    (program.unmarshal (program.run [.new "Batch"]) 0 [1, 5]).2.2.map (·.root) =
      some (.badLiteral ⟨"uint8", "1O"⟩) := by
  decide +kernel

end Misprint

theorem misprint_errorsLimited : Misprint.program.ErrorsLimited ∧
    (∃ e, Misprint.program.new { objects := #[] } "Crate" = .error e) ∧
    (∃ le, Misprint.program.Refuses "Crate" le) ∧
    Misprint.program.registry.NoRedeclaration ∧
    (Misprint.program.unmarshal (Misprint.program.run [.new "Batch"]) 0 [1, 5]).2.2.map (·.root) =
      some (.badLiteral ⟨"uint8", "1O"⟩) := by
  obtain ⟨hsome, hno, hcrate, hnone, hbatch⟩ := Misprint.program_evaluated
  have hlimited : Misprint.program.ErrorsLimited := Program.compiled_errorsLimited
    (Program.compiled_getD (Registry.gather_built _) hsome _)
  obtain ⟨c, hc, hcn⟩ := Registry.contains_iff.mp hcrate
  have hnew : ∃ e, Misprint.program.new { objects := #[] } "Crate" = .error e := by
    cases h : Misprint.program.new { objects := #[] } "Crate" with
    | error e => exact ⟨e, rfl⟩
    | ok made => simp [h, Except.toOption] at hnone
  refine ⟨hlimited, hnew, ?_, hno, hbatch⟩
  rw [← hcn] at hnew ⊢
  exact (hlimited.new_iff c hc _).mp hnew

end PduCompiler
