import PduCompiler.Plan
import PduCompiler.Proofs.Ancestry

/-! The plans of a compiled program: every class of the registry has one, and its wire plans hold
one step for each serialised attribute, after the step that hands over to the parent. -/

namespace PduCompiler

def ClassDescription.serialised (c : ClassDescription) : List Attribute :=
  c.attributes.filter (!·.transient)

namespace Plan

def wire (a : Attribute) : WireActions :=
  (wireActions { primitiveLists := true } a).toOption.getD
    ⟨{ op := .unknown 0 }, { op := .unknown 0 }, { op := .unknown 0 }⟩

def superStep (c : ClassDescription) : List Action :=
  if c.hasParent then [{ op := .super, className := c.parent }] else []

def inherited {α : Type} (c : ClassDescription) (parent : String → List α) : List α :=
  if c.hasParent then parent c.parent else []

theorem wireActions_eq_wire {options : PlanOptions} {a : Attribute} {w : WireActions}
    (h : wireActions options a = .ok w) : w = wire a := by
  have hall : wireActions { primitiveLists := true } a = .ok w := by
    unfold wireActions at h ⊢
    cases hk : a.kind with
    | none => simp [hk] at h
    | some k =>
      cases k with
      | dynamicList field e =>
        simp only [hk] at h ⊢
        by_cases ho : e.isObject = true
        · simpa [ho] using h
        · by_cases hp : options.primitiveLists = true
          · simpa [ho, hp] using h
          · simp [ho, hp] at h
      | _ => simpa only [hk] using h
  simp [wire, hall, Except.toOption]

theorem attributeActions_transient {options : PlanOptions} {before : List String}
    {a : Attribute} {step : Option WireActions} (ht : a.transient = true)
    (h : attributeActions options before a = .ok step) :
    step = none ∧ a.isCountField = false := by
  by_cases hc : a.isCountField = true
  · simp [attributeActions, ht, hc] at h
  · simp only [attributeActions, ht, hc, if_true] at h
    exact ⟨(Except.ok.inj h).symm, by simpa using hc⟩

theorem attributeActions_serialised {options : PlanOptions} {before : List String}
    {a : Attribute} {step : Option WireActions} (ht : a.transient = false)
    (h : attributeActions options before a = .ok step) :
    step = some (wire a) ∧ ∀ field, a.CountedBy field → field ∈ before := by
  simp only [attributeActions, ht, if_neg Bool.false_ne_true, bind, Except.bind, pure,
    Except.pure] at h
  cases hp : countPrecedes before a with
  | error cause => simp [hp] at h
  | ok u =>
    cases hw : wireActions options a with
    | error cause => simp [hp, hw] at h
    | ok w =>
      simp only [hp, hw, Except.ok.injEq] at h
      refine ⟨by rw [← h, wireActions_eq_wire hw], ?_⟩
      rintro field ⟨e, he⟩
      by_cases hm : field ∈ before
      · exact hm
      · simp [countPrecedes, he, hm] at hp

theorem wirePlan_eq {options : PlanOptions} (attributes : List Attribute) (before : List String)
    {ws : List WireActions} (h : wirePlan options before attributes = (ws, [])) :
    ws = (attributes.filter (!·.transient)).map wire ∧
    (∀ a ∈ attributes, a.transient = true → a.isCountField = false) ∧
    ∀ pre a post, attributes = pre ++ a :: post → a.transient = false →
      ∀ field, a.CountedBy field → field ∈ before ∨ field ∈ pre.map (·.name) := by
  induction attributes generalizing before ws with
  | nil =>
    cases h
    simp
  | cons a rest ih =>
    simp only [wirePlan] at h
    cases hstep : attributeActions options before a with
    | error cause => simp [hstep] at h
    | ok step =>
      simp only [hstep, Prod.mk.injEq] at h
      obtain ⟨hws, hbad⟩ := h
      obtain ⟨hrest, htrans, hcount⟩ := ih (a.name :: before) (Prod.ext rfl hbad)
      have hlater : ∀ pre b post, a :: rest = pre ++ b :: post → pre ≠ [] →
          b.transient = false → ∀ field, b.CountedBy field →
          field ∈ before ∨ field ∈ pre.map (·.name) := by
        intro pre b post he hne hb field hf
        obtain ⟨x, pre, rfl⟩ := List.exists_cons_of_ne_nil hne
        simp only [List.cons_append, List.cons.injEq] at he
        rcases hcount pre b post he.2 hb field hf with hm | hm
        · rcases List.mem_cons.mp hm with rfl | hm
          · exact .inr (by simp [he.1])
          · exact .inl hm
        · exact .inr (by simpa using .inr (by simpa using hm))
      cases ht : a.transient with
      | true =>
        obtain ⟨rfl, hno⟩ := attributeActions_transient ht hstep
        refine ⟨by simpa [ht, hrest] using hws.symm, ?_, ?_⟩
        · intro b hb hbt
          rcases List.mem_cons.mp hb with rfl | hb
          · exact hno
          · exact htrans b hb hbt
        · intro pre b post he hb
          cases pre with
          | nil =>
            simp only [List.nil_append, List.cons.injEq] at he
            rw [← he.1, ht] at hb
            cases hb
          | cons x pre => exact hlater _ b post he (by simp) hb
      | false =>
        obtain ⟨rfl, hbefore⟩ := attributeActions_serialised ht hstep
        refine ⟨by simpa [ht, hrest] using hws.symm, ?_, ?_⟩
        · intro b hb hbt
          rcases List.mem_cons.mp hb with rfl | hb
          · simp [ht] at hbt
          · exact htrans b hb hbt
        · intro pre b post he hb field hf
          cases pre with
          | nil =>
            simp only [List.nil_append, List.cons.injEq] at he
            exact .inl (hbefore field (he.1 ▸ hf))
          | cons x pre => exact hlater _ b post he (by simp) hb field hf

end Plan

structure ClassPlan.Follows (plan : ClassPlan) (c : ClassDescription) : Prop where
  description : plan.description = c
  init : ∃ overrides assigns, (∀ act ∈ assigns, act.op = .assign) ∧
    plan.init = Plan.superStep c ++ c.attributes.map (Plan.initAction overrides) ++ assigns
  marshal : plan.marshal = Plan.superStep c ++ c.serialised.map fun a => (Plan.wire a).marshal
  unmarshal : plan.unmarshal =
    Plan.superStep c ++ c.serialised.map fun a => (Plan.wire a).unmarshal
  size : plan.size = Plan.superStep c ++ c.serialised.map fun a => (Plan.wire a).size
  countField_serialised : ∀ a ∈ c.attributes, a.transient = true → a.isCountField = false
  count_precedes : ∀ pre a post, c.attributes = pre ++ a :: post → a.transient = false →
    ∀ field, a.CountedBy field → ∃ b ∈ pre, b.name = field

theorem ClassPlan.Follows.unmarshal_step {plan : ClassPlan} {c : ClassDescription}
    (h : plan.Follows c) {act : Action} (hact : act ∈ plan.unmarshal) :
    (c.hasParent = true ∧ act = { op := .super, className := c.parent }) ∨
      ∃ a ∈ c.serialised, act = (Plan.wire a).unmarshal := by
  rw [h.unmarshal] at hact
  rcases List.mem_append.mp hact with hact | hact
  · unfold Plan.superStep at hact
    split at hact
    · next hpar => exact .inl ⟨hpar, List.mem_singleton.mp hact⟩
    · simp at hact
  · obtain ⟨a, ha, rfl⟩ := List.mem_map.mp hact
    exact .inr ⟨a, ha, rfl⟩

namespace ClassPlan.Follows

variable {r : Registry} {plan : ClassPlan} {c : ClassDescription} (hf : plan.Follows c)
  (hs : r.Consistent) (hc : c ∈ r.classes)

include hf hs hc

theorem count_serialised {a : Attribute} (ha : a ∈ c.attributes) {field : String}
    (hcount : a.CountedBy field) : ∃ b ∈ c.attributes, b.transient = false ∧
      ∃ q, b.name = field ∧ b.kind = some (.primitive q) ∧ q.countFor = a.name := by
  obtain ⟨b, hb, q, hbn, hbk, hbq⟩ := hs.counts c hc a ha field hcount
  refine ⟨b, hb, Bool.eq_false_iff.mpr fun ht => ?_, q, hbn, hbk, hbq⟩
  have hno := hf.countField_serialised b hb ht
  simp [Attribute.isCountField, Attribute.primitive?, Kind.primitive?, hbk, hbq,
    hs.named c hc a ha] at hno

theorem count_before {pre post : List Attribute} {a : Attribute}
    (h : c.serialised = pre ++ a :: post) {field : String} (ha : a.CountedBy field) :
    ∃ b ∈ pre, ∃ q, b.name = field ∧ b.kind = some (.primitive q) ∧ q.countFor = a.name := by
  obtain ⟨l, rest, hl, hpre, hrest⟩ := List.filter_eq_append_iff.mp h
  obtain ⟨skipped, after, hr, hskip, hta, -⟩ := List.filter_eq_cons_iff.mp hrest
  subst hr
  have hmem : a ∈ c.attributes := by simp [hl]
  obtain ⟨b, hb, hser, q, hbn, hbk, hbq⟩ := hf.count_serialised hs hc hmem ha
  obtain ⟨b', hb', hbn'⟩ := hf.count_precedes (l ++ skipped) a after (by simp [hl])
    (by simpa using hta) field ha
  obtain rfl : b' = b := by
    refine List.inj_on_of_nodup_map (hs.attributes_nodup c hc) ?_ hb (hbn'.trans hbn.symm)
    rw [hl, ← List.append_assoc]
    exact List.mem_append_left _ hb'
  rcases List.mem_append.mp hb' with hb' | hb'
  · exact ⟨b', hpre ▸ List.mem_filter.mpr ⟨hb', by simp [hser]⟩, q, hbn, hbk, hbq⟩
  · exact (hskip b' hb' (by simp [hser])).elim

end ClassPlan.Follows

namespace Plan

/-- Every value for an inherited attribute is an assignment, with the type of the attribute and named
for the class that declares it. -/
theorem InitialValues.take_assigns {r : Registry} {c : ClassDescription} {registered : Bool}
    {acc : InitialValues} {P : Action → Prop}
    (hP : ∀ owner ∈ r.chain c.name, ∀ a ∈ owner.attributes, ∀ q, a.primitive? = some q →
      ∀ value, P { op := .assign, attr := a.name, type := q.type, value, owner := owner.name })
    (v : InitialValue) (h : ∀ act ∈ acc.assigns, P act) :
    ∀ act ∈ (acc.take r c registered v).assigns, P act := by
  unfold InitialValues.take
  split
  · exact h
  · next owner a hfound =>
    split
    · exact h
    · next q hq =>
      split
      · exact h
      · intro act ha
        rcases List.mem_append.mp ha with ha | ha
        · exact h act ha
        · rw [List.mem_singleton.mp ha]
          obtain ⟨d, hd, hda⟩ := List.exists_of_findSome?_eq_some hfound
          obtain ⟨b, hbd, hb⟩ := Option.map_eq_some_iff.mp hda
          cases hb
          exact hP _ hd _ (List.mem_of_find?_eq_some hbd) q hq _

theorem initialValues_assigns {r : Registry} {c : ClassDescription} {P : Action → Prop}
    (hP : ∀ owner ∈ r.chain c.name, ∀ a ∈ owner.attributes, ∀ q, a.primitive? = some q →
      ∀ value, P { op := .assign, attr := a.name, type := q.type, value, owner := owner.name })
    (registered : Bool) :
    ∀ act ∈ (initialValues r c registered).assigns, P act := by
  have hfold : ∀ (values : List InitialValue) (acc : InitialValues),
      (∀ act ∈ acc.assigns, P act) →
      ∀ act ∈ (values.foldl (InitialValues.take r c registered) acc).assigns, P act := by
    intro values
    induction values with
    | nil => exact fun _ h => h
    | cons v values ih => exact fun acc h => ih _ (InitialValues.take_assigns hP v h)
  exact hfold c.initialValues {} (by simp)

end Plan

theorem Registry.plan_eq_ok {r : Registry} {options : PlanOptions} {c : ClassDescription}
    {plan : ClassPlan} (h : (r.plan options c).2 = .ok plan) :
    ∃ wire, Plan.wirePlan options [] c.attributes = (wire, []) ∧ plan.description = c ∧
      plan.init = Plan.superStep c ++ c.attributes.map
        (Plan.initAction (Plan.initialValues r c true).overrides) ++
        (Plan.initialValues r c true).assigns ∧
      plan.marshal = Plan.superStep c ++ wire.map (·.marshal) ∧
      plan.unmarshal = Plan.superStep c ++ wire.map (·.unmarshal) ∧
      plan.size = Plan.superStep c ++ wire.map (·.size) ∧
      plan.bitFields = c.attributes.flatMap BitAccessor.ofAttribute ∧
      plan.warnings = (Plan.initialValues r c true).warnings.map (·.1) := by
  unfold Registry.plan at h
  by_cases hs : r.isSealed = true
  · rcases hw : Plan.wirePlan options [] c.attributes with ⟨wire, _ | ⟨b, bad⟩⟩
    · simp only [hs, hw, Bool.not_true, List.isEmpty_nil, if_true, if_neg Bool.false_ne_true,
        Except.ok.injEq] at h
      subst h
      exact ⟨wire, rfl, rfl, rfl, rfl, rfl, rfl, rfl, rfl⟩
    · simp [hs, hw] at h
  · simp [hs] at h

theorem Registry.plan_eq {r : Registry} (hs : r.isSealed = true) (c : ClassDescription)
    (options : PlanOptions) :
    (∃ plan, (r.plan options c).2 = .ok plan ∧ (Plan.wirePlan options [] c.attributes).2 = []) ∨
    (Plan.wirePlan options [] c.attributes).2 ≠ [] ∧
      (r.plan options c).2 = .error ((Plan.wirePlan options [] c.attributes).2.map
        fun x => .invalid ⟨c.name, x.1, x.2⟩) := by
  unfold Registry.plan
  rcases hw : Plan.wirePlan options [] c.attributes with ⟨wire, _ | ⟨b, bad⟩⟩
  · exact .inl ⟨_, by simp [hs]; rfl, rfl⟩
  · exact .inr ⟨by simp, by simp [hs]⟩

theorem Registry.plan_follows {r : Registry} {options : PlanOptions} {c : ClassDescription}
    {plan : ClassPlan} (h : (r.plan options c).2 = .ok plan) : plan.Follows c := by
  obtain ⟨wire, hw, hdesc, hinit, hmarshal, hunmarshal, hsize, -⟩ := Registry.plan_eq_ok h
  obtain ⟨rfl, htrans, hcount⟩ := Plan.wirePlan_eq c.attributes [] hw
  rw [List.map_map] at hmarshal hunmarshal hsize
  refine ⟨hdesc, ⟨_, _, Plan.initialValues_assigns (fun _ _ _ _ _ _ _ => rfl) true, hinit⟩, hmarshal,
    hunmarshal, hsize, htrans, ?_⟩
  intro pre a post he ht field hf
  rcases hcount pre a post he ht field hf with hm | hm
  · simp at hm
  · exact List.mem_map.mp hm

theorem Registry.plan_error_ne_nil {r : Registry} {options : PlanOptions} {c : ClassDescription}
    {bad : List PlanFailure} (h : (r.plan options c).2 = .error bad) : bad ≠ [] := by
  unfold Registry.plan at h
  by_cases hs : r.isSealed = true
  · rcases hw : Plan.wirePlan options [] c.attributes with ⟨wire, _ | ⟨b, causes⟩⟩
    · simp [hs, hw] at h
    · simp only [hs, hw, Bool.not_true, if_neg Bool.false_ne_true, List.isEmpty_cons] at h
      rw [← Except.error.inj h]
      simp
  · simp only [hs, Bool.not_false, if_true] at h
    rw [← Except.error.inj h]
    simp

theorem Registry.planAll_eq_ok {r : Registry} {options : PlanOptions} {p : Program}
    (h : (r.planAll options).2 = .ok p) :
    ∃ classes, r.order = .ok classes ∧ p.registry = r ∧
      classes.map (fun c => (r.plan options c).2) = p.plans.map .ok := by
  unfold Registry.planAll at h
  cases ho : r.order with
  | error e => simp [ho] at h
  | ok classes =>
    simp only [ho] at h
    split at h
    · next hf =>
      cases h
      refine ⟨classes, rfl, rfl, ?_⟩
      have hok : ∀ c ∈ classes, ∃ plan, (r.plan options c).2 = .ok plan := by
        intro c hc
        cases hp : (r.plan options c).2 with
        | ok plan => exact ⟨plan, rfl⟩
        | error bad =>
          have hnil := List.isEmpty_iff.mp hf
          rw [List.flatMap_map, List.flatMap_eq_nil_iff] at hnil
          exact (Registry.plan_error_ne_nil hp (by simpa [hp] using hnil c hc)).elim
      clear hf ho
      induction classes with
      | nil => simp
      | cons c classes ih =>
        obtain ⟨plan, hplan⟩ := hok c List.mem_cons_self
        have hh := ih (fun d hd => hok d (List.mem_cons_of_mem _ hd))
        simpa [hplan, Except.toOption] using hh
    · cases h

theorem Registry.planAll_of_plans {r : Registry} {options : PlanOptions}
    {classes : List ClassDescription} {plans : List ClassPlan} (ho : r.order = .ok classes)
    (h : classes.map (fun c => (r.plan options c).2) = plans.map .ok) :
    (r.planAll options).2 = .ok ⟨r, plans⟩ := by
  have hall : ∀ c ∈ classes, ∃ plan, (r.plan options c).2 = .ok plan := by
    intro c hc
    have hmem := List.mem_map_of_mem (f := fun c => (r.plan options c).2) hc
    rw [h] at hmem
    obtain ⟨plan, -, hplan⟩ := List.mem_map.mp hmem
    exact ⟨plan, hplan.symm⟩
  have hplans : (classes.map (r.plan options)).filterMap (·.2.toOption) = plans := by
    have hmap := congrArg (List.filterMap Except.toOption) h
    rw [List.filterMap_map, List.filterMap_map] at hmap
    rw [List.filterMap_map]
    refine hmap.trans ?_
    simp [Function.comp_def, Except.toOption]
  simp only [Registry.planAll, ho]
  rw [if_pos]
  · simp only [hplans]
  · rw [List.isEmpty_iff, List.flatMap_map, List.flatMap_eq_nil_iff]
    intro c hc
    obtain ⟨plan, hplan⟩ := hall c hc
    simp only [hplan]

theorem eq_ok_of_toOption {ε α : Type} {x : Except ε α} {a : α} (h : x.toOption = some a) :
    x = .ok a := by
  cases x with
  | error e => cases h
  | ok b => rw [Option.some.inj h]

namespace Program

/-- A program that comes from a registry by sealing and planning it. -/
structure Compiled (p : Program) (source : Registry) (options : PlanOptions) : Prop where
  built : source.Built
  isSealed : source.toSealed = .ok p.registry
  planned : (p.registry.planAll options).2 = .ok p

def compile? (source : Registry) (options : PlanOptions) : Option Program :=
  source.toSealed.toOption.bind fun r => (r.planAll options).2.toOption

theorem compiled_of_compile? {source : Registry} {options : PlanOptions} {p : Program}
    (hb : source.Built) (h : compile? source options = some p) : p.Compiled source options := by
  obtain ⟨r, hs, hp⟩ := Option.bind_eq_some_iff.mp h
  have hsealed := eq_ok_of_toOption hs
  have hplanned := eq_ok_of_toOption hp
  obtain ⟨-, -, hr, -⟩ := Registry.planAll_eq_ok hplanned
  exact ⟨hb, by rw [hsealed, hr], by rw [hr, hplanned]⟩

theorem compiled_getD {source : Registry} {options : PlanOptions} (hb : source.Built)
    (h : (compile? source options).isSome = true) (other : Program) :
    ((compile? source options).getD other).Compiled source options := by
  obtain ⟨p, hp⟩ := Option.isSome_iff_exists.mp h
  rw [hp, Option.getD_some]
  exact compiled_of_compile? hb hp

theorem compiled_get {source : Registry} {options : PlanOptions} (hb : source.Built)
    (h : (compile? source options).isSome = true) :
    ((compile? source options).get h).Compiled source options :=
  compiled_of_compile? hb (Option.some_get h).symm

/-- What a compiled program is relied on for: a consistent registry and a plan for each class of
it. -/
structure Planned (p : Program) : Prop where
  consistent : p.registry.Consistent
  rooted : p.registry.Rooted
  plan : ∀ c ∈ p.registry.classes, ∃ plan, p.plan? c.name = some plan ∧ plan.Follows c
  class_of_plan : ∀ name plan, p.plan? name = some plan →
    ∃ c ∈ p.registry.classes, c.name = name ∧ plan.Follows c
  classes_le : p.registry.classes.length ≤ p.plans.length

theorem Compiled.plan_class {p : Program} {source : Registry} {options : PlanOptions}
    (h : p.Compiled source options) {plan : ClassPlan} (hplan : plan ∈ p.plans) :
    ∃ c ∈ p.registry.classes, (p.registry.plan options c).2 = .ok plan := by
  obtain ⟨classes, ho, -, hall⟩ := Registry.planAll_eq_ok h.planned
  obtain ⟨-, hd⟩ := Registry.order_eq_ok ho
  obtain ⟨c, hcm, hcp⟩ := List.mem_map.mp (hall ▸ List.mem_map_of_mem hplan)
  exact ⟨c, Registry.mem_descendants_classes _ _ (hd ▸ hcm), hcp⟩

theorem Compiled.toPlanned {p : Program} {source : Registry} {options : PlanOptions}
    (h : p.Compiled source options) : p.Planned := by
  have hc := h.built.consistent h.isSealed
  obtain ⟨classes, ho, -, hall⟩ := Registry.planAll_eq_ok h.planned
  obtain ⟨hr, -⟩ := Registry.order_eq_ok ho
  have hname : ∀ name plan, p.plan? name = some plan →
      ∃ c ∈ p.registry.classes, c.name = name ∧ plan.Follows c := by
    intro name plan hp
    obtain ⟨c, hcm, hcp⟩ := h.plan_class (List.mem_of_find?_eq_some hp)
    have hf := Registry.plan_follows hcp
    refine ⟨c, hcm, ?_, hf⟩
    have hn : plan.name = name := by simpa using List.find?_some hp
    rw [← hn, ClassPlan.name, hf.description]
  refine ⟨hc, hr, ?_, hname, ?_⟩
  · intro c hcm
    obtain ⟨plan, hpm, hcp⟩ := List.mem_map.mp
      (hall ▸ List.mem_map_of_mem (Registry.mem_order hc.names_nodup ho hcm))
    have hn : plan.name = c.name := by
      rw [ClassPlan.name, (Registry.plan_follows hcp.symm).description]
    obtain ⟨first, hfirst⟩ : ∃ first, p.plan? c.name = some first := by
      rw [← Option.isSome_iff_exists, plan?, List.find?_isSome]
      exact ⟨plan, hpm, by simp [hn]⟩
    obtain ⟨d, hdm, hdn, hf⟩ := hname _ _ hfirst
    rw [List.inj_on_of_nodup_map hc.names_nodup hdm hcm hdn] at hf
    exact ⟨first, hfirst, hf⟩
  · have hlen : classes.length = p.plans.length := by simpa using congrArg List.length hall
    rw [← hlen]
    exact ((List.Nodup.of_map _ hc.names_nodup).subperm
      fun c hcm => Registry.mem_order hc.names_nodup ho hcm).length_le

theorem Compiled.plan_of_class {p : Program} {source : Registry} {options : PlanOptions}
    (h : p.Compiled source options) {c : ClassDescription} (hc : c ∈ p.registry.classes) :
    ∃ plan, p.plan? c.name = some plan ∧ (p.registry.plan options c).2 = .ok plan := by
  obtain ⟨plan, hplan, hf⟩ := h.toPlanned.plan c hc
  obtain ⟨c', hc', hok⟩ := h.plan_class (List.mem_of_find?_eq_some hplan)
  obtain ⟨-, -, hdesc, -⟩ := Registry.plan_eq_ok hok
  rw [hf.description] at hdesc
  exact ⟨plan, hplan, hdesc ▸ hok⟩

theorem Planned.kind_ne_none {p : Program} (hp : p.Planned) {c : ClassDescription}
    (hc : c ∈ p.registry.classes) {a : Attribute} (ha : a ∈ c.attributes) : a.kind ≠ none :=
  (hp.consistent.kinds c hc a ha).ne_none

theorem Planned.allAttributes_eq {p : Program} (hp : p.Planned) {c : ClassDescription}
    (hc : c ∈ p.registry.classes) :
    p.registry.allAttributes c.name =
      Plan.inherited c p.registry.allAttributes ++ c.attributes := by
  have hn := hp.consistent.names_nodup
  unfold Plan.inherited
  split
  · next hpar => exact hp.rooted.allAttributes_child hn hc hpar
  · next hpar => exact hp.rooted.allAttributes_root hn hc (by simpa using hpar)

theorem Planned.serialised_eq {p : Program} (hp : p.Planned) {c : ClassDescription}
    (hc : c ∈ p.registry.classes) :
    p.registry.serialised c.name = Plan.inherited c p.registry.serialised ++ c.serialised := by
  rw [Registry.serialised, hp.allAttributes_eq hc, List.filter_append]
  congr 1
  unfold Plan.inherited
  split <;> rfl

theorem Planned.serialised_parent {p : Program} (hp : p.Planned) {c : ClassDescription}
    (hc : c ∈ p.registry.classes) (hpar : c.hasParent = true) :
    p.registry.serialised c.parent ⊆ p.registry.serialised c.name := by
  rw [hp.serialised_eq hc, Plan.inherited, if_pos hpar]
  exact List.subset_append_left _ _

theorem Planned.parent {p : Program} (hp : p.Planned) {c : ClassDescription}
    (hc : c ∈ p.registry.classes) (hpar : c.hasParent = true) :
    ∃ q ∈ p.registry.classes, q.name = c.parent ∧
      p.registry.serialised q.name ⊆ p.registry.serialised c.name ∧
      p.registry.level c.name = p.registry.level q.name + 1 := by
  obtain ⟨q, hq, hl, hanc⟩ := hp.rooted.parent hp.consistent.names_nodup hc hpar
  have hname := Registry.lookup_name hl
  exact ⟨q, hq, hname, hname ▸ hp.serialised_parent hc hpar, by simp [Registry.level, hanc, hname]⟩

theorem Planned.serialised_own {p : Program} (hp : p.Planned) {c : ClassDescription}
    (hc : c ∈ p.registry.classes) : c.serialised ⊆ p.registry.serialised c.name := by
  rw [hp.serialised_eq hc]
  exact List.subset_append_right _ _

theorem Planned.declaring {p : Program} (hp : p.Planned) {c : ClassDescription}
    (hc : c ∈ p.registry.classes) {a : Attribute} (ha : a ∈ p.registry.allAttributes c.name) :
    ∃ q ∈ p.registry.classes, a ∈ q.attributes ∧
      q.attributes ⊆ p.registry.allAttributes c.name := by
  have hn := hp.consistent.names_nodup
  rcases (Registry.mem_allAttributes hn hc).mp ha with ⟨q, hq, haq⟩ | hac
  · exact ⟨q, ((hp.rooted.line hn hc).mem q hq).1, haq,
      fun b hb => (Registry.mem_allAttributes hn hc).mpr (.inl ⟨q, hq, hb⟩)⟩
  · exact ⟨c, hc, hac, fun b hb => (Registry.mem_allAttributes hn hc).mpr (.inr hb)⟩

theorem Planned.count_serialised {p : Program} (hp : p.Planned) {c : ClassDescription}
    (hc : c ∈ p.registry.classes) {a : Attribute} (ha : a ∈ c.attributes) {field : String}
    (hf : a.CountedBy field) :
    ∃ b ∈ c.attributes, b.transient = false ∧
      ∃ q, b.name = field ∧ b.kind = some (.primitive q) ∧ q.countFor = a.name := by
  obtain ⟨plan, -, hfollows⟩ := hp.plan c hc
  exact hfollows.count_serialised hp.consistent hc ha hf

theorem Planned.count_before {p : Program} (hp : p.Planned) {c : ClassDescription}
    (hc : c ∈ p.registry.classes) {pre post : List Attribute} {a : Attribute}
    (h : c.serialised = pre ++ a :: post) {field : String} (ha : a.CountedBy field) :
    ∃ b ∈ pre, ∃ q, b.name = field ∧ b.kind = some (.primitive q) ∧ q.countFor = a.name := by
  obtain ⟨plan, -, hfollows⟩ := hp.plan c hc
  exact hfollows.count_before hp.consistent hc h ha

end Program

end PduCompiler
