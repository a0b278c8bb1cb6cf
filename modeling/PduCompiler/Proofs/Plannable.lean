import PduCompiler.Proofs.Initialisation
import PduCompiler.Proofs.Sealable

/-! Which classes can be planned, and how their plans line up. An attribute stands in the way of a
plan for one of three reasons, and the plan is refused with one error for each attribute that does.
If there is none, the three wire plans go through the serialised attributes side by side. -/

namespace PduCompiler

/-- Why an attribute keeps its class from being planned. -/
inductive ClassDescription.Offends (c : ClassDescription) (options : PlanOptions)
    (a : Attribute) : PlanCause → Prop
  /-- The field is not on the wire and counts a list, which need not be there either. -/
  | transientCount {l : Attribute} (ha : a ∈ c.attributes) (ht : a.transient = true)
      (hl : l ∈ c.attributes) (hcount : l.CountedBy a.name) :
      Offends c options a (.transientCount l.name)
  | countAfterList {pre post : List Attribute} {field : String} {e : Element}
      (hc : c.attributes = pre ++ a :: post) (ht : a.transient = false)
      (hk : a.kind = some (.dynamicList field e)) (hpre : ∀ b ∈ pre, b.name ≠ field) :
      Offends c options a (.countAfterList field)
  | primitiveList {pre post : List Attribute} {field : String} {e : Element}
      (hc : c.attributes = pre ++ a :: post) (ht : a.transient = false)
      (hk : a.kind = some (.dynamicList field e)) (hpre : ∃ b ∈ pre, b.name = field)
      (he : e.isObject = false) (hno : options.primitiveLists = false) :
      Offends c options a (.primitiveList e.type)

/-- The attributes that offend, in the order of their declaration, each once and with its reason. -/
structure ClassDescription.Offenders (c : ClassDescription) (options : PlanOptions)
    (bad : List (Attribute × PlanCause)) : Prop where
  mem_iff : ∀ a cause, (a, cause) ∈ bad ↔ c.Offends options a cause
  inOrder : (bad.map (·.1)).Sublist c.attributes
  once : (bad.map (·.1)).Nodup
  unsupported : ∀ x ∈ bad, x.2.isUnsupported = true ↔ ∃ type, x.2 = .primitiveList type

/-- What the steps of an attribute carry besides its name: a scalar type or a class, and the length
of a fixed list. -/
def Attribute.payload (a : Attribute) : TypeName × String × Int :=
  match a.kind with
  | some (.primitive q) => (q.type, "", 0)
  | some (.object name) => ("", name, 0)
  | some (.fixedList n e) => (e.type, e.className, n)
  | some (.dynamicList _ e) => (e.type, e.className, 0)
  | none => ("", "", 0)

def Action.Handles (act : Action) (a : Attribute) : Prop :=
  act.attr = a.name ∧ (act.type, act.className, act.length) = a.payload

/-- The length of a list is written where its count field stands and read, and at a later place the
list is read with the number in that field. -/
def ClassPlan.CountsFor (plan : ClassPlan) (l : Attribute) (field : String) : Prop :=
  ∃ (j k : Nat) (m n u : Action), j < k ∧
    plan.marshal[j]? = some m ∧ m.op = .writeLength ∧ m.attr = field ∧ m.list = l.name ∧
    plan.unmarshal[j]? = some n ∧ n.op = .read ∧ n.attr = field ∧
    plan.unmarshal[k]? = some u ∧ (u.op = .readList ∨ u.op = .unmarshalList) ∧
    u.attr = l.name ∧ u.count = field

/-- How the plans of a class lie beside each other and beside its attributes. -/
structure ClassPlan.Aligned (plan : ClassPlan) (options : PlanOptions) (c : ClassDescription) :
    Prop where
  lengths : plan.marshal.length = plan.unmarshal.length ∧
    plan.size.length = plan.unmarshal.length
  parent : ∀ acts ∈ [plan.init, plan.marshal, plan.unmarshal, plan.size],
    (∃ rest, acts = { op := .super, className := c.parent } :: rest) ↔ c.hasParent = true
  wire : ∃ steps : List Plan.WireActions,
    plan.marshal = Plan.superStep c ++ steps.map (·.marshal) ∧
    plan.unmarshal = Plan.superStep c ++ steps.map (·.unmarshal) ∧
    plan.size = Plan.superStep c ++ steps.map (·.size) ∧
    List.Forall₂ (fun a w => Plan.wireActions options a = .ok w ∧
      w.marshal.Handles a ∧ w.unmarshal.Handles a ∧ w.size.Handles a) c.serialised steps
  counts : ∀ l ∈ c.serialised, ∀ field, l.CountedBy field → plan.CountsFor l field
  init : ∃ own assigns, plan.init = Plan.superStep c ++ own ++ assigns ∧
    List.Forall₂ (fun a act => act.Handles a ∧ act.op ≠ .assign) c.attributes own ∧
    ∀ act ∈ assigns, act.op = .assign

namespace Plan

variable {options : PlanOptions} {before : List String} {a : Attribute} {cause : PlanCause}

theorem countPrecedes_eq_error : countPrecedes before a = .error cause ↔
    ∃ field e, a.kind = some (.dynamicList field e) ∧ field ∉ before ∧
      cause = .countAfterList field := by
  unfold countPrecedes
  rcases a.kind with _ | k
  · simp
  · cases k with
    | dynamicList field e =>
      by_cases hm : field ∈ before
      · simp [hm]
      · simp [hm, eq_comm]
    | _ => simp

theorem wireActions_eq_error (hk : a.kind ≠ none) : wireActions options a = .error cause ↔
    ∃ field e, a.kind = some (.dynamicList field e) ∧ e.isObject = false ∧
      options.primitiveLists = false ∧ cause = .primitiveList e.type := by
  cases Attribute.form hk with
  | word q hk => simp [wireActions, hk]
  | object name hk => simp [wireActions, hk]
  | array n e hk he => simp [wireActions, hk, he]
  | objects n e hk he => simp [wireActions, hk, he]
  | words field e hk he =>
    cases ho : options.primitiveLists with
    | true => simp [wireActions, hk, he, ho]
    | false =>
      simp only [wireActions, hk, he, ho, if_neg Bool.false_ne_true, Except.error.injEq,
        Option.some.injEq, Kind.dynamicList.injEq, true_and]
      constructor
      · rintro rfl
        exact ⟨field, e, ⟨rfl, rfl⟩, he, rfl⟩
      · rintro ⟨_, _, ⟨rfl, rfl⟩, -, rfl⟩
        rfl
  | list field e hk he => simp [wireActions, hk, he]

theorem attributeActions_eq_error_transient (ht : a.transient = true) :
    attributeActions options before a = .error cause ↔
      ∃ q, a.kind = some (.primitive q) ∧ q.countFor ≠ "" ∧ cause = .transientCount q.countFor := by
  unfold attributeActions
  rw [if_pos ht]
  cases hq : a.primitive? with
  | none =>
    have hno : ∀ q, a.kind ≠ some (.primitive q) := by
      intro q hk
      simp [Attribute.primitive?_eq_some.mpr hk] at hq
    simp [Attribute.isCountField, hq, hno]
  | some q =>
    have hk := Attribute.primitive?_eq_some.mp hq
    by_cases hcount : q.countFor = ""
    · simp [Attribute.isCountField, hq, hk, hcount]
    · simp only [Attribute.isCountField, hq, hk, Option.any_some, bne_iff_ne, ne_eq, hcount,
        not_false_eq_true, if_true, Option.map_some, Option.getD_some, Except.error.injEq,
        Option.some.injEq, Kind.primitive.injEq]
      constructor
      · rintro rfl
        exact ⟨q, rfl, hcount, rfl⟩
      · rintro ⟨_, rfl, -, rfl⟩
        rfl

theorem attributeActions_eq_error_serialised (hk : a.kind ≠ none) (ht : a.transient = false) :
    attributeActions options before a = .error cause ↔ ∃ field e,
      a.kind = some (.dynamicList field e) ∧ (field ∉ before ∧ cause = .countAfterList field ∨
        field ∈ before ∧ e.isObject = false ∧ options.primitiveLists = false ∧
          cause = .primitiveList e.type) := by
  have hsteps : attributeActions options before a = .error cause ↔
      countPrecedes before a = .error cause ∨
        (∃ u, countPrecedes before a = .ok u) ∧ wireActions options a = .error cause := by
    unfold attributeActions
    rw [if_neg (by simp [ht])]
    cases countPrecedes before a with
    | error e => simp [bind, Except.bind]
    | ok u => cases wireActions options a <;> simp [bind, Except.bind, pure, Except.pure]
  have hok : (∃ u, countPrecedes before a = .ok u) ↔
      ∀ field e, a.kind = some (.dynamicList field e) → field ∈ before := by
    cases hp : countPrecedes before a with
    | error e =>
      obtain ⟨field, e', hf, hm, -⟩ := countPrecedes_eq_error.mp hp
      simp only [reduceCtorEq, exists_false, false_iff]
      exact fun h => hm (h field e' hf)
    | ok u =>
      refine iff_of_true ⟨u, rfl⟩ fun field e hf => ?_
      by_contra hm
      rw [countPrecedes_eq_error.mpr ⟨field, e, hf, hm, rfl⟩] at hp
      cases hp
  rw [hsteps, hok, countPrecedes_eq_error, wireActions_eq_error hk]
  constructor
  · rintro (⟨field, e, hf, hm, hcause⟩ | ⟨hall, field, e, hf, hrest⟩)
    · exact ⟨field, e, hf, .inl ⟨hm, hcause⟩⟩
    · exact ⟨field, e, hf, .inr ⟨hall field e hf, hrest⟩⟩
  · rintro ⟨field, e, hf, ⟨hm, hcause⟩ | ⟨hm, hrest⟩⟩
    · exact .inl ⟨field, e, hf, hm, hcause⟩
    · refine .inr ⟨fun field' e' hf' => ?_, field, e, hf, hrest⟩
      obtain ⟨rfl, rfl⟩ : field = field' ∧ e = e' := by simpa [hf] using hf'
      exact hm

theorem wirePlan_errors (options : PlanOptions) (attributes : List Attribute)
    (before : List String) : ∃ bad : List (Attribute × PlanCause),
      (wirePlan options before attributes).2 = bad.map (fun x => (x.1.name, x.2)) ∧
      (bad.map (·.1)).Sublist attributes ∧
      ∀ a cause, (a, cause) ∈ bad ↔ ∃ pre post, attributes = pre ++ a :: post ∧
        attributeActions options ((pre.map (·.name)).reverse ++ before) a = .error cause := by
  induction attributes generalizing before with
  | nil => exact ⟨[], by simp [wirePlan]⟩
  | cons b rest ih =>
    obtain ⟨bad, herrors, hsub, hmem⟩ := ih (b.name :: before)
    -- an attribute is the first one or lies behind it, where one more name has come before
    have hsplit : ∀ a cause, (∃ pre post, b :: rest = pre ++ a :: post ∧
          attributeActions options ((pre.map (·.name)).reverse ++ before) a = .error cause) ↔
        (a = b ∧ attributeActions options before b = .error cause) ∨ (a, cause) ∈ bad := by
      intro a cause
      rw [hmem]
      constructor
      · rintro ⟨_ | ⟨x, pre⟩, post, he, herr⟩
        · obtain ⟨rfl, rfl⟩ := List.cons.inj he
          exact .inl ⟨rfl, herr⟩
        · obtain ⟨rfl, rfl⟩ := List.cons.inj he
          exact .inr ⟨pre, post, rfl, by simpa using herr⟩
      · rintro (⟨rfl, herr⟩ | ⟨pre, post, rfl, herr⟩)
        · exact ⟨[], rest, rfl, herr⟩
        · exact ⟨b :: pre, post, rfl, by simpa using herr⟩
    cases hstep : attributeActions options before b with
    | ok step =>
      refine ⟨bad, by simp [wirePlan, hstep, herrors], hsub.cons b, fun a cause => ?_⟩
      rw [hsplit]
      simp [hstep]
    | error cause' =>
      refine ⟨(b, cause') :: bad, by simp [wirePlan, hstep, herrors], hsub.cons_cons b,
        fun a cause => ?_⟩
      rw [hsplit]
      simp [hstep, eq_comm]

theorem wire_handles (hk : a.kind ≠ none)
    (he : ∀ e, a.kind.bind Kind.element? = some e → e.isObject = true → e.type = "") :
    (wire a).marshal.Handles a ∧ (wire a).unmarshal.Handles a ∧ (wire a).size.Handles a := by
  unfold Action.Handles Attribute.payload
  cases Attribute.form hk with
  | word q hk =>
    by_cases hc : q.countFor = "" <;> simp [wire, wireActions, hk, hc, Except.toOption]
  | object name hk => simp [wire, wireActions, hk, Except.toOption]
  | array n e hk ho =>
    have hclass : e.className = "" := by simpa [Element.isObject] using ho
    simp [wire, wireActions, hk, ho, hclass, Except.toOption]
  | objects n e hk ho =>
    have htype := he e (by simp [hk, Kind.element?]) ho
    simp [wire, wireActions, hk, ho, htype, Except.toOption]
  | words field e hk ho =>
    have hclass : e.className = "" := by simpa [Element.isObject] using ho
    simp [wire, wireActions, hk, ho, hclass, Except.toOption]
  | list field e hk ho =>
    have htype := he e (by simp [hk, Kind.element?]) ho
    simp [wire, wireActions, hk, ho, htype, Except.toOption]

theorem initAction_handles (hk : a.kind ≠ none)
    (he : ∀ e, a.kind.bind Kind.element? = some e → e.isObject = true → e.type = "")
    (overrides : Table String) :
    (initAction overrides a).Handles a ∧ (initAction overrides a).op ≠ .assign := by
  unfold Action.Handles Attribute.payload
  cases Attribute.form hk with
  | word q hk => simp [initAction, hk]
  | object name hk => simp [initAction, hk]
  | array n e hk ho =>
    have hclass : e.className = "" := by simpa [Element.isObject] using ho
    simp [initAction, hk, ho, hclass]
  | objects n e hk ho =>
    have htype := he e (by simp [hk, Kind.element?]) ho
    simp [initAction, hk, ho, htype]
  | words field e hk ho => simp [initAction, hk]
  | list field e hk ho => simp [initAction, hk]

theorem wire_ne_super (hk : a.kind ≠ none) : (wire a).marshal.op ≠ .super ∧
    (wire a).unmarshal.op ≠ .super ∧ (wire a).size.op ≠ .super := by
  cases Attribute.form hk with
  | word q hk =>
    by_cases hc : q.countFor = "" <;> simp [wire, wireActions, hk, hc, Except.toOption]
  | object name hk => simp [wire, wireActions, hk, Except.toOption]
  | array n e hk he => simp [wire, wireActions, hk, he, Except.toOption]
  | objects n e hk he => simp [wire, wireActions, hk, he, Except.toOption]
  | words field e hk he => simp [wire, wireActions, hk, he, Except.toOption]
  | list field e hk he => simp [wire, wireActions, hk, he, Except.toOption]

theorem superStep_starts {c : ClassDescription} {acts : List Action}
    (h : ∀ act ∈ acts, act.op ≠ .super) :
    (∃ rest, superStep c ++ acts = { op := .super, className := c.parent } :: rest) ↔
      c.hasParent = true := by
  unfold superStep
  cases hpar : c.hasParent with
  | true => exact iff_of_true ⟨acts, rfl⟩ rfl
  | false =>
    refine iff_of_false ?_ Bool.false_ne_true
    rintro ⟨rest, hrest⟩
    exact h _ (hrest ▸ List.mem_cons_self) rfl

end Plan

namespace Registry

variable {source r : Registry} {c : ClassDescription}

theorem Built.element_type (hb : source.Built) (h : source.toSealed = .ok r) (hc : c ∈ r.classes)
    {a : Attribute} (ha : a ∈ c.attributes) {e : Element} (he : a.kind.bind Kind.element? = some e)
    (ho : e.isObject = true) : e.type = "" := by
  obtain ⟨hnil, rfl⟩ := toSealed_eq_ok hb h
  obtain ⟨d, hd, rfl⟩ := List.mem_map.mp hc
  obtain ⟨b, hbd, rfl⟩ := mem_linkClass.mp ha
  have hsame : linkAttribute d.attributes b = b := by
    refine linkAttribute_other _ fun q hq => ?_
    obtain ⟨q', hq', -⟩ := linkAttribute_primitive d.attributes hq
    simp [hq', Kind.element?] at he
  rw [hsame] at he
  have hwell := (checkClass_eq_nil_iff (lookup_of_mem hb.names_nodup hd)).mp
    (List.flatMap_eq_nil_iff.mp hnil d hd)
  exact (hwell.elementClasses b hbd e he (by simpa [Element.isObject] using ho)).1

/-- Where only sealing ties count fields, an attribute offends just if its own step fails. -/
theorem offends_iff (hs : r.Consistent) (ht : r.Tied) (hc : c ∈ r.classes) (options : PlanOptions)
    (a : Attribute) (cause : PlanCause) : c.Offends options a cause ↔
      ∃ pre post, c.attributes = pre ++ a :: post ∧
        Plan.attributeActions options ((pre.map (·.name)).reverse ++ []) a = .error cause := by
  have hkind : ∀ b ∈ c.attributes, b.kind ≠ none := fun b hb => (hs.kinds c hc b hb).ne_none
  constructor
  · intro h
    cases h with
    | @transientCount l ha htr hl hcount =>
      obtain ⟨pre, post, hsplit⟩ := List.append_of_mem ha
      obtain ⟨q, hq, hfor⟩ := (ht.counts c hc a ha l hl).mpr hcount
      refine ⟨pre, post, hsplit, (Plan.attributeActions_eq_error_transient htr).mpr ?_⟩
      exact ⟨q, hq, hfor ▸ hs.named c hc l hl, by rw [hfor]⟩
    | @countAfterList pre post field e hsplit htr hk hpre =>
      refine ⟨pre, post, hsplit,
        (Plan.attributeActions_eq_error_serialised (by simp [hk]) htr).mpr
          ⟨field, e, hk, .inl ⟨?_, rfl⟩⟩⟩
      simpa using hpre
    | @primitiveList pre post field e hsplit htr hk hpre he hno =>
      refine ⟨pre, post, hsplit, (Plan.attributeActions_eq_error_serialised (by simp [hk]) htr).mpr
        ⟨field, e, hk, .inr ⟨?_, he, hno, rfl⟩⟩⟩
      simpa using hpre
  · rintro ⟨pre, post, hsplit, herr⟩
    have ha : a ∈ c.attributes := by simp [hsplit]
    cases htr : a.transient with
    | true =>
      obtain ⟨q, hq, hne, rfl⟩ := (Plan.attributeActions_eq_error_transient htr).mp herr
      obtain ⟨l, hl, hname⟩ := ht.counted c hc a ha q hq hne
      rw [← hname]
      exact .transientCount ha htr hl ((ht.counts c hc a ha l hl).mp ⟨q, hq, hname.symm⟩)
    | false =>
      obtain ⟨field, e, hk, ⟨hm, rfl⟩ | ⟨hm, he, hno, rfl⟩⟩ :=
        (Plan.attributeActions_eq_error_serialised (hkind a ha) htr).mp herr
      · exact .countAfterList hsplit htr hk (by simpa using hm)
      · exact .primitiveList hsplit htr hk (by simpa using hm) he hno

structure PlansExactly (r : Registry) (options : PlanOptions) (c : ClassDescription) : Prop where
  succeeds_iff : (∃ plan, (r.plan options c).2 = .ok plan) ↔
    ∀ a cause, ¬ c.Offends options a cause
  refused : ∃ bad, c.Offenders options bad ∧ (bad ≠ [] →
    (r.plan options c).2 = .error (bad.map fun x => .invalid ⟨c.name, x.1.name, x.2⟩))
  aligned : ∀ plan, (r.plan options c).2 = .ok plan → plan.Aligned options c

end Registry

namespace ClassPlan.Follows

variable {r : Registry} {options : PlanOptions} {plan : ClassPlan} {c : ClassDescription}

theorem wire_at (hf : plan.Follows c) {k : Nat} {a : Attribute} (h : c.serialised[k]? = some a) :
    plan.marshal[(Plan.superStep c).length + k]? = some (Plan.wire a).marshal ∧
      plan.unmarshal[(Plan.superStep c).length + k]? = some (Plan.wire a).unmarshal := by
  rw [hf.marshal, hf.unmarshal, List.getElem?_append_right (Nat.le_add_right _ _),
    List.getElem?_append_right (Nat.le_add_right _ _), Nat.add_sub_cancel_left]
  simp [h]

theorem countsFor (hf : plan.Follows c) (hs : r.Consistent) (hc : c ∈ r.classes) {l : Attribute}
    (hl : l ∈ c.serialised) {field : String} (hcount : l.CountedBy field) :
    plan.CountsFor l field := by
  obtain ⟨k, hk⟩ := List.mem_iff_getElem?.mp hl
  obtain ⟨hlt, hget⟩ := List.getElem?_eq_some_iff.mp hk
  have hsplit : c.serialised = c.serialised.take k ++ l :: c.serialised.drop (k + 1) := by
    rw [← hget, ← List.drop_eq_getElem_cons hlt, List.take_append_drop]
  obtain ⟨b, hb, q, rfl, hq, hfor⟩ := hf.count_before hs hc hsplit hcount
  obtain ⟨j, hj, hbj⟩ := List.mem_take_iff_getElem.mp hb
  have hjk : j < k := Nat.lt_of_lt_of_le hj (Nat.min_le_left _ _)
  have hat : c.serialised[j]? = some b := List.getElem?_eq_some_iff.mpr ⟨by omega, hbj⟩
  obtain ⟨hm, hn⟩ := hf.wire_at hat
  obtain ⟨-, hu⟩ := hf.wire_at hk
  have hname : l.name ≠ "" := hs.named c hc l (List.mem_filter.mp hl).1
  refine ⟨_, _, _, _, _, Nat.add_lt_add_left hjk _, hm, ?_, ?_, ?_, hn, ?_, ?_, hu, ?_⟩
  · simp [Plan.wire, Plan.wireActions, hq, hfor, hname, Except.toOption]
  · simp [Plan.wire, Plan.wireActions, hq, hfor, hname, Except.toOption]
  · simp [Plan.wire, Plan.wireActions, hq, hfor, hname, Except.toOption]
  · simp [Plan.wire, Plan.wireActions, hq, Except.toOption]
  · simp [Plan.wire, Plan.wireActions, hq, Except.toOption]
  · obtain ⟨e, he⟩ := hcount
    cases ho : e.isObject <;> simp [Plan.wire, Plan.wireActions, he, ho, Except.toOption]

theorem aligned (hf : plan.Follows c) (hs : r.Consistent) (hc : c ∈ r.classes)
    (helem : ∀ a ∈ c.attributes, ∀ e, a.kind.bind Kind.element? = some e → e.isObject = true →
      e.type = "") (hno : ∀ a cause, ¬ c.Offends options a cause) : plan.Aligned options c := by
  have hkind : ∀ a ∈ c.attributes, a.kind ≠ none := fun a ha => (hs.kinds c hc a ha).ne_none
  have hser : ∀ a ∈ c.serialised, a ∈ c.attributes ∧ a.transient = false := by
    intro a ha
    simpa [ClassDescription.serialised] using ha
  have hwire : ∀ a ∈ c.serialised, Plan.wireActions options a = .ok (Plan.wire a) := by
    intro a ha
    obtain ⟨hac, ht⟩ := hser a ha
    cases hw : Plan.wireActions options a with
    | ok w => rw [Plan.wireActions_eq_wire hw]
    | error cause =>
      obtain ⟨field, e, hk, he, hopt, -⟩ := (Plan.wireActions_eq_error (hkind a hac)).mp hw
      obtain ⟨pre, post, hsplit⟩ := List.append_of_mem hac
      exact (hno a _ (.primitiveList hsplit ht hk
        (hf.count_precedes pre a post hsplit ht field ⟨e, hk⟩) he hopt)).elim
  obtain ⟨overrides, assigns, hassigns, hinit⟩ := hf.init
  have hownOp : ∀ act ∈ c.attributes.map (Plan.initAction overrides) ++ assigns,
      act.op ≠ .super := by
    intro act hact hop
    rcases List.mem_append.mp hact with hact | hact
    · obtain ⟨a, -, rfl⟩ := List.mem_map.mp hact
      exact Plan.initAction_ne_super overrides a hop
    · rw [hassigns act hact] at hop
      cases hop
  have hwireOp : ∀ step : Attribute → Action, (∀ a, a.kind ≠ none → (step a).op ≠ .super) →
      ((∃ rest, Plan.superStep c ++ c.serialised.map step =
        { op := .super, className := c.parent } :: rest) ↔ c.hasParent = true) := by
    intro step hstep
    refine Plan.superStep_starts fun act hact => ?_
    obtain ⟨a, ha, rfl⟩ := List.mem_map.mp hact
    exact hstep a (hkind a (hser a ha).1)
  refine ⟨by simp [hf.marshal, hf.unmarshal, hf.size], ?_, ?_, ?_, ?_⟩
  · intro acts hacts
    simp only [List.mem_cons, List.not_mem_nil, or_false] at hacts
    rcases hacts with rfl | rfl | rfl | rfl
    · rw [hinit, List.append_assoc]
      exact Plan.superStep_starts hownOp
    · rw [hf.marshal]
      exact hwireOp _ fun a hk => (Plan.wire_ne_super hk).1
    · rw [hf.unmarshal]
      exact hwireOp _ fun a hk => (Plan.wire_ne_super hk).2.1
    · rw [hf.size]
      exact hwireOp _ fun a hk => (Plan.wire_ne_super hk).2.2
  · refine ⟨c.serialised.map Plan.wire, by simp [hf.marshal], by simp [hf.unmarshal],
      by simp [hf.size], ?_⟩
    refine List.forall₂_map_right_iff.mpr (List.forall₂_same.mpr fun a ha => ⟨hwire a ha, ?_⟩)
    have hac := (hser a ha).1
    exact Plan.wire_handles (hkind a hac) (helem a hac)
  · exact fun l hl field hcount => hf.countsFor hs hc hl hcount
  · refine ⟨_, assigns, hinit, ?_, hassigns⟩
    refine List.forall₂_map_right_iff.mpr (List.forall₂_same.mpr fun a ha => ?_)
    exact Plan.initAction_handles (hkind a ha) (helem a ha) overrides

end ClassPlan.Follows

namespace Registry

variable {source r : Registry} {c : ClassDescription}

/-- Planning a class of a sealed registry refuses exactly the attributes that offend, and otherwise
gives plans that line up. -/
theorem Built.plans_exactly (hb : source.Built) (hu : source.Unlinked)
    (h : source.toSealed = .ok r) (hc : c ∈ r.classes) (options : PlanOptions) :
    r.PlansExactly options c := by
  have hs := hb.consistent h
  obtain ⟨bad, herrors, hsub, hmem⟩ := Plan.wirePlan_errors options c.attributes []
  have hoffends : ∀ a cause, (a, cause) ∈ bad ↔ c.Offends options a cause := fun a cause =>
    (hmem a cause).trans (offends_iff hs (hb.tied hu h) hc options a cause).symm
  have hnone : bad = [] ↔ ∀ a cause, ¬ c.Offends options a cause := by
    simp [List.eq_nil_iff_forall_not_mem, hoffends]
  have hsucceeds : (∃ plan, (r.plan options c).2 = .ok plan) ↔ bad = [] := by
    rcases plan_eq hs.isSealed c options with ⟨plan, hplan, hnil⟩ | ⟨hne, hfail⟩
    · rw [herrors, List.map_eq_nil_iff] at hnil
      exact iff_of_true ⟨plan, hplan⟩ hnil
    · rw [herrors, ne_eq, List.map_eq_nil_iff] at hne
      refine iff_of_false ?_ hne
      rintro ⟨plan, hplan⟩
      simp [hfail] at hplan
  refine ⟨hsucceeds.trans hnone, ⟨bad, ⟨hoffends, hsub, ?_, ?_⟩, fun hne => ?_⟩, ?_⟩
  · exact (List.Nodup.of_map _ (hs.attributes_nodup c hc)).sublist hsub
  · rintro ⟨a, cause⟩ hx
    cases (hoffends a cause).mp hx <;> simp [PlanCause.isUnsupported]
  · rcases plan_eq hs.isSealed c options with ⟨plan, hplan, -⟩ | ⟨-, hfail⟩
    · exact (hne (hsucceeds.mp ⟨plan, hplan⟩)).elim
    · rw [hfail, herrors, List.map_map]
      rfl
  · intro plan hplan
    refine (Registry.plan_follows hplan).aligned hs hc (fun a ha e he ho => ?_)
      (hnone.mp (hsucceeds.mp ⟨plan, hplan⟩))
    exact hb.element_type h hc ha he ho

end Registry

namespace Depot

def crate : ClassDescription := {
  name := "Crate", parent := "Box", attributes := [
    { name := "count", kind := some (.primitive { type := "uint8", countFor := "items" }) },
    { name := "note", kind := some (.primitive { type := "int16" }), transient := true },
    { name := "items", kind := some (.dynamicList "count" { className := "Box" }) }] }

def muddle : ClassDescription := {
  name := "Muddle", parent := "root", attributes := [
    { name := "size", kind := some (.primitive { type := "uint8", countFor := "spare" })
      transient := true },
    { name := "early", kind := some (.dynamicList "late" { type := "uint8" }) },
    { name := "late", kind := some (.primitive { type := "uint8", countFor := "early" }) },
    { name := "spare", kind := some (.dynamicList "size" { className := "Box" })
      transient := true },
    { name := "count", kind := some (.primitive { type := "uint8", countFor := "words" }) },
    { name := "words", kind := some (.dynamicList "count" { type := "uint16" }) }] }

def box : ClassDescription := {
  name := "Box", parent := "root", attributes := [
    { name := "sides", kind := some (.fixedList 3 { type := "float32" }) }] }

def source : Registry := .gather ([crate, muddle, box].map fun c => { c with
  attributes := c.attributes.map fun a => { a with
    kind := a.primitive?.elim a.kind fun q => some (.primitive { q with countFor := "" }) } })

def registry : Registry := { classes := [box, crate, muddle], isSealed := true }

theorem registry_evaluated :
    (source.classes.all fun c => c.attributes.all fun a =>
      a.primitive?.all (·.countFor == "")) = true ∧
    source.toSealed.toOption = some registry ∧
    (registry.plan {} crate).2.toOption.isSome = true ∧
    (registry.plan {} muddle).2 = .error [
      .invalid ⟨"Muddle", "size", .transientCount "spare"⟩,
      .invalid ⟨"Muddle", "early", .countAfterList "late"⟩,
      .invalid ⟨"Muddle", "words", .primitiveList "uint16"⟩] := by
  decide +kernel

end Depot

theorem depot_plans :
    (∃ plan, (Depot.registry.plan {} Depot.crate).2 = .ok plan ∧ plan.Aligned {} Depot.crate) ∧
    Depot.registry.PlansExactly {} Depot.muddle ∧
    (Depot.registry.plan {} Depot.muddle).2 = .error [
      .invalid ⟨"Muddle", "size", .transientCount "spare"⟩,
      .invalid ⟨"Muddle", "early", .countAfterList "late"⟩,
      .invalid ⟨"Muddle", "words", .primitiveList "uint16"⟩] := by
  obtain ⟨hunlinked, hsealed, hcrate, hmuddle⟩ := Depot.registry_evaluated
  have hexactly : ∀ c ∈ Depot.registry.classes, Depot.registry.PlansExactly {} c := by
    intro c hc
    cases h : Depot.source.toSealed with
    | error bad => simp [h, Except.toOption] at hsealed
    | ok r =>
      obtain rfl : r = Depot.registry := by simpa [h, Except.toOption] using hsealed
      exact Registry.Built.plans_exactly (Registry.gather_built _)
        (Registry.unlinked_of_all hunlinked) h hc {}
  refine ⟨?_, hexactly Depot.muddle (by simp [Depot.registry]), hmuddle⟩
  cases hplan : (Depot.registry.plan {} Depot.crate).2 with
  | error bad => simp [hplan, Except.toOption] at hcrate
  | ok plan =>
    exact ⟨plan, rfl, (hexactly Depot.crate (by simp [Depot.registry])).aligned plan hplan⟩

end PduCompiler
