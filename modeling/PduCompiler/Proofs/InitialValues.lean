import PduCompiler.Proofs.Initialisation
import PduCompiler.Proofs.Relocation

/-! Initial values. A class may give values to its own attributes and to those of its ancestors. A
new object has for each primitive attribute the value that the nearest class on the way up to the
declaration gives it. What names no primitive attribute is warned about and has no effect. -/

namespace PduCompiler

open Text

def InitialValue.lastFor (values : List InitialValue) (attr : String) : Option String :=
  (values.reverse.find? (·.attr == attr)).map (·.value)

/-- The literal of a primitive attribute in an object, given the classes from that of the object up
to the one that declares the attribute. -/
def Primitive.literalIn (q : Primitive) (attr : String) (line : List ClassDescription) : String :=
  (line.findSome? fun c => InitialValue.lastFor c.initialValues attr).getD
    (if q.default = "" then "0" else q.default)

def ClassDescription.keeping (keep : String → InitialValue → Bool) (c : ClassDescription) :
    ClassDescription :=
  { c with initialValues := c.initialValues.filter (keep c.name) }

theorem InitialValue.lastFor_append (values : List InitialValue) (v : InitialValue)
    (attr : String) :
    lastFor (values ++ [v]) attr = if v.attr = attr then some v.value else lastFor values attr := by
  by_cases h : v.attr = attr <;> simp [lastFor, h]

namespace Registry

variable {r : Registry} {c d : ClassDescription} {a : Attribute} {attr : String}

/-- The value is meant for no attribute of the class and its ancestors, or for one that is not
primitive. -/
def Ineffective (r : Registry) (c : ClassDescription) (v : InitialValue) : Prop :=
  ∀ d ∈ r.chain c.name, ∀ a ∈ d.attributes, a.name = v.attr → a.primitive? = none

instance (r : Registry) (c : ClassDescription) (v : InitialValue) :
    Decidable (r.Ineffective c v) :=
  inferInstanceAs (Decidable (∀ d ∈ r.chain c.name, ∀ a ∈ d.attributes, a.name = v.attr →
    a.primitive? = none))

inductive Warning (r : Registry) (c : ClassDescription) (v : InitialValue) : String → Prop
  | unknown (h : ∀ d ∈ r.chain c.name, ∀ a ∈ d.attributes, a.name ≠ v.attr) :
      Warning r c v
        s!"no attribute matches initial value {quote v.attr} in class {c.name} or its ancestors"
  | notPrimitive {d : ClassDescription} {a : Attribute} (hd : d ∈ r.chain c.name)
      (ha : a ∈ d.attributes) (hn : a.name = v.attr) (hp : a.primitive? = none) :
      Warning r c v
        s!"initial value {quote v.attr} in class {c.name} targets a {Kind.nameOf a.kind} attribute"

def keeping (r : Registry) (keep : String → InitialValue → Bool) : Registry :=
  ⟨r.classes.map (ClassDescription.keeping keep), r.isSealed⟩

theorem findAttribute_eq_some (h : r.findAttribute c.name attr = some (d, a)) :
    d ∈ r.chain c.name ∧ a ∈ d.attributes ∧ a.name = attr := by
  obtain ⟨d', hd, hmap⟩ := List.exists_of_findSome?_eq_some h
  obtain ⟨a', ha, he⟩ := Option.map_eq_some_iff.mp hmap
  cases he
  exact ⟨hd, List.mem_of_find?_eq_some ha, by simpa using List.find?_some ha⟩

theorem findAttribute_eq_none : r.findAttribute c.name attr = none ↔
    ∀ d ∈ r.chain c.name, ∀ a ∈ d.attributes, a.name ≠ attr := by
  simp [findAttribute, ClassDescription.attribute?]

theorem findAttribute_keeping (keep : String → InitialValue → Bool) (name attr : String) :
    (r.keeping keep).findAttribute name attr =
      (r.findAttribute name attr).map fun found => (found.1.keeping keep, found.2) := by
  rw [findAttribute, findAttribute, keeping,
    chain_map (f := ClassDescription.keeping keep) (fun _ => rfl) (fun _ => rfl),
    List.findSome?_map, List.map_findSome?]
  congr 1
  funext x
  simp only [Function.comp_apply, Option.map_map]
  rfl

section Chain

variable (hr : r.Rooted) (hs : r.Consistent) (hno : r.NoRedeclaration) (hc : c ∈ r.classes)

include hr hs hno hc

theorem findAttribute_of_mem (hd : d ∈ r.chain c.name) (ha : a ∈ d.attributes) :
    r.findAttribute c.name a.name = some (d, a) := by
  have hnd := hno.names_nodup hr hs c hc
  have hmem : ∀ x ∈ r.chain c.name, x.attributes ⊆ r.allAttributes c.name :=
    fun x hx b hb => List.mem_flatMap.mpr ⟨x, List.mem_reverse.mpr hx, hb⟩
  cases hf : r.findAttribute c.name a.name with
  | none => exact (findAttribute_eq_none.mp hf d hd a ha rfl).elim
  | some found =>
    obtain ⟨d', a'⟩ := found
    obtain ⟨hd', ha', hname⟩ := findAttribute_eq_some hf
    obtain rfl := List.inj_on_of_nodup_map hnd (hmem d' hd' ha') (hmem d hd ha) hname
    -- two classes of the chain do not share the attribute
    have hsymm : Std.Symm fun x y : ClassDescription => ∀ b ∈ x.attributes, b ∉ y.attributes :=
      ⟨fun x y h b hb hb' => h b hb' hb⟩
    have hpair : (r.chain c.name).reverse.Pairwise fun x y =>
        ∀ b ∈ x.attributes, b ∉ y.attributes :=
      (List.nodup_flatMap.mp (List.Nodup.of_map _ hnd)).2.imp fun h b hb hb' => h hb hb'
    by_contra hne
    have hdd : d' ≠ d := fun he => hne (by rw [he])
    exact hpair.forall (List.mem_reverse.mpr hd') (List.mem_reverse.mpr hd) hdd a' ha' ha

omit hno in
theorem chain_split {below above : List ClassDescription}
    (h : r.chain c.name = below ++ d :: above) : below = [] ∧ d = c ∨
      ∃ lower q, below = c :: lower ∧ q ∈ r.classes ∧ q.name = c.parent ∧ c.hasParent = true ∧
        r.chain q.name = lower ++ d :: above ∧ d ∈ r.ancestors c.name ∧ d.name ≠ c.name := by
  have hn := hs.names_nodup
  have hline := hr.line hn hc
  rw [chain, lookup_of_mem hn hc, Option.toList_some, List.singleton_append] at h
  cases below with
  | nil =>
    rw [List.nil_append, List.cons.injEq] at h
    exact .inl ⟨rfl, h.1.symm⟩
  | cons b lower =>
    rw [List.cons_append, List.cons.injEq] at h
    obtain ⟨rfl, hanc⟩ := h
    have hpar : c.hasParent = true := by
      by_contra hpar
      simp [hr.no_parent hn hc (by simpa using hpar)] at hanc
    obtain ⟨q, hq, hl, hup⟩ := hr.parent hn hc hpar
    have hd : d ∈ r.ancestors c.name := by simp [hanc]
    have hdc : d.name ≠ c.name := fun he =>
      (List.nodup_cons.mp hline.nodup).1
        (List.inj_on_of_nodup_map hn (hline.mem d hd).1 hc he ▸ hd)
    refine .inr ⟨lower, q, rfl, hq, lookup_name hl, hpar, ?_, hd, hdc⟩
    rw [← hanc, hup, lookup_name hl, chain, hl, Option.toList_some, List.singleton_append]

end Chain

end Registry

namespace Plan

variable {r : Registry} {c d : ClassDescription} {a : Attribute} {q : Primitive}

def assignment (d : ClassDescription) (attr : String) (q : Primitive) (value : String) : Action :=
  { op := .assign, attr, type := q.type, value, owner := d.name }

namespace InitialValues

theorem take_keeping (keep : String → InitialValue → Bool) (v : InitialValue)
    {acc acc' : InitialValues} (hover : acc'.overrides = acc.overrides)
    (hassign : acc'.assigns = acc.assigns) :
    (acc'.take (r.keeping keep) (c.keeping keep) true v).overrides =
        (acc.take r c true v).overrides ∧
      (acc'.take (r.keeping keep) (c.keeping keep) true v).assigns =
        (acc.take r c true v).assigns := by
  have hname : ∀ x : ClassDescription, (x.keeping keep).name = x.name := fun _ => rfl
  unfold take
  rw [hname, Registry.findAttribute_keeping]
  cases r.findAttribute c.name v.attr with
  | none => exact ⟨hover, hassign⟩
  | some found =>
    simp only [Option.map_some, hname]
    cases found.2.primitive? with
    | none => exact ⟨hover, hassign⟩
    | some q => by_cases hown : found.1.name = c.name <;> simp [hown, hover, hassign]

section

variable (hr : r.Rooted) (hs : r.Consistent) (hno : r.NoRedeclaration) (hc : c ∈ r.classes)

include hr hs hno hc

theorem take_cases (acc : InitialValues) (v : InitialValue) :
    (r.Ineffective c v ∧ ∃ warning, r.Warning c v warning ∧
      acc.take r c true v = { acc with warnings := acc.warnings ++ [(warning, v.attr)] }) ∨
    ∃ d a q, r.findAttribute c.name v.attr = some (d, a) ∧ a.primitive? = some q ∧
      ¬ r.Ineffective c v ∧
      acc.take r c true v = if d.name = c.name
        then { acc with overrides := acc.overrides.set v.attr v.value }
        else { acc with assigns := acc.assigns ++ [assignment d v.attr q v.value] } := by
  unfold take
  cases hf : r.findAttribute c.name v.attr with
  | none =>
    have hnone := Registry.findAttribute_eq_none.mp hf
    exact .inl ⟨fun d hd a ha he => (hnone d hd a ha he).elim, _, .unknown hnone, rfl⟩
  | some found =>
    obtain ⟨d, a⟩ := found
    obtain ⟨hd, ha, hname⟩ := Registry.findAttribute_eq_some hf
    cases hq : a.primitive? with
    | none =>
      refine .inl ⟨fun d' hd' a' ha' he => ?_, _, .notPrimitive hd ha hname hq, by simp only [hq]⟩
      have hf' := Registry.findAttribute_of_mem hr hs hno hc hd' ha'
      rw [he, hf] at hf'
      cases hf'
      exact hq
    | some q =>
      refine .inr ⟨d, a, q, rfl, hq, fun h => ?_, ?_⟩
      · simp [h d hd a ha hname] at hq
      · simp only [hq, Bool.true_and, beq_iff_eq, hname, assignment]

theorem foldl_warnings (values : List InitialValue) :
    List.Forall₂ (r.Warning c) (values.filter (r.Ineffective c ·))
      ((values.foldl (take r c true) {}).warnings.map (·.1)) := by
  induction values using List.reverseRecOn with
  | nil => exact .nil
  | append_singleton values v ih =>
    rw [List.foldl_append, List.foldl_cons, List.foldl_nil, List.filter_append]
    generalize values.foldl (take r c true) {} = acc at ih ⊢
    rcases take_cases hr hs hno hc acc v with ⟨hvain, w, hw, he⟩ | ⟨d, a, q, -, -, heff, he⟩
    · rw [he, List.map_append, List.filter_cons_of_pos (by simpa using hvain)]
      exact List.rel_append ih (.cons hw .nil)
    · have hwarn : (acc.take r c true v).warnings = acc.warnings := by
        rw [he]
        split <;> rfl
      rw [hwarn, List.filter_cons_of_neg (by simpa using heff), List.filter_nil, List.append_nil]
      exact ih

/-- Without values that have no effect a class has the same defaults and assignments. -/
theorem foldl_keeping {keep : String → InitialValue → Bool} {values : List InitialValue}
    (hkeep : ∀ v ∈ values, keep c.name v = false → r.Ineffective c v) (acc acc' : InitialValues)
    (hover : acc'.overrides = acc.overrides) (hassign : acc'.assigns = acc.assigns) :
    ((values.filter (keep c.name)).foldl (take (r.keeping keep) (c.keeping keep) true)
        acc').overrides = (values.foldl (take r c true) acc).overrides ∧
      ((values.filter (keep c.name)).foldl (take (r.keeping keep) (c.keeping keep) true)
        acc').assigns = (values.foldl (take r c true) acc).assigns := by
  induction values generalizing acc acc' with
  | nil => exact ⟨hover, hassign⟩
  | cons v values ih =>
    have hrest : ∀ u ∈ values, keep c.name u = false → r.Ineffective c u :=
      fun u hu => hkeep u (List.mem_cons_of_mem _ hu)
    rw [List.foldl_cons]
    by_cases hv : keep c.name v = true
    · rw [List.filter_cons_of_pos hv, List.foldl_cons]
      obtain ⟨ho, ha⟩ := take_keeping keep v hover hassign
      exact ih hrest _ _ ho ha
    · rw [List.filter_cons_of_neg hv]
      rcases take_cases hr hs hno hc acc v with ⟨-, w, -, he⟩ | ⟨d, a, q, -, -, heff, -⟩
      · rw [he]
        exact ih hrest _ _ hover hassign
      · exact (heff (hkeep v List.mem_cons_self (by simpa using hv))).elim

variable (hf : r.findAttribute c.name a.name = some (d, a)) (hq : a.primitive? = some q)

include hf hq

theorem take_at (acc : InitialValues) (v : InitialValue) :
    (v.attr = a.name ∧ acc.take r c true v = if d.name = c.name
      then { acc with overrides := acc.overrides.set a.name v.value }
      else { acc with assigns := acc.assigns ++ [assignment d a.name q v.value] }) ∨
    v.attr ≠ a.name ∧ (acc.take r c true v).overrides.get? a.name = acc.overrides.get? a.name ∧
      (acc.take r c true v).assigns.reverse.find? (·.attr == a.name) =
        acc.assigns.reverse.find? (·.attr == a.name) := by
  obtain ⟨hd, ha, -⟩ := Registry.findAttribute_eq_some hf
  by_cases hv : v.attr = a.name
  · refine .inl ⟨hv, ?_⟩
    rcases take_cases hr hs hno hc acc v with ⟨hvain, -⟩ | ⟨d', a', q', hf', hq', -, he⟩
    · simp [hvain d hd a ha hv.symm] at hq
    · rw [hv, hf] at hf'
      cases hf'
      rw [hq] at hq'
      cases hq'
      rw [he, hv]
  · refine .inr ⟨hv, ?_⟩
    rcases take_cases hr hs hno hc acc v with ⟨-, _, -, he⟩ | ⟨d', a', q', -, -, -, he⟩
    · simp [he]
    · by_cases hown : d'.name = c.name
      · simp [he, hown, Table.get?_set, Ne.symm hv]
      · simp [he, hown, assignment, hv]

/-- The last value for an attribute is its default, if the class declares it, and else the value of
the last assignment to it. -/
theorem foldl_at (values : List InitialValue) :
    (values.foldl (take r c true) {}).overrides.get? a.name =
      (if d.name = c.name then InitialValue.lastFor values a.name else none) ∧
    (values.foldl (take r c true) {}).assigns.reverse.find? (·.attr == a.name) =
      if d.name = c.name then none
      else (InitialValue.lastFor values a.name).map (assignment d a.name q) := by
  induction values using List.reverseRecOn with
  | nil => simp [Table.get?, InitialValue.lastFor]
  | append_singleton values v ih =>
    obtain ⟨hover, hassign⟩ := ih
    rw [List.foldl_append, List.foldl_cons, List.foldl_nil, InitialValue.lastFor_append]
    generalize values.foldl (take r c true) {} = acc at hover hassign ⊢
    rcases take_at hr hs hno hc hf hq acc v with ⟨hv, he⟩ | ⟨hv, ho, ha⟩
    · by_cases hown : d.name = c.name
      · rw [if_pos hown] at he hassign
        simp [he, hv, hown, hassign, Table.get?_set]
      · rw [if_neg hown] at he hover
        simp [he, hv, hown, hover, assignment]
    · rw [ho, ha, if_neg hv]
      exact ⟨hover, hassign⟩

end

end InitialValues

end Plan

namespace Instance.Initialised

variable {i j : Instance} {act : Action} {field : String}

theorem prims_of_ne (h : i.Initialised act j) (hne : act.attr ≠ field) :
    j.prims.get? field = i.prims.get? field := by
  cases h with
  | word => simp [Table.get?_set, Ne.symm hne]
  | _ => rfl

theorem prims_literal (h : i.Initialised act j) (hop : act.ReadsLiteral) :
    ∃ w, act.type.readLiteral act.value = .ok w ∧ j.prims.get? act.attr = some w := by
  cases h with
  | word _ hw => exact ⟨_, hw, by simp [Table.get?_set]⟩
  | _ => simp_all [Action.ReadsLiteral]

end Instance.Initialised

namespace Program

section Steps

variable {build : Builder} {name field : String} {acts : List Action} {x y : Nursery × Instance}
  (hsuper : ∀ act ∈ acts, act.op ≠ .super)
  (h : acts.foldlM (initStep build name) x = .ok y)

include hsuper h

theorem initSteps_keep (hne : acts.reverse.find? (·.attr == field) = none) :
    y.2.prims.get? field = x.2.prims.get? field := by
  refine foldlM_keeps (P := fun state => state.2.prims.get? field = x.2.prims.get? field)
    (fun act hact u v huv hu => ?_) h rfl
  have hattr : act.attr ≠ field := by
    simpa using List.find?_eq_none.mp hne act (List.mem_reverse.mpr hact)
  rcases initStep_initialised huv with ⟨hop, -⟩ | hinit
  · exact (hsuper act hact hop).elim
  · rw [hinit.prims_of_ne hattr, hu]

theorem initSteps_last {act : Action} (hlast : acts.reverse.find? (·.attr == field) = some act)
    (hop : act.ReadsLiteral) :
    ∃ w, act.type.readLiteral act.value = .ok w ∧ y.2.prims.get? field = some w := by
  obtain ⟨hattr, after, before, hsplit, hafter⟩ := List.find?_eq_some_iff_append.mp hlast
  obtain rfl : act.attr = field := by simpa using hattr
  rw [List.reverse_eq_iff] at hsplit
  simp only [List.reverse_append, List.reverse_cons, List.append_assoc, List.singleton_append]
    at hsplit
  subst hsplit
  simp only [List.foldlM_append, List.foldlM_cons, bind_eq_ok] at h
  obtain ⟨u, -, v, hact, hrest⟩ := h
  have hkeep : y.2.prims.get? act.attr = v.2.prims.get? act.attr :=
    initSteps_keep (fun b hb => hsuper b (by simp_all)) hrest
      (List.find?_eq_none.mpr (by simpa using hafter))
  rcases initStep_initialised hact with ⟨hno, -⟩ | hinit
  · exact (hsuper act (by simp) hno).elim
  · obtain ⟨w, hw, hv⟩ := hinit.prims_literal hop
    exact ⟨w, hw, hkeep.trans hv⟩

end Steps

theorem initSteps_own {build : Builder} {name : String} {overrides : Table String}
    {attributes : List Attribute} (hnd : (attributes.map (·.name)).Nodup) {a : Attribute}
    (ha : a ∈ attributes) {q : Primitive} (hq : a.primitive? = some q) {x y : Nursery × Instance}
    (h : (attributes.map (Plan.initAction overrides)).foldlM (initStep build name) x = .ok y) :
    ∃ w, q.type.readLiteral ((overrides.get? a.name).getD
        (if q.default = "" then "0" else q.default)) = .ok w ∧
      y.2.prims.get? a.name = some w := by
  have hlast : (attributes.map (Plan.initAction overrides)).reverse.find? (·.attr == a.name) =
      some (Plan.initAction overrides a) := by
    simp only [← List.map_reverse, List.find?_map, Function.comp_def, Plan.initAction_attr]
    have hsome : (attributes.reverse.find? (·.name == a.name)).isSome :=
      List.find?_isSome.mpr ⟨a, List.mem_reverse.mpr ha, beq_self_eq_true _⟩
    obtain ⟨b, hb⟩ := Option.isSome_iff_exists.mp hsome
    rw [hb, List.inj_on_of_nodup_map hnd (List.mem_reverse.mp (List.mem_of_find?_eq_some hb)) ha
      (by simpa using List.find?_some hb), Option.map_some]
  have hact : Plan.initAction overrides a =
      { op := .initValue, attr := a.name, type := q.type, value := (overrides.get? a.name).getD
          (if q.default = "" then "0" else q.default) } := by
    simp [Plan.initAction, Attribute.primitive?_eq_some.mp hq]
  have hsuper : ∀ act ∈ attributes.map (Plan.initAction overrides), act.op ≠ .super := by
    simp [Plan.initAction_ne_super]
  have hread := initSteps_last hsuper h hlast (by simp [Action.ReadsLiteral, hact])
  rwa [hact] at hread

/-- Of the classes up to the declaration of an attribute the nearest that has a value for it gives a
new object that value. -/
theorem Compiled.construct_literal {p : Program} {source : Registry} {options : PlanOptions}
    (h : p.Compiled source options) (hno : p.registry.NoRedeclaration) {c d : ClassDescription}
    (hc : c ∈ p.registry.classes) {below above : List ClassDescription}
    (hchain : p.registry.chain c.name = below ++ d :: above) {a : Attribute} (ha : a ∈ d.attributes)
    {q : Primitive} (hq : a.primitive? = some q) (depth : Nat) {n n' : Nursery} {i i' : Instance}
    (hmade : p.construct depth n i c.name = .ok (n', i')) :
    ∃ w, q.type.readLiteral (q.literalIn a.name (below ++ [d])) = .ok w ∧
      i'.prims.get? a.name = some w := by
  have hp := h.toPlanned
  induction depth generalizing n i n' i' c below with
  | zero => simp [construct] at hmade
  | succ depth ih =>
    obtain ⟨plan, hplan, hok⟩ := h.plan_of_class hc
    obtain ⟨-, -, -, hinit, -⟩ := Registry.plan_eq_ok hok
    have hd : d ∈ p.registry.chain c.name := by simp [hchain]
    have hf := Registry.findAttribute_of_mem hp.rooted hp.consistent hno hc hd ha
    have hvalues := Plan.InitialValues.foldl_at hp.rooted hp.consistent hno hc hf hq c.initialValues
    rw [← Plan.initialValues] at hvalues
    obtain ⟨hover, hlast⟩ := hvalues
    have hop : ∀ act ∈ (Plan.initialValues p.registry c true).assigns, act.op ≠ .super :=
      Plan.initialValues_assigns (fun _ _ _ _ _ _ _ => by simp) true
    simp only [construct, hplan, hinit, List.foldlM_append, bind_eq_ok] at hmade
    obtain ⟨⟨n₂, i₂⟩, ⟨⟨n₁, i₁⟩, hsuper, hattrs⟩, hassigns⟩ := hmade
    rcases Registry.chain_split hp.rooted hp.consistent hc hchain with
      ⟨rfl, rfl⟩ | ⟨lower, e, rfl, he, hen, hpar, hup, hanc, hne⟩
    · -- the class declares the attribute: no assignment of its plan is to it
      rw [if_pos rfl] at hover hlast
      obtain ⟨w, hw, hprims⟩ := initSteps_own (hp.consistent.attributes_nodup d hc) ha hq hattrs
      refine ⟨w, ?_, (initSteps_keep hop hassigns hlast).trans hprims⟩
      rw [hover] at hw
      simpa [Primitive.literalIn] using hw
    · rw [if_neg hne] at hlast
      cases hv : InitialValue.lastFor c.initialValues a.name with
      | some v =>
        rw [hv, Option.map_some] at hlast
        obtain ⟨w, hw, hprims⟩ := initSteps_last hop hassigns hlast (.inr rfl)
        exact ⟨w, by simpa [Primitive.literalIn, hv, Plan.assignment] using hw, hprims⟩
      | none =>
        -- then what the plan of the parent set is still there
        rw [hv, Option.map_none] at hlast
        simp only [Plan.superStep, hpar, if_true, List.foldlM_cons, bind_eq_ok] at hsuper
        obtain ⟨⟨m, j⟩, hstep, hnil⟩ := hsuper
        cases hnil
        rw [initStep, ← hen] at hstep
        obtain ⟨w, hw, hprims⟩ := ih he hup hstep
        have hother : (c.attributes.map (Plan.initAction
            (Plan.initialValues p.registry c true).overrides)).reverse.find?
            (·.attr == a.name) = none := by
          simpa [Plan.initAction_attr] using fun b hb => hno c hc d hanc b hb a ha
        refine ⟨w, by simpa [Primitive.literalIn, hv] using hw, ?_⟩
        rw [initSteps_keep hop hassigns hlast,
          initSteps_keep (by simp [Plan.initAction_ne_super]) hattrs hother, hprims]

theorem construct_congr {p p' : Program}
    (h : ∀ name, (p'.plan? name).map (·.init) = (p.plan? name).map (·.init)) (depth : Nat) :
    p'.construct depth = p.construct depth := by
  induction depth with
  | zero => rfl
  | succ depth ih =>
    funext n i name
    have hname := h name
    cases hp : p.plan? name with
    | none =>
      rw [hp, Option.map_none, Option.map_eq_none_iff] at hname
      simp only [construct, hp, hname]
    | some plan =>
      rw [hp, Option.map_some, Option.map_eq_some_iff] at hname
      obtain ⟨plan', hp', hinit⟩ := hname
      simp only [construct, hp, hp', hinit, ih]

theorem new_congr {p p' : Program} (hlength : p'.plans.length = p.plans.length)
    (h : ∀ name, (p'.plan? name).map (·.init) = (p.plan? name).map (·.init)) (s : Store)
    (name : String) : p'.new s name = p.new s name := by
  simp only [new, build, initDepth, hlength, construct_congr h]

end Program

theorem ClassPlan.find?_init {plans plans' : List ClassPlan}
    (h : List.Forall₂ (fun plan' plan => plan'.name = plan.name ∧ plan'.init = plan.init)
      plans' plans) (name : String) :
    (plans'.find? (·.name == name)).map (·.init) = (plans.find? (·.name == name)).map (·.init) := by
  induction h with
  | nil => rfl
  | cons hsame _ ih =>
    obtain ⟨hname, hinit⟩ := hsame
    simp only [List.find?_cons, hname]
    split
    · rw [Option.map_some, Option.map_some, hinit]
    · exact ih

namespace Registry

section Keeping

variable {r : Registry} {keep : String → InitialValue → Bool} {options : PlanOptions}
  (hr : r.Rooted) (hs : r.Consistent) (hno : r.NoRedeclaration)
  (hkeep : ∀ c ∈ r.classes, ∀ v ∈ c.initialValues, keep c.name v = false → r.Ineffective c v)

include hr hs hno hkeep

theorem plan_keeping {c : ClassDescription} (hc : c ∈ r.classes) {plan : ClassPlan}
    (h : (r.plan options c).2 = .ok plan) :
    ∃ plan', ((r.keeping keep).plan options (c.keeping keep)).2 = .ok plan' ∧
      plan'.name = plan.name ∧ plan'.init = plan.init := by
  obtain ⟨wire, hw, hdesc, hinit, -⟩ := plan_eq_ok h
  have hvalues := Plan.InitialValues.foldl_keeping hr hs hno hc (hkeep c hc) {} {} rfl rfl
  rcases plan_eq (r := r.keeping keep) hs.isSealed (c.keeping keep) options with
    ⟨plan', hok, -⟩ | ⟨hbad, -⟩
  · obtain ⟨-, -, hdesc', hinit', -⟩ := plan_eq_ok hok
    refine ⟨plan', hok, ?_, ?_⟩
    · rw [ClassPlan.name, ClassPlan.name, hdesc, hdesc']
      rfl
    · rw [hinit, hinit', Plan.initialValues, Plan.initialValues, ← hvalues.1, ← hvalues.2]
      rfl
  · exact (hbad (congrArg Prod.snd hw)).elim

theorem plans_keeping {classes : List ClassDescription} (hall : ∀ c ∈ classes, c ∈ r.classes)
    {plans : List ClassPlan} (h : classes.map (fun c => (r.plan options c).2) = plans.map .ok) :
    ∃ plans', (classes.map (ClassDescription.keeping keep)).map
        (fun c => ((r.keeping keep).plan options c).2) = plans'.map .ok ∧
      List.Forall₂ (fun plan' plan => plan'.name = plan.name ∧ plan'.init = plan.init)
        plans' plans := by
  induction classes generalizing plans with
  | nil =>
    obtain rfl : plans = [] := by simpa using h.symm
    exact ⟨[], rfl, .nil⟩
  | cons c classes ih =>
    obtain ⟨plan, rest, rfl, hplan, hrest⟩ := List.map_eq_cons_iff.mp h.symm
    obtain ⟨plan', hok, hsame⟩ :=
      plan_keeping hr hs hno hkeep (hall c List.mem_cons_self) hplan.symm
    obtain ⟨plans', hoks, hsames⟩ := ih (fun d hd => hall d (List.mem_cons_of_mem _ hd)) hrest.symm
    exact ⟨plan' :: plans', by simp only [List.map_cons, hok, hoks], .cons hsame hsames⟩

theorem planAll_keeping {p : Program} (h : (r.planAll options).2 = .ok p) :
    ∃ p', ((r.keeping keep).planAll options).2 = .ok p' ∧
      ∀ s name, p'.new s name = p.new s name := by
  obtain ⟨classes, ho, -, hall⟩ := planAll_eq_ok h
  obtain ⟨-, hd⟩ := order_eq_ok ho
  have hmem : ∀ c ∈ classes, c ∈ r.classes :=
    fun c hc => mem_descendants_classes _ _ (hd ▸ hc)
  obtain ⟨plans', hok, hsame⟩ := plans_keeping hr hs hno hkeep hmem hall
  have horder : (r.keeping keep).order = .ok (classes.map (ClassDescription.keeping keep)) :=
    order_map (f := ClassDescription.keeping keep) (fun _ => rfl) (fun _ => rfl) r.isSealed ho
  have hinit : ∀ name, (Program.plan? ⟨r.keeping keep, plans'⟩ name).map (·.init) =
      (p.plan? name).map (·.init) := ClassPlan.find?_init hsame
  exact ⟨_, planAll_of_plans horder hok, Program.new_congr hsame.length_eq hinit⟩

end Keeping

end Registry

namespace Program

structure AppliesInitialValues (p : Program) (options : PlanOptions) : Prop where
  /-- A primitive attribute that the class `d` declares, in a new object of a class below it. -/
  value : ∀ c ∈ p.registry.classes, ∀ below d above,
    p.registry.chain c.name = below ++ d :: above → ∀ a ∈ d.attributes, ∀ q, a.primitive? = some q →
    ∀ s t ref, p.new s c.name = .ok (t, ref) → ∃ i w, t.get? ref = some i ∧
      q.type.readLiteral (q.literalIn a.name (below ++ [d])) = .ok w ∧
      i.prims.get? a.name = some w
  /-- The values that are in vain are warned about, each once and in order. -/
  warned : ∀ c ∈ p.registry.classes, ∃ plan, p.plan? c.name = some plan ∧
    (p.registry.plan options c).2 = .ok plan ∧
    List.Forall₂ (p.registry.Warning c) (c.initialValues.filter (p.registry.Ineffective c ·))
      plan.warnings
  unaffected : ∀ keep : String → InitialValue → Bool,
    (∀ c ∈ p.registry.classes, ∀ v ∈ c.initialValues, keep c.name v = false →
      p.registry.Ineffective c v) →
    ∃ p', ((p.registry.keeping keep).planAll options).2 = .ok p' ∧
      ∀ s name, p'.new s name = p.new s name

theorem new_get? {p : Program} {s t : Store} {name : String} {ref : Nat}
    (h : p.new s name = .ok (t, ref)) : ∃ n i,
      p.construct p.initDepth { first := s.size } { className := name } name = .ok (n, i) ∧
      t.get? ref = some i := by
  simp only [new, build, bind_eq_ok] at h
  obtain ⟨built, ⟨⟨n, i⟩, hmade, hpush⟩, hnew⟩ := h
  cases hpush
  cases hnew
  refine ⟨n, i, hmade, ?_⟩
  obtain ⟨hfirst, -⟩ := construct_bearing p s p.initDepth (Nat.le_refl _) _ _ _ n i rfl hmade
  have hlast : (s.append (n.push i).1.objects).get? (n.push i).2 =
      ((n.atop s).append #[i]).get? (n.atop s).size := by
    rw [← Nursery.push_atop, ← Nursery.push_ref hfirst i]
    rfl
  rw [hlast, Store.get?_append_right (Nat.le_refl _), Nat.sub_self]
  rfl

/-- The nearest class that gives an attribute a value decides, and what is meant for no primitive
attribute has no effect but a warning. -/
theorem Compiled.applies_initialValues {p : Program} {source : Registry} {options : PlanOptions}
    (h : p.Compiled source options) (hno : p.registry.NoRedeclaration) :
    p.AppliesInitialValues options := by
  have hp := h.toPlanned
  refine ⟨?_, ?_, ?_⟩
  · intro c hc below d above hchain a ha q hq s t ref hnew
    obtain ⟨n, i, hmade, hi⟩ := new_get? hnew
    obtain ⟨w, hw, hprims⟩ := h.construct_literal hno hc hchain ha hq _ hmade
    exact ⟨i, w, hi, hw, hprims⟩
  · intro c hc
    obtain ⟨plan, hplan, hok⟩ := h.plan_of_class hc
    obtain ⟨-, -, -, -, -, -, -, -, hwarn⟩ := Registry.plan_eq_ok hok
    refine ⟨plan, hplan, hok, ?_⟩
    rw [hwarn]
    exact Plan.InitialValues.foldl_warnings hp.rooted hp.consistent hno hc c.initialValues
  · intro keep hkeep
    exact Registry.planAll_keeping hp.rooted hp.consistent hno hkeep h.planned

end Program

namespace Fleet

def number (name type default : String) : Attribute :=
  { name, kind := some (.primitive { type, default }) }

def vehicle : ClassDescription := {
  name := "Vehicle"
  attributes := [
    number "wheels" "uint8" "4", number "seats" "int16" "2", number "doors" "uint8" "",
    { name := "plate", kind := some (.fixedList 2 { type := "uint8" }) }] }

def truck : ClassDescription := {
  name := "Truck", parent := "Vehicle"
  initialValues := [⟨"wheels", "6"⟩, ⟨"seats", "3"⟩, ⟨"wheels", "8"⟩] }

def tanker : ClassDescription := {
  name := "Tanker", parent := "Truck"
  attributes := [number "volume" "uint16" "100"]
  initialValues := [⟨"seats", "-1"⟩, ⟨"sails", "2"⟩, ⟨"volume", "900"⟩, ⟨"plate", "7"⟩] }

def source : Registry := .gather [vehicle, truck, tanker]

def program : Program := (Program.compile? source {}).getD ⟨{}, []⟩

theorem program_evaluated : (Program.compile? source {}).isSome = true ∧
    program.registry.NoRedeclaration ∧
    ((program.run [.new "Tanker"]).get? 0).map
      (fun i => ["wheels", "seats", "doors", "volume"].map i.uint) =
        some [8, 65535, 0, 900] ∧
    (program.plan? "Tanker").map (·.warnings) = some [
      "no attribute matches initial value \"sails\" in class Tanker or its ancestors",
      "initial value \"plate\" in class Tanker targets a fixedlist attribute"] := by
  decide +kernel

end Fleet

/-- The number of wheels is from the truck, that of seats from the tanker, and that of doors from
the vehicle. -/
theorem fleet_applies : Fleet.program.AppliesInitialValues {} ∧
    ((Fleet.program.run [.new "Tanker"]).get? 0).map
      (fun i => ["wheels", "seats", "doors", "volume"].map i.uint) =
        some [8, 65535, 0, 900] ∧
    (Fleet.program.plan? "Tanker").map (·.warnings) = some [
      "no attribute matches initial value \"sails\" in class Tanker or its ancestors",
      "initial value \"plate\" in class Tanker targets a fixedlist attribute"] := by
  obtain ⟨hsome, hno, hvalues, hwarnings⟩ := Fleet.program_evaluated
  have hcompiled := Program.compiled_getD (Registry.gather_built _) hsome ⟨{}, []⟩
  exact ⟨hcompiled.applies_initialValues hno, hvalues, hwarnings⟩

end PduCompiler
