import Mathlib.Data.List.Nodup
import Mathlib.Data.List.Pairwise
import PduCompiler.Registry.Seal

/-! What the checks of a single class let pass. A check finds nothing wrong exactly with a
description that has the property it looks for; attributes are checked in order, with the names and
the count fields that came before. -/

namespace PduCompiler

def Attribute.CountedBy (a : Attribute) (field : String) : Prop :=
  ∃ e, a.kind = some (.dynamicList field e)

theorem Attribute.primitive?_eq_some {a : Attribute} {q : Primitive} :
    a.primitive? = some q ↔ a.kind = some (.primitive q) := by
  unfold Attribute.primitive?
  rcases a.kind with _ | k
  · simp
  · cases k <;> simp [Kind.primitive?]

namespace Registry

variable {r : Registry} {c : ClassDescription}

/-- What a list may hold: objects of a registered class, or values of a canonical type. -/
def ElementFits (r : Registry) (e : Element) : Prop :=
  if e.isObject then e.type = "" ∧ r.contains e.className = true else e.type.isCanonical = true

theorem checkElement_eq_nil_iff {name a : String} {e : Element} :
    r.checkElement name a e = [] ↔ r.ElementFits e := by
  unfold checkElement ElementFits
  by_cases ho : e.isObject = true
  · by_cases ht : e.type = ""
    · simp [ho, ht, checkClassName]
    · simp [ho, ht]
  · simp [ho]

def CanCount (c : ClassDescription) (field : String) : Prop :=
  ∃ b q, c.attribute? field = some b ∧ b.kind = some (.primitive q) ∧ q.type.isFloat = false

theorem countField_eq_ok_iff (hc : r.lookup c.name = some c) {field : String} {b : Attribute}
    {q : Primitive} : r.countField c.name field = .ok (b, q) ↔
      c.attribute? field = some b ∧ b.kind = some (.primitive q) := by
  simp only [countField, hc]
  cases ha : c.attribute? field with
  | none => simp
  | some a =>
    cases hq : a.primitive? with
    | none =>
      have hno : ∀ q, a.kind ≠ some (.primitive q) := by
        intro q hk
        simp [Attribute.primitive?_eq_some.mpr hk] at hq
      simp only [hq, reduceCtorEq, Option.some.injEq, false_iff, not_and]
      rintro rfl
      exact hno q
    | some p =>
      have hk := Attribute.primitive?_eq_some.mp hq
      simp only [hq, Except.ok.injEq, Prod.mk.injEq, Option.some.injEq]
      constructor
      · rintro ⟨rfl, rfl⟩
        exact ⟨rfl, hk⟩
      · rintro ⟨rfl, hk'⟩
        rw [hk, Option.some.injEq, Kind.primitive.injEq] at hk'
        exact ⟨rfl, hk'⟩

theorem checkDynamicList_eq_nil_iff (hc : r.lookup c.name = some c) {a field : String}
    {e : Element} {counted : Table String} :
    (r.checkDynamicList c.name a field e counted).1 = [] ↔
      r.ElementFits e ∧ CanCount c field ∧ counted.get? field = none := by
  unfold checkDynamicList
  cases hf : r.countField c.name field with
  | error cause =>
    have hno : ¬ CanCount c field := by
      rintro ⟨b, q, hb, hq, -⟩
      rw [(countField_eq_ok_iff hc).mpr ⟨hb, hq⟩] at hf
      cases hf
    simp [hno]
  | ok bq =>
    obtain ⟨b, q⟩ := bq
    obtain ⟨hb, hq⟩ := (countField_eq_ok_iff hc).mp hf
    have hcan : CanCount c field ↔ q.type.isFloat = false := by
      simp [CanCount, hb, hq]
    rw [hcan, ← @checkElement_eq_nil_iff r c.name a]
    simp

theorem checkDynamicList_counted (hc : r.lookup c.name = some c) {a field : String} {e : Element}
    {counted : Table String} (h : CanCount c field) :
    (r.checkDynamicList c.name a field e counted).2 = counted.set field a := by
  obtain ⟨b, q, hb, hq, -⟩ := h
  rw [checkDynamicList, (countField_eq_ok_iff hc).mpr ⟨hb, hq⟩]

def KindFits (r : Registry) (c : ClassDescription) (a : Attribute) : Prop :=
  match a.kind with
  | none => False
  | some (.primitive q) => q.type.isCanonical = true
  | some (.object name) => r.contains name = true
  | some (.fixedList n e) => 0 < n ∧ r.ElementFits e
  | some (.dynamicList field e) => r.ElementFits e ∧ CanCount c field

def countedWith (counted : Table String) (a : Attribute) : Table String :=
  match a.kind with
  | some (.dynamicList field _) => counted.set field a.name
  | _ => counted

theorem countedWith_eq_none_iff {counted : Table String} {a : Attribute} {field : String} :
    (countedWith counted a).get? field = none ↔
      counted.get? field = none ∧ ¬ a.CountedBy field := by
  unfold countedWith Attribute.CountedBy
  rcases a.kind with _ | k
  · simp
  · cases k with
    | dynamicList f e =>
      rw [Table.get?_set]
      by_cases hf : field = f
      · simp [hf]
      · simp [hf, Ne.symm hf]
    | _ => simp

theorem checkAttributes_cons_eq_nil_iff (hc : r.lookup c.name = some c) {a : Attribute}
    {rest : List Attribute} {seen : List String} {counted : Table String} :
    r.checkAttributes c.name seen counted (a :: rest) = [] ↔
      a.name ≠ "" ∧ a.name ∉ seen ∧ r.KindFits c a ∧
      (∀ field, a.CountedBy field → counted.get? field = none) ∧
      r.checkAttributes c.name (a.name :: seen) (countedWith counted a) rest = [] := by
  by_cases hn : a.name = ""
  · simp [checkAttributes, hn]
  have hseen : (if seen.contains a.name then [SealError.duplicateAttribute c.name a.name]
      else []) = [] ↔ a.name ∉ seen := by
    simp
  simp only [checkAttributes, beq_iff_eq, hn, if_false, List.append_eq_nil_iff, hseen,
    KindFits, countedWith, Attribute.CountedBy, ne_eq, not_false_eq_true, true_and, and_assoc]
  refine and_congr_right fun _ => ?_
  rcases a.kind with _ | k
  · simp
  · cases k with
    | primitive q => simp
    | object name => simp [checkClassName]
    | fixedList n e => simp [checkElement_eq_nil_iff, and_assoc]
    | dynamicList field e =>
      simp only [checkDynamicList_eq_nil_iff hc, and_assoc, Option.some.injEq,
        Kind.dynamicList.injEq, exists_eq_right']
      refine and_congr_right fun _ => and_congr_right fun hcan => ?_
      rw [checkDynamicList_counted hc hcan]
      simp

/-- Attributes pass if each does by itself, their names are new and distinct, and no two of the lists
among them, or one of them and a list before, share a count field. -/
theorem checkAttributes_eq_nil_iff (hc : r.lookup c.name = some c) (attributes : List Attribute)
    (seen : List String) (counted : Table String) :
    r.checkAttributes c.name seen counted attributes = [] ↔
      (∀ a ∈ attributes, a.name ≠ "" ∧ a.name ∉ seen ∧ r.KindFits c a ∧
        ∀ field, a.CountedBy field → counted.get? field = none) ∧
      (attributes.map (·.name)).Nodup ∧
      attributes.Pairwise (fun a b => ∀ field, a.CountedBy field → ¬ b.CountedBy field) := by
  induction attributes generalizing seen counted with
  | nil => simp [checkAttributes]
  | cons a rest ih =>
    rw [checkAttributes_cons_eq_nil_iff hc, ih]
    simp only [countedWith_eq_none_iff, List.map_cons, List.nodup_cons, List.pairwise_cons,
      List.mem_cons, forall_eq_or_imp, List.mem_map, not_or, not_exists, not_and]
    constructor
    · rintro ⟨hn, hs, hk, hcount, hall, hnd, hpw⟩
      refine ⟨⟨⟨hn, hs, hk, hcount⟩, fun b hb => ?_⟩, ⟨fun b hb => (hall b hb).2.1.1, hnd⟩, ?_, hpw⟩
      · obtain ⟨hbn, ⟨-, hbs⟩, hbk, hbc⟩ := hall b hb
        exact ⟨hbn, hbs, hbk, fun field hf => (hbc field hf).1⟩
      · exact fun b hb field ha hbf => ((hall b hb).2.2.2 field hbf).2 ha
    · rintro ⟨⟨⟨hn, hs, hk, hcount⟩, hall⟩, ⟨hnew, hnd⟩, hshare, hpw⟩
      refine ⟨hn, hs, hk, hcount, fun b hb => ?_, hnd, hpw⟩
      obtain ⟨hbn, hbs, hbk, hbc⟩ := hall b hb
      exact ⟨hbn, ⟨hnew b hb, hbs⟩, hbk, fun field hf =>
        ⟨hbc field hf, fun ha => hshare b hb field ha hf⟩⟩

end Registry

end PduCompiler
