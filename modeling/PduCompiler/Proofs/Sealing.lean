import Mathlib.Data.List.Nodup
import Mathlib.Data.List.Pairwise
import PduCompiler.Proofs.Checking

/-! What is known of a registry that classes were added to one by one, and what sealing it
guarantees of every class and attribute. -/

namespace PduCompiler

namespace Registry

/-- A registry that classes were added to one by one. -/
inductive Built : Registry → Prop
  | empty : Built {}
  | add {r r' : Registry} {c : ClassDescription} (h : Built r) (hc : r.add c = .ok r') : Built r'

def gather (classes : List ClassDescription) : Registry :=
  classes.foldl (fun r c => (r.add c).toOption.getD r) {}

theorem gather_built (classes : List ClassDescription) : (gather classes).Built := by
  have hfold : ∀ r : Registry, r.Built →
      (classes.foldl (fun r c => (r.add c).toOption.getD r) r).Built := by
    induction classes with
    | nil => exact fun _ h => h
    | cons c classes ih =>
      intro r h
      refine ih _ ?_
      cases hc : r.add c with
      | error e => simpa [hc, Except.toOption] using h
      | ok r' => simpa [hc, Except.toOption] using h.add hc
  exact hfold {} .empty

def Unlinked (r : Registry) : Prop :=
  ∀ c ∈ r.classes, ∀ a ∈ c.attributes, ∀ q, a.kind = some (.primitive q) → q.countFor = ""

theorem lookup_mem {r : Registry} {name : String} {c : ClassDescription}
    (h : r.lookup name = some c) : c ∈ r.classes := List.mem_of_find?_eq_some h

theorem lookup_name {r : Registry} {name : String} {c : ClassDescription}
    (h : r.lookup name = some c) : c.name = name := by
  simpa using List.find?_some h

theorem contains_iff {r : Registry} {name : String} :
    r.contains name = true ↔ ∃ c ∈ r.classes, c.name = name := by
  simp [contains, lookup]

theorem lookup_of_mem {r : Registry} (hn : r.names.Nodup) {c : ClassDescription}
    (hc : c ∈ r.classes) : r.lookup c.name = some c := by
  obtain ⟨d, hd⟩ : ∃ d, r.lookup c.name = some d := by
    simpa [contains, Option.isSome_iff_exists] using contains_iff.mpr ⟨c, hc, rfl⟩
  have he := List.inj_on_of_nodup_map hn (lookup_mem hd) hc (lookup_name hd)
  rw [hd, he]

theorem insertByName_perm (c : ClassDescription) (l : List ClassDescription) :
    (insertByName c l).Perm (c :: l) := by
  induction l with
  | nil => exact .refl _
  | cons d rest ih =>
    by_cases h : c.name < d.name
    · simp [insertByName, h]
    · simpa [insertByName, h] using (ih.cons d).trans (.swap c d rest)

theorem add_eq_ok {r r' : Registry} {c : ClassDescription} (h : r.add c = .ok r') :
    r.isSealed = false ∧ isRoot c.name = false ∧ r.contains c.name = false ∧
      r' = { r with classes := insertByName { c with parent := c.parentName } r.classes } := by
  unfold add at h
  by_cases hs : r.isSealed = true
  · simp [hs] at h
  · by_cases hn : c.name = ""
    · simp [hs, hn] at h
    · by_cases hr : isRoot c.name = true
      · simp [hs, hn, hr] at h
      · by_cases hc : r.contains c.name = true
        · simp [hs, hn, hr, hc] at h
        · simp only [hs, hn, hr, hc, beq_iff_eq, if_neg Bool.false_ne_true, if_false,
            Except.ok.injEq] at h
          exact ⟨by simpa using hs, by simpa using hr, by simpa using hc, by simp [← h, hs]⟩

theorem Built.unsealed {r : Registry} (h : Built r) : r.isSealed = false := by
  cases h with
  | empty => rfl
  | add _ hc =>
    obtain ⟨hs, -, -, rfl⟩ := add_eq_ok hc
    exact hs

theorem Built.names_nodup {r : Registry} (h : Built r) : r.names.Nodup := by
  induction h with
  | empty => exact List.nodup_nil
  | @add r r' c _ hc ih =>
    obtain ⟨-, -, hno, rfl⟩ := add_eq_ok hc
    have hp := (insertByName_perm { c with parent := c.parentName } r.classes).map (·.name)
    refine hp.nodup_iff.mpr (List.nodup_cons.mpr ⟨?_, ih⟩)
    intro hm
    obtain ⟨d, hd, he⟩ := List.mem_map.mp hm
    rw [contains_iff.mpr ⟨d, hd, he⟩] at hno
    cases hno

theorem Built.not_root {r : Registry} (h : Built r) : ∀ c ∈ r.classes, isRoot c.name = false := by
  induction h with
  | empty => simp
  | @add r r' c _ hc ih =>
    obtain ⟨-, hr, -, rfl⟩ := add_eq_ok hc
    intro d hd
    rcases List.mem_cons.mp ((insertByName_perm _ _).mem_iff.mp hd) with rfl | hd
    · exact hr
    · exact ih d hd

def ElementSound (r : Registry) (e : Element) : Prop :=
  if e.isObject then r.contains e.className = true else e.type.isCanonical = true

theorem ElementFits.sound {r : Registry} {e : Element} (h : r.ElementFits e) :
    r.ElementSound e := by
  unfold ElementFits at h
  unfold ElementSound
  by_cases ho : e.isObject = true
  · rw [if_pos ho] at h ⊢
    exact h.2
  · rwa [if_neg ho] at h ⊢

/-- What sealing asks of an attribute, by its kind. A list has a count field in its class. -/
def KindSound (r : Registry) (c : ClassDescription) (a : Attribute) : Prop :=
  match a.kind with
  | none => False
  | some (.primitive q) => q.type.isCanonical = true
  | some (.object name) => r.contains name = true
  | some (.fixedList n e) => 0 < n ∧ r.ElementSound e
  | some (.dynamicList field e) => r.ElementSound e ∧
      ∃ b ∈ c.attributes, ∃ q, b.name = field ∧ b.kind = some (.primitive q)

theorem KindSound.ne_none {r : Registry} {c : ClassDescription} {a : Attribute}
    (h : r.KindSound c a) : a.kind ≠ none := by
  intro hn
  simp [KindSound, hn] at h

theorem CanCount.mem {c : ClassDescription} {field : String} (h : CanCount c field) :
    ∃ b ∈ c.attributes, ∃ q, b.name = field ∧ b.kind = some (.primitive q) := by
  obtain ⟨b, q, hb, hq, -⟩ := h
  exact ⟨b, List.mem_of_find?_eq_some hb, q, by simpa using List.find?_some hb, hq⟩

theorem KindFits.sound {r : Registry} {c : ClassDescription} {a : Attribute}
    (h : r.KindFits c a) : r.KindSound c a := by
  unfold KindFits at h
  unfold KindSound
  rcases hk : a.kind with _ | k
  · simp [hk] at h
  · cases k with
    | primitive q => simpa only [hk] using h
    | object name => simpa only [hk] using h
    | fixedList n e =>
      simp only [hk] at h ⊢
      exact ⟨h.1, h.2.sound⟩
    | dynamicList field e =>
      simp only [hk] at h ⊢
      exact ⟨h.1.sound, h.2.mem⟩

theorem mem_of_countedList? {attributes : List Attribute} {field name : String}
    (h : countedList? attributes field = some name) :
    ∃ l ∈ attributes, l.CountedBy field ∧ l.name = name := by
  obtain ⟨l, hl, rfl⟩ := Option.map_eq_some_iff.mp h
  refine ⟨l, by simpa using List.mem_of_find?_eq_some hl, ?_, rfl⟩
  have hp := List.find?_some hl
  cases hk : l.kind with
  | none => simp [hk] at hp
  | some k =>
    cases k with
    | dynamicList f e =>
      have hf : f = field := by simpa [hk] using hp
      exact ⟨e, by rw [hk, hf]⟩
    | _ => simp [hk] at hp

theorem countedList?_of_mem {attributes : List Attribute} {l : Attribute} {field : String}
    (hpw : attributes.Pairwise (fun a b => ∀ f, a.CountedBy f → ¬ b.CountedBy f))
    (hl : l ∈ attributes) (hf : l.CountedBy field) :
    countedList? attributes field = some l.name := by
  cases hc : countedList? attributes field with
  | none =>
    obtain ⟨e, he⟩ := hf
    have hno := List.find?_eq_none.mp (Option.map_eq_none_iff.mp hc) l (by simpa using hl)
    simp [he] at hno
  | some name =>
    obtain ⟨m, hm, hmf, rfl⟩ := mem_of_countedList? hc
    have : Std.Symm (fun a b : Attribute => ∀ f, a.CountedBy f → ¬ b.CountedBy f) :=
      ⟨fun a b hab f hb ha => hab f ha hb⟩
    by_cases heq : m = l
    · rw [heq]
    · exact (hpw.forall hm hl heq field hmf hf).elim

theorem linkAttribute_name (attributes : List Attribute) (a : Attribute) :
    (linkAttribute attributes a).name = a.name := by
  unfold linkAttribute
  split <;> rfl

theorem linkAttribute_primitive (attributes : List Attribute) {a : Attribute} {q : Primitive}
    (h : a.kind = some (.primitive q)) :
    ∃ q', (linkAttribute attributes a).kind = some (.primitive q') ∧ q'.type = q.type ∧
      q'.countFor = (countedList? attributes a.name).getD q.countFor := by
  simp [linkAttribute, h]

theorem linkAttribute_other (attributes : List Attribute) {a : Attribute}
    (h : ∀ q, a.kind ≠ some (.primitive q)) : linkAttribute attributes a = a := by
  unfold linkAttribute
  split
  · next q hq => exact (h q hq).elim
  · rfl

theorem linkAttribute_countedBy {attributes : List Attribute} {a : Attribute} {field : String} :
    (linkAttribute attributes a).CountedBy field ↔ a.CountedBy field := by
  by_cases h : ∃ q, a.kind = some (.primitive q)
  · obtain ⟨q, hq⟩ := h
    obtain ⟨q', hq', -⟩ := linkAttribute_primitive attributes hq
    simp [Attribute.CountedBy, hq, hq']
  · rw [linkAttribute_other attributes (fun q hq => h ⟨q, hq⟩)]

structure Consistent (r : Registry) : Prop where
  isSealed : r.isSealed = true
  names_nodup : r.names.Nodup
  not_root : ∀ c ∈ r.classes, isRoot c.name = false
  named : ∀ c ∈ r.classes, ∀ a ∈ c.attributes, a.name ≠ ""
  attributes_nodup : ∀ c ∈ r.classes, (c.attributes.map (·.name)).Nodup
  kinds : ∀ c ∈ r.classes, ∀ a ∈ c.attributes, r.KindSound c a
  counts : ∀ c ∈ r.classes, ∀ l ∈ c.attributes, ∀ field, l.CountedBy field →
    ∃ b ∈ c.attributes, ∃ q, b.name = field ∧ b.kind = some (.primitive q) ∧ q.countFor = l.name

theorem toSealed_eq_ok {r r' : Registry} (hb : r.Built) (h : r.toSealed = .ok r') :
    r.classes.flatMap r.checkClass = [] ∧
      r' = { classes := r.classes.map linkClass, isSealed := true } := by
  simp only [toSealed, hb.unsealed] at h
  cases hp : r.problems with
  | nil =>
    simp only [hp, if_neg Bool.false_ne_true, Except.ok.injEq] at h
    refine ⟨?_, h.symm⟩
    unfold problems at hp
    cases hf : r.classes.flatMap r.checkClass with
    | nil => rfl
    | cons e es => simp [hf] at hp
  | cons e es => simp [hp] at h

theorem linkClass_names (classes : List ClassDescription) :
    (classes.map linkClass).map (·.name) = classes.map (·.name) := by
  simp [linkClass, Function.comp_def]

theorem contains_sealed {r : Registry} (name : String) :
    (Registry.mk (r.classes.map linkClass) true).contains name = r.contains name := by
  rw [Bool.eq_iff_iff, contains_iff, contains_iff]
  simp [linkClass]

theorem ElementSound.sealed {r : Registry} {e : Element} (h : r.ElementSound e) :
    (Registry.mk (r.classes.map linkClass) true).ElementSound e := by
  unfold ElementSound at h ⊢
  rwa [contains_sealed]

theorem mem_linkClass {c : ClassDescription} {a' : Attribute} :
    a' ∈ (linkClass c).attributes ↔ ∃ a ∈ c.attributes, linkAttribute c.attributes a = a' := by
  simp [linkClass]

theorem KindSound.sealed {r : Registry} {c : ClassDescription} {a : Attribute}
    (h : r.KindSound c a) :
    (Registry.mk (r.classes.map linkClass) true).KindSound (linkClass c)
      (linkAttribute c.attributes a) := by
  cases hkind : a.kind with
  | none => simp [KindSound, hkind] at h
  | some k =>
    cases k with
    | primitive q =>
      obtain ⟨q', hq', ht, -⟩ := linkAttribute_primitive c.attributes hkind
      simpa only [KindSound, hkind, hq', ht] using h
    | object name =>
      rw [linkAttribute_other _ (by simp [hkind])]
      simpa only [KindSound, hkind, contains_sealed] using h
    | fixedList n e =>
      rw [linkAttribute_other _ (by simp [hkind])]
      simp only [KindSound, hkind] at h ⊢
      exact ⟨h.1, h.2.sealed⟩
    | dynamicList field e =>
      rw [linkAttribute_other _ (by simp [hkind])]
      simp only [KindSound, hkind] at h ⊢
      obtain ⟨he, b, hb, q, hn, hq⟩ := h
      obtain ⟨q', hq', -⟩ := linkAttribute_primitive c.attributes hq
      exact ⟨he.sealed, _, mem_linkClass.mpr ⟨b, hb, rfl⟩, q',
        by rw [linkAttribute_name, hn], hq'⟩

theorem Built.checked {r : Registry} (hb : r.Built) (h : r.classes.flatMap r.checkClass = [])
    {c : ClassDescription} (hc : c ∈ r.classes) :
    (∀ a ∈ c.attributes, a.name ≠ "" ∧ r.KindSound c a) ∧
    (c.attributes.map (·.name)).Nodup ∧
    c.attributes.Pairwise (fun a b => ∀ field, a.CountedBy field → ¬ b.CountedBy field) := by
  have hl := lookup_of_mem hb.names_nodup hc
  obtain ⟨hall, hnd, hpw⟩ := (checkAttributes_eq_nil_iff hl c.attributes [] []).mp
    (List.flatMap_eq_nil_iff.mp h c hc)
  exact ⟨fun a ha => ⟨(hall a ha).1, (hall a ha).2.2.1.sound⟩, hnd, hpw⟩

theorem Built.consistent {r r' : Registry} (hb : r.Built) (h : r.toSealed = .ok r') :
    r'.Consistent := by
  obtain ⟨hnil, rfl⟩ := toSealed_eq_ok hb h
  refine ⟨rfl, ?_, ?_, ?_, ?_, ?_, ?_⟩
  · simpa only [names, linkClass_names] using hb.names_nodup
  · rintro c' hc'
    obtain ⟨c, hc, rfl⟩ := List.mem_map.mp hc'
    exact hb.not_root c hc
  · rintro c' hc' a' ha'
    obtain ⟨c, hc, rfl⟩ := List.mem_map.mp hc'
    obtain ⟨a, ha, rfl⟩ := mem_linkClass.mp ha'
    rw [linkAttribute_name]
    exact ((hb.checked hnil hc).1 a ha).1
  · rintro c' hc'
    obtain ⟨c, hc, rfl⟩ := List.mem_map.mp hc'
    have hn : (linkClass c).attributes.map (·.name) = c.attributes.map (·.name) := by
      simp [linkClass, Function.comp_def, linkAttribute_name]
    rw [hn]
    exact (hb.checked hnil hc).2.1
  · rintro c' hc' a' ha'
    obtain ⟨c, hc, rfl⟩ := List.mem_map.mp hc'
    obtain ⟨a, ha, rfl⟩ := mem_linkClass.mp ha'
    exact ((hb.checked hnil hc).1 a ha).2.sealed
  · rintro c' hc' l' hl' field hf
    obtain ⟨c, hc, rfl⟩ := List.mem_map.mp hc'
    obtain ⟨l, hl, rfl⟩ := mem_linkClass.mp hl'
    have hf := linkAttribute_countedBy.mp hf
    obtain ⟨hall, -, hpw⟩ := hb.checked hnil hc
    obtain ⟨b, hb, q, rfl, hq⟩ : ∃ b ∈ c.attributes, ∃ q, b.name = field ∧
        b.kind = some (.primitive q) := by
      obtain ⟨e, he⟩ := hf
      have hk := (hall l hl).2
      simp only [KindSound, he] at hk
      exact hk.2
    have hcount := countedList?_of_mem hpw hl hf
    obtain ⟨q', hq', -, hq''⟩ := linkAttribute_primitive c.attributes hq
    exact ⟨_, mem_linkClass.mpr ⟨b, hb, rfl⟩, q', linkAttribute_name _ _, hq',
      by rw [hq'', hcount, linkAttribute_name, Option.getD_some]⟩

theorem Built.links {r r' : Registry} (hb : r.Built) (hu : r.Unlinked)
    (h : r.toSealed = .ok r') {c : ClassDescription} (hc : c ∈ r'.classes) {b : Attribute}
    (hbc : b ∈ c.attributes) {q : Primitive} (hq : b.kind = some (.primitive q))
    (hne : q.countFor ≠ "") : ∃ l ∈ c.attributes, l.CountedBy b.name ∧ l.name = q.countFor := by
  obtain ⟨-, rfl⟩ := toSealed_eq_ok hb h
  obtain ⟨d, hd, rfl⟩ := List.mem_map.mp hc
  obtain ⟨a, ha, rfl⟩ := mem_linkClass.mp hbc
  by_cases hk : ∃ q₀, a.kind = some (.primitive q₀)
  · obtain ⟨q₀, hq₀⟩ := hk
    obtain ⟨q', hq', -, hcount⟩ := linkAttribute_primitive d.attributes hq₀
    cases hq.symm.trans hq'
    rw [hu d hd a ha q₀ hq₀] at hcount
    cases hcl : countedList? d.attributes a.name with
    | none => simp [hcl] at hcount; exact (hne hcount).elim
    | some name =>
      obtain ⟨l, hl, hlf, rfl⟩ := mem_of_countedList? hcl
      refine ⟨linkAttribute d.attributes l, mem_linkClass.mpr ⟨l, hl, rfl⟩, ?_, ?_⟩
      · rw [linkAttribute_name]
        exact linkAttribute_countedBy.mpr hlf
      · rw [linkAttribute_name, hcount, hcl, Option.getD_some]
  · rw [linkAttribute_other _ (fun q hq => hk ⟨q, hq⟩)] at hq
    exact (hk ⟨q, hq⟩).elim

end Registry

end PduCompiler
