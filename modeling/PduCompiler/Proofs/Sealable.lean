import PduCompiler.Proofs.Embedding
import PduCompiler.Proofs.Placement

/-! Sealing accepts the registries that are consistent and no others: every class is well described
and none holds itself. In the registry that it makes, count fields and lists belong to each other one
to one. -/

namespace PduCompiler

theorem TypeName.isCanonical_iff {t : TypeName} :
    t.isCanonical = true ↔ ∃ s : Scalar, s.name = t := by
  rw [TypeName.isCanonical, TypeName.scalar?, Option.isSome_iff_exists]
  constructor
  · rintro ⟨s, hs⟩
    exact ⟨s, Scalar.name_of_ofName? hs⟩
  · rintro ⟨s, rfl⟩
    exact ⟨s, Scalar.ofName?_name s⟩

def Attribute.Embeds (a : Attribute) (name : String) : Prop :=
  a.kind = some (.object name) ∨
    ∃ n e, a.kind = some (.fixedList n e) ∧ e.className = name ∧ name ≠ ""

theorem ClassDescription.attribute?_of_mem {c : ClassDescription}
    (hnd : (c.attributes.map (·.name)).Nodup) {b : Attribute} (hb : b ∈ c.attributes) :
    c.attribute? b.name = some b := by
  cases hf : c.attribute? b.name with
  | none =>
    have hno := List.find?_eq_none.mp hf b hb
    simp at hno
  | some d =>
    have hd : d.name = b.name := by simpa using List.find?_some hf
    rw [List.inj_on_of_nodup_map hnd (List.mem_of_find?_eq_some hf) hb hd]

def Attribute.bare (a : Attribute) : Attribute :=
  match a.kind with
  | some (.primitive q) =>
    { a with kind := some (.primitive { q with
        countFor := "", bitFields := q.bitFields.map fun b => { b with owner := "" } }) }
  | _ => a

def ClassDescription.bare (c : ClassDescription) : ClassDescription :=
  { c with attributes := c.attributes.map Attribute.bare }

namespace Registry

open Relation

variable {r : Registry} {c : ClassDescription}

theorem embedded?_eq_some {a : Attribute} {name : String} :
    embedded? a = some name ↔ a.Embeds name := by
  unfold embedded? Attribute.Embeds
  rcases a.kind with _ | k
  · simp
  · cases k with
    | object n => simp
    | fixedList n e =>
      by_cases ho : e.className = ""
      · simp [Element.isObject, ho]
      · simp only [Element.isObject, bne_iff_ne, ne_eq, ho, not_false_eq_true, if_true,
          Option.some.injEq, reduceCtorEq, Kind.fixedList.injEq, false_or]
        constructor
        · rintro rfl
          exact ⟨n, e, ⟨rfl, rfl⟩, rfl, ho⟩
        · rintro ⟨n', e', ⟨rfl, rfl⟩, he, -⟩
          exact he
    | _ => simp

theorem ancestorsFrom_succ (r : Registry) (fuel : Nat) (seen : List String)
    (c : ClassDescription) :
    (∃ p, c.hasParent = true ∧ c.parent ∉ seen ∧ r.lookup c.parent = some p ∧
      r.ancestorsFrom (fuel + 1) seen c = p :: r.ancestorsFrom fuel (c.parent :: seen) p) ∨
    ((c.hasParent = true → c.parent ∉ seen → r.lookup c.parent = none) ∧
      r.ancestorsFrom (fuel + 1) seen c = []) := by
  cases hp : c.hasParent with
  | false => exact .inr ⟨by simp, by simp [ancestorsFrom, hp]⟩
  | true =>
    by_cases hs : c.parent ∈ seen
    · exact .inr ⟨fun _ h => (h hs).elim, by simp [ancestorsFrom, hs]⟩
    · cases hl : r.lookup c.parent with
      | none => exact .inr ⟨fun _ _ => rfl, by simp [ancestorsFrom, hl]⟩
      | some p => exact .inl ⟨p, rfl, hs, rfl, by simp [ancestorsFrom, hp, hs, hl]⟩

theorem unseen_lt {seen : List String} {name : String} (hname : name ∈ r.names)
    (hs : name ∉ seen) : (r.names.filter (!(name :: seen).contains ·)).length <
      (r.names.filter (!seen.contains ·)).length := by
  have hsplit : r.names.filter (!(name :: seen).contains ·) =
      (r.names.filter (!seen.contains ·)).filter (· != name) := by
    rw [List.filter_filter]
    refine List.filter_congr fun n _ => ?_
    by_cases he : n = name <;> simp [he]
  have hmem : name ∈ r.names.filter (!seen.contains ·) :=
    List.mem_filter.mpr ⟨hname, by simpa using hs⟩
  rw [hsplit]
  exact List.length_filter_lt_length_iff_exists.mpr ⟨name, hmem, by simp⟩

/-- Going up from a class, nothing is left out: a parent of what is found is found, or was seen
before. -/
theorem ancestorsFrom_closed (hn : r.names.Nodup) (fuel : Nat) (seen : List String)
    (c : ClassDescription) (hfuel : (r.names.filter (!seen.contains ·)).length ≤ fuel)
    {x y : ClassDescription} (hx : x ∈ c :: r.ancestorsFrom fuel seen c) (hxy : r.Climbs x y) :
    y ∈ c :: r.ancestorsFrom fuel seen c ∨ y.name ∈ seen := by
  obtain ⟨hp, hl⟩ := (climbs_iff hn).mp hxy
  have hname := lookup_name hl
  induction fuel generalizing seen c with
  | zero =>
    have hnil := List.length_eq_zero_iff.mp (Nat.le_zero.mp hfuel)
    have hin := List.filter_eq_nil_iff.mp hnil y.name (List.mem_map_of_mem hxy.2.1)
    exact .inr (by simpa using hin)
  | succ fuel ih =>
    rcases ancestorsFrom_succ r fuel seen c with ⟨p, -, hs, hlp, heq⟩ | ⟨hstop, heq⟩
    · rw [heq] at hx ⊢
      have hpn := lookup_name hlp
      rcases List.mem_cons.mp hx with rfl | hx
      · rw [Option.some.inj (hl.symm.trans hlp)]
        exact .inl (by simp)
      · have hless := unseen_lt (List.mem_map.mpr ⟨p, lookup_mem hlp, hpn⟩) hs
        rcases ih (c.parent :: seen) p (by omega) hx with hfound | hfound
        · exact .inl (List.mem_cons_of_mem _ hfound)
        · rcases List.mem_cons.mp hfound with he | hfound
          · have hyp := List.inj_on_of_nodup_map hn hxy.2.1 (lookup_mem hlp) (he.trans hpn.symm)
            rw [hyp]
            exact .inl (by simp)
          · exact .inr hfound
    · rw [heq] at hx
      rw [List.mem_singleton.mp hx] at hp hl hname
      right
      by_contra hs
      rw [hstop hp (hname ▸ hs)] at hl
      cases hl

theorem ancestorsFrom_climbs (hn : r.names.Nodup) (fuel : Nat) (seen : List String)
    (c : ClassDescription) {q : ClassDescription} (h : q ∈ r.ancestorsFrom fuel seen c) :
    ReflTransGen r.Climbs c q := by
  induction fuel generalizing seen c with
  | zero => simp [ancestorsFrom] at h
  | succ fuel ih =>
    rcases ancestorsFrom_succ r fuel seen c with ⟨p, hp, -, hl, heq⟩ | ⟨-, heq⟩
    · have hstep : r.Climbs c p := (climbs_iff hn).mpr ⟨hp, hl⟩
      rw [heq] at h
      rcases List.mem_cons.mp h with rfl | h
      · exact .single hstep
      · exact .head hstep (ih _ p h)
    · simp [heq] at h

/-- The chain of a class is what can be reached by going up, also where inheritance is cyclic. -/
theorem mem_chain_iff (hn : r.names.Nodup) (hc : c ∈ r.classes) {q : ClassDescription} :
    q ∈ r.chain c.name ↔ ReflTransGen r.Climbs c q := by
  have hchain : r.chain c.name = c :: r.ancestorsFrom r.classes.length [c.name] c := by
    simp [chain, ancestors, lookup_of_mem hn hc]
  rw [hchain]
  constructor
  · intro h
    rcases List.mem_cons.mp h with rfl | h
    · exact .refl
    · exact ancestorsFrom_climbs hn _ _ c h
  · intro h
    induction h with
    | refl => exact List.mem_cons_self
    | @tail x y _ hxy ih =>
      have hfuel : (r.names.filter (fun name => !([c.name].contains name))).length ≤ r.classes.length := by
        have hle := List.length_filter_le (fun name => !([c.name].contains name)) r.names
        rwa [names, List.length_map] at hle
      rcases ancestorsFrom_closed hn _ _ c hfuel ih hxy with hy | hy
      · exact hy
      · rw [List.inj_on_of_nodup_map hn hxy.2.1 hc (List.mem_singleton.mp hy)]
        exact List.mem_cons_self

/-- An attribute of a class, its own or inherited, has objects of another class inside. -/
def Holds (r : Registry) (name inner : String) : Prop :=
  ∃ c ∈ r.classes, c.name = name ∧
    ∃ q, ReflTransGen r.Climbs c q ∧ ∃ a ∈ q.attributes, a.Embeds inner

theorem embeds_eq_holds (hn : r.names.Nodup) : r.Embeds = r.Holds := by
  funext name inner
  have hmem : ∀ q : ClassDescription, inner ∈ q.attributes.filterMap embedded? ↔
      ∃ a ∈ q.attributes, a.Embeds inner := by
    intro q
    simp only [List.mem_filterMap, embedded?_eq_some]
  simp only [Embeds, embeds, List.mem_flatMap, hmem, eq_iff_iff]
  constructor
  · rintro ⟨q, hq, ha⟩
    cases hl : r.lookup name with
    | none => simp [chain, ancestors, hl] at hq
    | some c =>
      have hname := lookup_name hl
      rw [← hname] at hq
      exact ⟨c, lookup_mem hl, hname, q, (mem_chain_iff hn (lookup_mem hl)).mp hq, ha⟩
  · rintro ⟨c, hc, rfl, q, hq, ha⟩
    exact ⟨q, (mem_chain_iff hn hc).mpr hq, ha⟩

def HoldsNoSelf (r : Registry) : Prop := ∀ c ∈ r.classes, ¬ TransGen r.Holds c.name c.name

theorem holdsNoSelf_of_ends (hn : r.names.Nodup) (h : ∀ name ∈ r.names, r.Ends name) :
    r.HoldsNoSelf := by
  intro c hc
  rw [← embeds_eq_holds hn]
  exact (h c.name (List.mem_map_of_mem hc)).acyclic

theorem HoldsNoSelf.no_cycles (hn : r.names.Nodup)
    (hnames : ∀ name inner, r.Embeds name inner → inner ∈ r.names) (h : r.HoldsNoSelf) :
    r.embeddingCycles = [] := by
  refine List.eq_nil_iff_forall_not_mem.mpr fun cycle hcycle => ?_
  obtain ⟨hchain, front, name, rfl, hname⟩ := (embeddingCycles_rounds hnames).closes hcycle
  have hself := transGen_of_closed hchain hname
  rw [embeds_eq_holds hn] at hself
  obtain ⟨y, ⟨c, hc, rfl, -⟩, -⟩ := TransGen.head'_iff.mp hself
  exact h c hc hself

structure WellDescribed (r : Registry) (c : ClassDescription) : Prop where
  named : ∀ a ∈ c.attributes, a.name ≠ ""
  distinct : (c.attributes.map (·.name)).Nodup
  kinds : ∀ a ∈ c.attributes, a.kind ≠ none
  types : ∀ a ∈ c.attributes, ∀ q, a.kind = some (.primitive q) → ∃ s : Scalar, s.name = q.type
  objects : ∀ a ∈ c.attributes, ∀ name, a.kind = some (.object name) → name ∈ r.names
  elementTypes : ∀ a ∈ c.attributes, ∀ e, a.kind.bind Kind.element? = some e →
    e.className = "" → ∃ s : Scalar, s.name = e.type
  elementClasses : ∀ a ∈ c.attributes, ∀ e, a.kind.bind Kind.element? = some e →
    e.className ≠ "" → e.type = "" ∧ e.className ∈ r.names
  lengths : ∀ a ∈ c.attributes, ∀ n e, a.kind = some (.fixedList n e) → 0 < n
  counts : ∀ l ∈ c.attributes, ∀ field, l.CountedBy field → ∃ a ∈ c.attributes, a.name = field ∧
    ∃ q, a.kind = some (.primitive q) ∧ q.type.isFloat = false
  unshared : ∀ l ∈ c.attributes, ∀ m ∈ c.attributes, ∀ field, l.CountedBy field →
    m.CountedBy field → l = m

theorem contains_iff_mem_names {name : String} : r.contains name = true ↔ name ∈ r.names := by
  rw [contains_iff, names, List.mem_map]

theorem elementFits_iff {e : Element} : r.ElementFits e ↔
    (e.className = "" → ∃ s : Scalar, s.name = e.type) ∧
    (e.className ≠ "" → e.type = "" ∧ e.className ∈ r.names) := by
  unfold ElementFits
  by_cases ho : e.className = ""
  · simp [Element.isObject, ho, TypeName.isCanonical_iff]
  · simp [Element.isObject, ho, contains_iff_mem_names]

theorem canCount_iff (hnd : (c.attributes.map (·.name)).Nodup) {field : String} :
    CanCount c field ↔ ∃ a ∈ c.attributes, a.name = field ∧
      ∃ q, a.kind = some (.primitive q) ∧ q.type.isFloat = false := by
  constructor
  · rintro ⟨a, q, ha, hq, hfloat⟩
    exact ⟨a, List.mem_of_find?_eq_some ha, by simpa using List.find?_some ha, q, hq, hfloat⟩
  · rintro ⟨a, ha, rfl, q, hq, hfloat⟩
    exact ⟨a, q, ClassDescription.attribute?_of_mem hnd ha, hq, hfloat⟩

theorem WellDescribed.fits (h : r.WellDescribed c) {a : Attribute} (ha : a ∈ c.attributes) :
    r.KindFits c a := by
  have hsome := h.kinds a ha
  unfold KindFits
  rcases hk : a.kind with _ | k
  · exact hsome hk
  · cases k with
    | primitive q => exact TypeName.isCanonical_iff.mpr (h.types a ha q hk)
    | object name => exact contains_iff_mem_names.mpr (h.objects a ha name hk)
    | fixedList n e =>
      have helem : a.kind.bind Kind.element? = some e := by simp [hk, Kind.element?]
      exact ⟨h.lengths a ha n e hk,
        elementFits_iff.mpr ⟨h.elementTypes a ha e helem, h.elementClasses a ha e helem⟩⟩
    | dynamicList field e =>
      have helem : a.kind.bind Kind.element? = some e := by simp [hk, Kind.element?]
      exact ⟨elementFits_iff.mpr ⟨h.elementTypes a ha e helem, h.elementClasses a ha e helem⟩,
        (canCount_iff h.distinct).mpr (h.counts a ha field ⟨e, hk⟩)⟩

theorem KindFits.element {a : Attribute} (h : r.KindFits c a) {e : Element}
    (he : a.kind.bind Kind.element? = some e) : r.ElementFits e := by
  unfold KindFits at h
  rcases hk : a.kind with _ | k
  · simp [hk] at h
  · cases k with
    | fixedList n e' =>
      simp only [hk, Option.bind_some, Kind.element?, Option.some.injEq] at h he
      exact he ▸ h.2
    | dynamicList field e' =>
      simp only [hk, Option.bind_some, Kind.element?, Option.some.injEq] at h he
      exact he ▸ h.1
    | _ => simp [hk, Kind.element?] at he

theorem checkClass_eq_nil_iff (hc : r.lookup c.name = some c) :
    r.checkClass c = [] ↔ r.WellDescribed c := by
  rw [checkClass, checkAttributes_eq_nil_iff hc]
  constructor
  · rintro ⟨hall, hnd, hpw⟩
    have hfits : ∀ a ∈ c.attributes, r.KindFits c a := fun a ha => (hall a ha).2.2.1
    have hsymm : Std.Symm (fun a b : Attribute => ∀ f, a.CountedBy f → ¬ b.CountedBy f) :=
      ⟨fun a b hab f hb ha => hab f ha hb⟩
    refine ⟨fun a ha => (hall a ha).1, hnd, fun a ha => (hfits a ha).sound.ne_none, ?_, ?_, ?_, ?_,
      ?_, ?_, ?_⟩
    · intro a ha q hk
      have h := hfits a ha
      simp only [KindFits, hk] at h
      exact TypeName.isCanonical_iff.mp h
    · intro a ha name hk
      have h := hfits a ha
      simp only [KindFits, hk] at h
      exact contains_iff_mem_names.mp h
    · exact fun a ha e he => (elementFits_iff.mp ((hfits a ha).element he)).1
    · exact fun a ha e he => (elementFits_iff.mp ((hfits a ha).element he)).2
    · intro a ha n e hk
      have h := hfits a ha
      simp only [KindFits, hk] at h
      exact h.1
    · rintro l hl field ⟨e, hk⟩
      have h := hfits l hl
      simp only [KindFits, hk] at h
      exact (canCount_iff hnd).mp h.2
    · intro l hl m hm field hlf hmf
      by_contra hne
      exact hpw.forall hl hm hne field hlf hmf
  · intro h
    refine ⟨fun a ha => ⟨h.named a ha, by simp, h.fits ha, by simp [Table.get?]⟩, h.distinct, ?_⟩
    refine (List.Nodup.of_map _ h.distinct).pairwise_of_forall_ne fun l hl m hm hne field hlf hmf => ?_
    exact hne (h.unshared l hl m hm field hlf hmf)

theorem Built.toSealed_ok_iff (hb : r.Built) : (∃ r', r.toSealed = .ok r') ↔
    r.classes.flatMap r.checkClass = [] ∧ r.embeddingCycles = [] := by
  constructor
  · rintro ⟨r', h⟩
    exact ⟨(toSealed_eq_ok hb h).1, toSealed_cycles hb h⟩
  · rintro ⟨hchecked, hcycles⟩
    have hproblems : r.problems = [] := by
      rw [problems, hchecked, hcycles]
      rfl
    exact ⟨_, by rw [toSealed, hb.unsealed, hproblems]; rfl⟩

theorem Built.sealable_iff (hb : r.Built) : (∃ r', r.toSealed = .ok r') ↔
    (∀ c ∈ r.classes, r.WellDescribed c) ∧ r.HoldsNoSelf := by
  have hn := hb.names_nodup
  have hclasses : r.classes.flatMap r.checkClass = [] ↔ ∀ c ∈ r.classes, r.WellDescribed c := by
    rw [List.flatMap_eq_nil_iff]
    exact forall₂_congr fun c hc => checkClass_eq_nil_iff (lookup_of_mem hn hc)
  rw [hb.toSealed_ok_iff, ← hclasses]
  refine and_congr_right fun hchecked => ?_
  have hnames : ∀ name inner, r.Embeds name inner → inner ∈ r.names :=
    fun _ _ => hb.embeds_mem hchecked
  exact ⟨fun h => holdsNoSelf_of_ends hn (ends_of_no_cycles hnames h), fun h => h.no_cycles hn hnames⟩

theorem linkAttribute_bare (attributes : List Attribute) (a : Attribute) :
    (linkAttribute attributes a).bare = a.bare := by
  by_cases h : ∃ q, a.kind = some (.primitive q)
  · obtain ⟨q, hq⟩ := h
    simp [linkAttribute, Attribute.bare, hq, Function.comp_def]
  · rw [linkAttribute_other attributes fun q hq => h ⟨q, hq⟩]

theorem linkClass_bare (c : ClassDescription) : (linkClass c).bare = c.bare := by
  simp [linkClass, ClassDescription.bare, linkAttribute_bare]

theorem linkAttribute_owner {attributes : List Attribute} {a : Attribute} {q : Primitive}
    (h : (linkAttribute attributes a).kind = some (.primitive q)) :
    ∀ b ∈ q.bitFields, b.owner = a.name := by
  by_cases hk : ∃ q₀, a.kind = some (.primitive q₀)
  · obtain ⟨q₀, hq₀⟩ := hk
    simp only [linkAttribute, hq₀, Option.some.injEq, Kind.primitive.injEq] at h
    intro b hb
    rw [← h] at hb
    obtain ⟨b₀, -, rfl⟩ := List.mem_map.mp hb
    rfl
  · rw [linkAttribute_other attributes fun q hq => hk ⟨q, hq⟩] at h
    exact (hk ⟨q, h⟩).elim

/-- Count fields, lists and bit fields know what they belong to. -/
structure Tied (r : Registry) : Prop where
  counts : ∀ c ∈ r.classes, ∀ a ∈ c.attributes, ∀ l ∈ c.attributes,
    (∃ q, a.kind = some (.primitive q) ∧ q.countFor = l.name) ↔ l.CountedBy a.name
  counted : ∀ c ∈ r.classes, ∀ a ∈ c.attributes, ∀ q, a.kind = some (.primitive q) →
    q.countFor ≠ "" → ∃ l ∈ c.attributes, l.name = q.countFor
  owners : ∀ c ∈ r.classes, ∀ a ∈ c.attributes, ∀ q, a.kind = some (.primitive q) →
    ∀ b ∈ q.bitFields, b.owner = a.name

theorem Built.tied {r' : Registry} (hb : r.Built) (hu : r.Unlinked) (h : r.toSealed = .ok r') :
    r'.Tied := by
  have hs := hb.consistent h
  refine ⟨fun c hc a ha l hl => ⟨?_, fun hcount => ?_⟩, ?_, ?_⟩
  · rintro ⟨q, hq, hfor⟩
    obtain ⟨m, hm, hma, hname⟩ := hb.links hu h hc ha hq (hfor ▸ hs.named c hc l hl)
    have hml := List.inj_on_of_nodup_map (hs.attributes_nodup c hc) hm hl (hname.trans hfor)
    exact hml ▸ hma
  · obtain ⟨b, hb', q, hname, hq, hfor⟩ := hs.counts c hc l hl a.name hcount
    have hba := List.inj_on_of_nodup_map (hs.attributes_nodup c hc) hb' ha hname
    exact ⟨q, hba ▸ hq, hfor⟩
  · intro c hc a ha q hq hne
    obtain ⟨l, hl, -, hname⟩ := hb.links hu h hc ha hq hne
    exact ⟨l, hl, hname⟩
  · intro c hc a ha q hq
    obtain ⟨-, rfl⟩ := toSealed_eq_ok hb h
    obtain ⟨d, -, rfl⟩ := List.mem_map.mp hc
    obtain ⟨a₀, -, rfl⟩ := mem_linkClass.mp ha
    rw [linkAttribute_name]
    exact linkAttribute_owner hq

/-- Sealing succeeds just on what is consistent, ties what belongs together and changes nothing
else. -/
theorem Built.seals_exactly (hb : r.Built) (hu : r.Unlinked) :
    ((∃ r', r.toSealed = .ok r') ↔ (∀ c ∈ r.classes, r.WellDescribed c) ∧ r.HoldsNoSelf) ∧
    ∀ r', r.toSealed = .ok r' → r'.isSealed = true ∧ r'.Tied ∧
      r'.classes.map ClassDescription.bare = r.classes.map ClassDescription.bare := by
  refine ⟨hb.sealable_iff, fun r' h => ⟨(hb.consistent h).isSealed, hb.tied hu h, ?_⟩⟩
  obtain ⟨-, rfl⟩ := toSealed_eq_ok hb h
  simp [Function.comp_def, linkClass_bare]

def convoy : Registry := .gather [
  { name := "Truck", parent := "Vehicle", attributes := [
      { name := "loads", kind := some (.primitive { type := "uint8" }) },
      { name := "wheels", kind := some (.fixedList 4 { className := "Wheel" }) },
      { name := "trailers", kind := some (.dynamicList "loads" { className := "Truck" }) }] },
  { name := "Vehicle", parent := "ROOT", attributes := [
      { name := "flags", kind := some (.primitive
          { type := "uint16", bitFields := [{ name := "moving", mask := "0x01" }] }) },
      { name := "engine", kind := some (.object "Engine") }] },
  { name := "Wheel", attributes := [
      { name := "pressure", kind := some (.primitive { type := "float32" }) }] },
  { name := "Engine", attributes := [
      { name := "power", kind := some (.fixedList 2 { type := "int32" }) }] }]

def hoop : Registry := .gather [
  { name := "Outer", attributes := [{ name := "inner", kind := some (.object "Inner") }] },
  { name := "Inner", parent := "Base" },
  { name := "Base", attributes := [
      { name := "back", kind := some (.fixedList 2 { className := "Outer" }) }] }]

theorem convoy_evaluated :
    (convoy.classes.all fun c => c.attributes.all fun a => a.primitive?.all (·.countFor == "")) = true ∧
    convoy.toSealed.toOption.isSome = true ∧
    (hoop.classes.all fun c => c.attributes.all fun a => a.primitive?.all (·.countFor == "")) = true ∧
    hoop.toSealed.toOption = none := by
  decide +kernel

theorem unlinked_of_all (h : (r.classes.all fun c => c.attributes.all fun a =>
    a.primitive?.all (·.countFor == "")) = true) : r.Unlinked := by
  intro c hc a ha q hq
  have hall := List.all_eq_true.mp (List.all_eq_true.mp h c hc) a ha
  simpa [Attribute.primitive?_eq_some.mpr hq] using hall

theorem convoy_seals :
    (convoy.Built ∧ convoy.Unlinked ∧ ∃ r', convoy.toSealed = .ok r' ∧ r'.Tied) ∧
    hoop.Built ∧ hoop.Unlinked ∧
      ¬ ((∀ c ∈ hoop.classes, hoop.WellDescribed c) ∧ hoop.HoldsNoSelf) := by
  obtain ⟨hconvoy, hok, hhoop, hfails⟩ := convoy_evaluated
  have hb : convoy.Built := gather_built _
  have hb' : hoop.Built := gather_built _
  refine ⟨⟨hb, unlinked_of_all hconvoy, ?_⟩, hb', unlinked_of_all hhoop, ?_⟩
  · cases h : convoy.toSealed with
    | error bad => simp [h, Except.toOption] at hok
    | ok r' => exact ⟨r', rfl, ((hb.seals_exactly (unlinked_of_all hconvoy)).2 r' h).2.1⟩
  · rw [← (hb'.seals_exactly (unlinked_of_all hhoop)).1]
    rintro ⟨r', h⟩
    rw [h] at hfails
    cases hfails

end Registry

end PduCompiler
