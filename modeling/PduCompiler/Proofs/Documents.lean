import PduCompiler.Proofs.Registration
import PduCompiler.Proofs.SampleProgram

/-! What a document describes. An element describes a class if each of its attributes is described by
exactly one child, and then only one class. Of the elements that describe a class of a name the first
is registered, and what is wrong with any of them is said in their order. -/

namespace PduCompiler

open Text

/-- The names of a type, with blanks around them. Older ones are in letters of any case. -/
def Scalar.Calls (t : Scalar) (text : String) : Prop :=
  trim text = t.name ∨ lowered (trim text) = t.legacyName

theorem map_eq_ok {ε α β : Type} {x : Except ε α} {f : α → β} {b : β} :
    f <$> x = .ok b ↔ ∃ a, x = .ok a ∧ f a = b := by
  cases x <;> simp [Functor.map, Except.map]

theorem Scalar.parse?_eq_some {text : String} {t : Scalar} :
    Scalar.parse? text = some t ↔ t.Calls text := by
  have hlegacy : ∀ t : Scalar, all.find? (·.legacyName == t.legacyName) = some t := by
    intro t
    cases t <;> decide
  have hapart : ∀ s t : Scalar, lowered s.name ≠ t.legacyName := by
    have hlower : ∀ s : Scalar, lowered s.name = s.name := by
      intro s
      cases s <;> decide +kernel
    intro s t
    rw [hlower]
    cases s <;> cases t <;> decide
  have hparse : Scalar.parse? text =
    (ofName? (trim text)).orElse fun _ => all.find? (·.legacyName == lowered (trim text)) := rfl
  rw [hparse, Scalar.Calls]
  cases hname : ofName? (trim text) with
  | some s =>
    rw [← name_of_ofName? hname, Option.orElse_some, Option.some.injEq]
    constructor
    · rintro rfl
      exact .inl rfl
    · rintro (h | h)
      · rw [← Option.some.injEq, ← ofName?_name t, ← h, ofName?_name]
      · exact absurd h (hapart s t)
  | none =>
    rw [Option.orElse_none]
    constructor
    · intro h
      have hfound := List.find?_some h
      exact .inr (beq_iff_eq.mp hfound).symm
    · rintro (h | h)
      · rw [h, ofName?_name] at hname
        cases hname
      · rw [h]
        exact hlegacy t

namespace Schema

structure DescribesBits (e : Xml.Element) (b : BitField) : Prop where
  name : b.name = trim (e.value "name")
  mask : b.mask = trim (e.value "mask")
  description : b.description = cleanComment (e.value "description")
  named : b.name ≠ ""
  masked : b.mask ≠ ""
  owner : b.owner = ""

structure DescribesPrimitive (e : Xml.Element) (q : Primitive) : Prop where
  type : ∃ t : Scalar, t.Calls (e.value "type") ∧ q.type = t.name
  default : q.default = trim (e.value "defaultValue")
  bits : List.Forall₂ DescribesBits (e.childrenNamed "bitfield") q.bitFields
  countFor : q.countFor = ""

structure DescribesName (e : Xml.Element) (name : String) : Prop where
  eq : name = trim (e.value "name")
  ne : name ≠ ""

inductive DescribesElement (e : Xml.Element) : Element → Prop
  | scalar {p : Xml.Element} {q : Primitive} (hp : e.merged? "primitive" = some p)
      (hc : e.merged? "classRef" = none) (hq : DescribesPrimitive p q) (hbits : q.bitFields = []) :
      DescribesElement e { type := q.type }
  | object {c : Xml.Element} {name : String} (hp : e.merged? "primitive" = none)
      (hc : e.merged? "classRef" = some c) (hname : DescribesName c name) :
      DescribesElement e { className := name }

inductive DescribesList (e : Xml.Element) : Kind → Prop
  | fixed {n : Int} {elem : Element} (he : DescribesElement e elem)
      (hcount : trim (e.value "countFieldName") = "")
      (hlength : decimal? (trim (e.value "length")) = some n) :
      DescribesList e (.fixedList n elem)
  | dynamic {field : String} {elem : Element} (he : DescribesElement e elem)
      (hcount : field = trim (e.value "countFieldName")) (hne : field ≠ "")
      (hlength : trim (e.value "length") = "") : DescribesList e (.dynamicList field elem)

def kindTags : List String := ["primitive", "classRef", "primitivelist", "objectlist"]

/-- All children that can give a kind have one tag, and together they are `child`. -/
structure OnlyKind (e : Xml.Element) (tag : String) (child : Xml.Element) : Prop where
  here : e.merged? tag = some child
  nothing : ∀ other ∈ kindTags, other ≠ tag → e.merged? other = none

inductive DescribesKind (e : Xml.Element) : Kind → Prop
  | primitive {p : Xml.Element} {q : Primitive} (h : OnlyKind e "primitive" p)
      (hq : DescribesPrimitive p q) : DescribesKind e (.primitive q)
  | object {c : Xml.Element} {name : String} (h : OnlyKind e "classRef" c)
      (hname : DescribesName c name) : DescribesKind e (.object name)
  | list {tag : String} {l : Xml.Element} {k : Kind} (htag : tag ∈ ["primitivelist", "objectlist"])
      (h : OnlyKind e tag l) (hk : DescribesList l k) : DescribesKind e k

structure DescribesAttribute (e : Xml.Element) (a : Attribute) : Prop where
  name : a.name = trim (e.value "name")
  comment : a.comment = cleanComment (e.value "comment")
  kind : ∃ k, a.kind = some k ∧ DescribesKind e k
  transient : a.transient = true ↔ truthValue? (trim (e.value "serialize")) = some false

structure DescribesValue (e : Xml.Element) (v : InitialValue) : Prop where
  attr : v.attr = trim (e.value "name")
  value : v.value = trim (e.value "value")

/-- The class that an element describes, with what it consists of in the order of the document. -/
structure DescribesClass (e : Xml.Element) (c : ClassDescription) : Prop where
  name : DescribesName e c.name
  parent : c.parent = trim (e.value "inheritsFrom")
  comment : c.comment = cleanComment (e.value "comment")
  attributes : List.Forall₂ DescribesAttribute (e.childrenNamed "attribute") c.attributes
  initialValues : List.Forall₂ DescribesValue (e.childrenNamed "initialValue") c.initialValues
  isAbstract : c.isAbstract = true ↔ truthValue? (trim (e.value "abstract")) = some true
  xmlRoot : c.xmlRoot = true ↔ truthValue? (trim (e.value "xmlRootElement")) = some true
  aliasFor : c.aliasFor = trim (e.value "aliasFor")
  specialCase : c.specialCase = trim (e.value "specialCase")
  interfaces : c.interfaces = trim (e.value "implements")

section

variable {e : Xml.Element}

theorem bitFieldOf_eq_ok {b : BitField} : bitFieldOf e = .ok b ↔ DescribesBits e b := by
  unfold bitFieldOf
  by_cases h : trim (e.value "name") = "" ∨ trim (e.value "mask") = ""
  · rw [if_pos (by simpa using h)]
    refine ⟨fun hb => (nomatch hb), fun hb => ?_⟩
    rcases h with h | h
    · exact absurd (hb.name.trans h) hb.named
    · exact absurd (hb.mask.trans h) hb.masked
  · rw [if_neg (by simpa using h)]
    obtain ⟨hname, hmask⟩ := not_or.mp h
    constructor
    · intro hb
      rw [← Except.ok.inj hb]
      exact ⟨rfl, rfl, rfl, hname, hmask, rfl⟩
    · intro hb
      rw [← hb.name, ← hb.mask, ← hb.description, ← hb.owner]

theorem primitiveOf_eq_ok {q : Primitive} : primitiveOf e = .ok q ↔ DescribesPrimitive e q := by
  unfold primitiveOf
  cases ht : Scalar.parse? (e.value "type") with
  | none =>
    refine ⟨fun h => (nomatch h), fun h => ?_⟩
    obtain ⟨t, hcalls, -⟩ := h.type
    rw [Scalar.parse?_eq_some.mpr hcalls] at ht
    cases ht
  | some t =>
    simp only [bind_eq_ok, mapM_eq_ok, bitFieldOf_eq_ok]
    constructor
    · rintro ⟨bits, hbits, hq⟩
      cases hq
      exact ⟨⟨t, Scalar.parse?_eq_some.mp ht, rfl⟩, rfl, hbits, rfl⟩
    · rintro ⟨⟨s, hcalls, htype⟩, hdefault, hbits, hcount⟩
      refine ⟨q.bitFields, hbits, ?_⟩
      rw [Scalar.parse?_eq_some.mpr hcalls] at ht
      cases ht
      cases q
      simp_all [pure, Except.pure]

theorem classNameOf_eq_ok {name : String} : classNameOf e = .ok name ↔ DescribesName e name := by
  unfold classNameOf
  by_cases h : trim (e.value "name") = ""
  · rw [if_pos (by simpa using h)]
    exact ⟨fun hn => (nomatch hn), fun hn => absurd (hn.eq.trans h) hn.ne⟩
  · rw [if_neg (by simpa using h), Except.ok.injEq]
    exact ⟨fun hn => ⟨hn.symm, hn ▸ h⟩, fun hn => hn.eq.symm⟩

theorem elementOf_eq_ok {elem : Element} : elementOf e = .ok elem ↔ DescribesElement e elem := by
  unfold elementOf
  cases hp : e.merged? "primitive" with
  | none =>
    cases hc : e.merged? "classRef" with
    | none =>
      refine ⟨fun h => (nomatch h), fun h => ?_⟩
      cases h with
      | scalar hp' => simp [hp] at hp'
      | object _ hc' => simp [hc] at hc'
    | some c =>
      simp only [bind_eq_ok, classNameOf_eq_ok]
      constructor
      · rintro ⟨name, hname, h⟩
        cases h
        exact .object hp hc hname
      · intro h
        cases h with
        | scalar hp' => simp [hp] at hp'
        | object _ hc' hname =>
          cases hc.symm.trans hc'
          exact ⟨_, hname, rfl⟩
  | some p =>
    cases hc : e.merged? "classRef" with
    | none =>
      simp only [bind_eq_ok, primitiveOf_eq_ok]
      constructor
      · rintro ⟨q, hq, h⟩
        by_cases hbits : q.bitFields = []
        · rw [if_pos (by simpa using hbits)] at h
          cases h
          exact .scalar hp hc hq hbits
        · rw [if_neg (by simpa using hbits)] at h
          cases h
      · intro h
        cases h with
        | scalar hp' _ hq hbits =>
          cases hp.symm.trans hp'
          exact ⟨_, hq, by simp [hbits]⟩
        | object hp' => simp [hp] at hp'
    | some c =>
      refine ⟨fun h => (nomatch h), fun h => ?_⟩
      cases h with
      | scalar _ hc' => simp [hc] at hc'
      | object hp' => simp [hp] at hp'

theorem listOf_eq_ok {k : Kind} : listOf e = .ok k ↔ DescribesList e k := by
  have hempty : decimal? "" = none := rfl
  unfold listOf
  simp only [bind_eq_ok, elementOf_eq_ok]
  by_cases hc : trim (e.value "countFieldName") = "" <;> by_cases hl : trim (e.value "length") = ""
  · constructor
    · rintro ⟨elem, -, h⟩
      simp [hc, hl] at h
    · intro h
      cases h with
      | fixed _ _ hn => simp [hl, hempty] at hn
      | dynamic _ hcount hne => exact absurd (hcount.trans hc) hne
  · constructor
    · rintro ⟨elem, helem, h⟩
      cases hn : decimal? (trim (e.value "length")) with
      | none => simp [hc, hl, hn] at h
      | some n =>
        obtain rfl : Kind.fixedList n elem = k := by simpa [hc, hl, hn] using h
        exact .fixed helem hc hn
    · intro h
      cases h with
      | fixed helem _ hn => exact ⟨_, helem, by simp [hc, hl, hn]⟩
      | dynamic _ hcount hne => exact absurd (hcount.trans hc) hne
  · constructor
    · rintro ⟨elem, helem, h⟩
      obtain rfl : Kind.dynamicList (trim (e.value "countFieldName")) elem = k := by
        simpa [hc, hl] using h
      exact .dynamic helem rfl hc hl
    · intro h
      cases h with
      | fixed _ hcount => exact absurd hcount hc
      | dynamic helem hcount => exact ⟨_, helem, by simp [hcount, hc, hl]⟩
  · constructor
    · rintro ⟨elem, -, h⟩
      simp [hc, hl] at h
    · intro h
      cases h with
      | fixed _ hcount => exact absurd hcount hc
      | dynamic _ _ _ hlength => exact absurd hlength hl

theorem kindOf_eq_ok {k : Kind} : kindOf e = .ok k ↔ DescribesKind e k := by
  unfold kindOf
  constructor
  · intro h
    cases hp : e.merged? "primitive" <;> cases hc : e.merged? "classRef" <;>
      cases hl : e.merged? "primitivelist" <;> cases ho : e.merged? "objectlist" <;>
      simp [hp, hc, hl, ho] at h
    -- what is left has children of one tag
    · have htag : "objectlist" ∈ ["primitivelist", "objectlist"] := by decide
      exact .list htag ⟨ho, by simp [kindTags, hp, hc, hl]⟩ (listOf_eq_ok.mp h)
    · have htag : "primitivelist" ∈ ["primitivelist", "objectlist"] := by decide
      exact .list htag ⟨hl, by simp [kindTags, hp, hc, ho]⟩ (listOf_eq_ok.mp h)
    · obtain ⟨name, hname, rfl⟩ := map_eq_ok.mp h
      exact .object ⟨hc, by simp [kindTags, hp, hl, ho]⟩ (classNameOf_eq_ok.mp hname)
    · obtain ⟨q, hq, rfl⟩ := map_eq_ok.mp h
      exact .primitive ⟨hp, by simp [kindTags, hc, hl, ho]⟩ (primitiveOf_eq_ok.mp hq)
  · intro h
    cases h with
    | primitive h hq =>
      have hc := h.nothing "classRef" (by decide) (by decide)
      have hl := h.nothing "primitivelist" (by decide) (by decide)
      have ho := h.nothing "objectlist" (by decide) (by decide)
      simp [h.here, hc, hl, ho, primitiveOf_eq_ok.mpr hq]
    | object h hname =>
      have hp := h.nothing "primitive" (by decide) (by decide)
      have hl := h.nothing "primitivelist" (by decide) (by decide)
      have ho := h.nothing "objectlist" (by decide) (by decide)
      simp [h.here, hp, hl, ho, classNameOf_eq_ok.mpr hname]
    | list htag h hk =>
      have hp := h.nothing "primitive" (by decide) (by rintro rfl; simp at htag)
      have hc := h.nothing "classRef" (by decide) (by rintro rfl; simp at htag)
      rcases List.mem_pair.mp htag with rfl | rfl
      · have ho := h.nothing "objectlist" (by decide) (by decide)
        simp [h.here, hp, hc, ho, listOf_eq_ok.mpr hk]
      · have hl := h.nothing "primitivelist" (by decide) (by decide)
        simp [h.here, hp, hc, hl, listOf_eq_ok.mpr hk]

theorem flagOf_eq {default value : Bool} (hne : default ≠ value) {s : String} :
    flagOf default s = value ↔ truthValue? (trim s) = some value := by
  unfold flagOf
  cases truthValue? (trim s) <;> simp [hne]

theorem attributeOf_eq_ok {a : Attribute} : attributeOf e = .ok a ↔ DescribesAttribute e a := by
  have hflag : (!flagOf true (e.value "serialize")) = true ↔
      truthValue? (trim (e.value "serialize")) = some false := by
    rw [Bool.not_eq_true', flagOf_eq (by decide)]
  simp only [attributeOf, bind_eq_ok, kindOf_eq_ok]
  constructor
  · rintro ⟨k, hk, h⟩
    rw [← Except.ok.inj h]
    refine ⟨rfl, rfl, ⟨k, rfl, hk⟩, ?_⟩
    dsimp only
    exact hflag
  · rintro ⟨hname, hcomment, ⟨k, hkind, hk⟩, htransient⟩
    refine ⟨k, hk, ?_⟩
    have hflags := Bool.eq_iff_iff.mpr (hflag.trans htransient.symm)
    rw [← hname, ← hcomment, ← hkind, hflags]
    rfl

inductive Faults (name : String) : List Xml.Element → List DescriptionError → Prop
  | nil : Faults name [] []
  | good {e : Xml.Element} {a : Attribute} {rest : List Xml.Element} {bad : List DescriptionError}
      (ha : DescribesAttribute e a) (hrest : Faults name rest bad) : Faults name (e :: rest) bad
  | fault {e : Xml.Element} {cause : AttributeError} {rest : List Xml.Element}
      {bad : List DescriptionError} (hnone : ∀ a, ¬ DescribesAttribute e a)
      (hcause : attributeOf e = .error cause) (hrest : Faults name rest bad) :
      Faults name (e :: rest) (.badAttribute name (e.value "name") cause :: bad)

def resultsOf (name : String) (l : List Xml.Element) : List (Except DescriptionError Attribute) :=
  l.map fun a => (attributeOf a).mapError (.badAttribute name (a.value "name"))

def problemsOf (results : List (Except DescriptionError Attribute)) : List DescriptionError :=
  results.filterMap fun r =>
    match r with
    | .error e => some e
    | .ok _ => none

theorem faults_results (name : String) (l : List Xml.Element) :
    Faults name l (problemsOf (resultsOf name l)) := by
  induction l with
  | nil => exact .nil
  | cons e l ih =>
    cases he : attributeOf e with
    | error cause =>
      have hnone : ∀ a, ¬ DescribesAttribute e a := by
        intro a ha
        rw [attributeOf_eq_ok.mpr ha] at he
        cases he
      simpa [resultsOf, problemsOf, he, Except.mapError] using Faults.fault hnone he ih
    | ok a =>
      simpa [resultsOf, problemsOf, he, Except.mapError] using
        Faults.good (attributeOf_eq_ok.mp he) ih

theorem results_eq_iff (name : String) {l : List Xml.Element} {as : List Attribute} :
    problemsOf (resultsOf name l) = [] ∧ (resultsOf name l).filterMap Except.toOption = as ↔
      List.Forall₂ DescribesAttribute l as := by
  induction l generalizing as with
  | nil => simp [resultsOf, problemsOf, eq_comm]
  | cons e l ih =>
    rw [List.forall₂_cons_left_iff]
    cases he : attributeOf e with
    | error cause =>
      constructor
      · rintro ⟨hnil, -⟩
        simp [resultsOf, problemsOf, he, Except.mapError] at hnil
      · rintro ⟨a, as, ha, -, -⟩
        rw [attributeOf_eq_ok.mpr ha] at he
        cases he
    | ok a =>
      have hsplit : problemsOf (resultsOf name (e :: l)) = problemsOf (resultsOf name l) ∧
          (resultsOf name (e :: l)).filterMap Except.toOption =
            a :: (resultsOf name l).filterMap Except.toOption := by
        simp [resultsOf, problemsOf, he, Except.mapError, Except.toOption]
      rw [hsplit.1, hsplit.2]
      constructor
      · rintro ⟨hnil, rfl⟩
        exact ⟨a, _, attributeOf_eq_ok.mp he, ih.mp ⟨hnil, rfl⟩, rfl⟩
      · rintro ⟨b, bs, hb, hbs, rfl⟩
        obtain ⟨hnil, hall⟩ := ih.mpr hbs
        rw [attributeOf_eq_ok.mpr hb, Except.ok.injEq] at he
        exact ⟨hnil, by rw [hall, he]⟩

theorem valuesOf_eq_iff {l : List Xml.Element} {vs : List InitialValue} :
    (l.map fun v => ({ attr := trim (v.value "name"), value := trim (v.value "value") } :
      InitialValue)) = vs ↔ List.Forall₂ DescribesValue l vs := by
  have hone : ∀ (e : Xml.Element) (v : InitialValue),
      ({ attr := trim (e.value "name"), value := trim (e.value "value") } : InitialValue) = v ↔
        DescribesValue e v := by
    intro e v
    constructor
    · intro h
      rw [← h]
      exact ⟨rfl, rfl⟩
    · intro h
      rw [← h.attr, ← h.value]
  rw [← List.forall₂_eq_eq_eq, List.forall₂_map_left_iff]
  simp only [hone]

def described (e : Xml.Element) : ClassDescription := {
  name := trim (e.value "name")
  parent := trim (e.value "inheritsFrom")
  comment := cleanComment (e.value "comment")
  attributes := (resultsOf (trim (e.value "name"))
    (e.childrenNamed "attribute")).filterMap Except.toOption
  initialValues := (e.childrenNamed "initialValue").map fun v =>
    { attr := trim (v.value "name"), value := trim (v.value "value") }
  isAbstract := flagOf false (e.value "abstract")
  xmlRoot := flagOf false (e.value "xmlRootElement")
  aliasFor := trim (e.value "aliasFor")
  specialCase := trim (e.value "specialCase")
  interfaces := trim (e.value "implements") }

theorem classOf_eq (e : Xml.Element) : classOf e =
    if trim (e.value "name") = "" then .error [.unnamedClass]
    else if problemsOf (resultsOf (trim (e.value "name")) (e.childrenNamed "attribute")) = [] then
      .ok (described e)
    else .error (problemsOf (resultsOf (trim (e.value "name")) (e.childrenNamed "attribute"))) := by
  have hunfold : classOf e =
      if trim (e.value "name") == "" then .error [.unnamedClass]
      else if !(problemsOf (resultsOf (trim (e.value "name"))
        (e.childrenNamed "attribute"))).isEmpty then
        .error (problemsOf (resultsOf (trim (e.value "name")) (e.childrenNamed "attribute")))
      else .ok (described e) := by
    unfold classOf resultsOf problemsOf described
    rfl
  rw [hunfold]
  generalize problemsOf (resultsOf (trim (e.value "name")) (e.childrenNamed "attribute")) = bad
  by_cases hname : trim (e.value "name") = "" <;> cases bad <;> simp [hname]

theorem classOf_eq_ok {c : ClassDescription} : classOf e = .ok c ↔ DescribesClass e c := by
  rw [classOf_eq]
  by_cases hname : trim (e.value "name") = ""
  · rw [if_pos hname]
    exact ⟨fun h => (nomatch h), fun h => absurd (h.name.eq.trans hname) h.name.ne⟩
  rw [if_neg hname]
  have habstract := flagOf_eq (by decide : false ≠ true) (s := e.value "abstract")
  have hroot := flagOf_eq (by decide : false ≠ true) (s := e.value "xmlRootElement")
  constructor
  · intro h
    by_cases hnil : problemsOf (resultsOf (trim (e.value "name")) (e.childrenNamed "attribute")) = []
    · rw [if_pos hnil] at h
      have hattributes := (results_eq_iff _).mp (And.intro hnil rfl)
      have hvalues := (valuesOf_eq_iff (l := e.childrenNamed "initialValue")).mp rfl
      rw [← Except.ok.inj h, described]
      refine ⟨⟨rfl, hname⟩, rfl, rfl, hattributes, hvalues, ?_, ?_, rfl, rfl, rfl⟩
      · dsimp only
        exact habstract
      · dsimp only
        exact hroot
    · rw [if_neg hnil] at h
      cases h
  · intro h
    obtain ⟨hnil, hattributes⟩ := (results_eq_iff (trim (e.value "name"))).mpr h.attributes
    have hvalues := valuesOf_eq_iff.mpr h.initialValues
    have habstract' := Bool.eq_iff_iff.mpr (habstract.trans h.isAbstract.symm)
    have hroot' := Bool.eq_iff_iff.mpr (hroot.trans h.xmlRoot.symm)
    rw [if_pos hnil, described, hattributes, hvalues, habstract', hroot', ← h.name.eq, ← h.parent,
      ← h.comment, ← h.aliasFor, ← h.specialCase, ← h.interfaces]

theorem classOf_eq_error {bad : List DescriptionError} (h : classOf e = .error bad) :
    trim (e.value "name") = "" ∧ bad = [.unnamedClass] ∨
    trim (e.value "name") ≠ "" ∧ bad ≠ [] ∧
      Faults (trim (e.value "name")) (e.childrenNamed "attribute") bad := by
  rw [classOf_eq] at h
  split at h
  · next hname =>
    cases h
    exact .inl ⟨hname, rfl⟩
  · next hname =>
    split at h
    · cases h
    · next hbad =>
      cases h
      exact .inr ⟨hname, hbad, faults_results _ _⟩

end

def Offers (e : Xml.Element) (c : ClassDescription) : Prop :=
  DescribesClass e c ∧ ¬ SpellsRoot c.name

def Offered (doc : List Xml.Element) (name : String) : Prop :=
  ∃ e ∈ doc, ∃ c, Offers e c ∧ c.name = name

def Introduces (doc : List Xml.Element) (c : ClassDescription) : Prop :=
  ∃ before e after, doc = before ++ e :: after ∧ Offers e c ∧ ¬ Offered before c.name

inductive Verdict (before : List Xml.Element) (e : Xml.Element) : List DescriptionError → Prop
  | unnamed (hname : trim (e.value "name") = "") : Verdict before e [.unnamedClass]
  | faulty {bad : List DescriptionError} (hname : trim (e.value "name") ≠ "")
      (hbad : Faults (trim (e.value "name")) (e.childrenNamed "attribute") bad) (hne : bad ≠ []) :
      Verdict before e bad
  | reserved {c : ClassDescription} (hc : DescribesClass e c) (hroot : SpellsRoot c.name) :
      Verdict before e [.notAdded (.reserved c.name)]
  | repeated {c : ClassDescription} (hc : Offers e c) (hold : Offered before c.name) :
      Verdict before e [.notAdded (.duplicate c.name)]
  | fine {c : ClassDescription} (hc : Offers e c) (hnew : ¬ Offered before c.name) :
      Verdict before e []

inductive Verdicts : List Xml.Element → List DescriptionError → Prop
  | nil : Verdicts [] []
  | snoc {before : List Xml.Element} {e : Xml.Element} {errors bad : List DescriptionError}
      (hbefore : Verdicts before errors) (he : Verdict before e bad) :
      Verdicts (before ++ [e]) (errors ++ bad)

/-- A registry has the classes that a document introduces, each once and in order of name, and the
errors are the verdicts on its elements. -/
structure Reads (doc : List Xml.Element) (r : Registry) (errors : List DescriptionError) : Prop where
  sorted : r.names.Pairwise (· < ·)
  classes : ∀ c, c ∈ r.classes ↔ ∃ c₀, Introduces doc c₀ ∧ c = c₀.registered
  errors : Verdicts doc errors

variable {doc : List Xml.Element} {e : Xml.Element} {r : Registry} {c : ClassDescription}

theorem offered_concat {name : String} : Offered (doc ++ [e]) name ↔
    Offered doc name ∨ ∃ c, Offers e c ∧ c.name = name := by
  constructor
  · rintro ⟨d, hd, h⟩
    rcases List.mem_append.mp hd with hd | hd
    · exact .inl ⟨d, hd, h⟩
    · rw [List.mem_singleton.mp hd] at h
      exact .inr h
  · rintro (⟨d, hd, h⟩ | h)
    · exact ⟨d, List.mem_append_left _ hd, h⟩
    · exact ⟨e, by simp, h⟩

theorem introduces_concat : Introduces (doc ++ [e]) c ↔
    Introduces doc c ∨ Offers e c ∧ ¬ Offered doc c.name := by
  constructor
  · rintro ⟨before, d, after, heq, hd, hnew⟩
    rcases after.eq_nil_or_concat with rfl | ⟨after, last, rfl⟩
    · obtain ⟨rfl, he⟩ := List.append_inj' heq rfl
      cases he
      exact .inr ⟨hd, hnew⟩
    · rw [List.concat_eq_append, ← List.cons_append, ← List.append_assoc] at heq
      obtain ⟨rfl, -⟩ := List.append_inj' heq rfl
      exact .inl ⟨before, d, after, rfl, hd, hnew⟩
  · rintro (⟨before, d, after, rfl, hd, hnew⟩ | ⟨he, hnew⟩)
    · exact ⟨before, d, after ++ [e], by simp, hd, hnew⟩
    · exact ⟨doc, e, [], rfl, he, hnew⟩

theorem offered_iff {name : String} :
    Offered doc name ↔ ∃ c, Introduces doc c ∧ c.name = name := by
  induction doc using List.reverseRecOn with
  | nil =>
    constructor
    · rintro ⟨d, hd, -⟩
      cases hd
    · rintro ⟨c, ⟨before, d, after, heq, -⟩, -⟩
      simp at heq
  | append_singleton doc e ih =>
    simp only [offered_concat, introduces_concat, or_and_right, exists_or, ← ih]
    constructor
    · rintro (h | ⟨c, hc, rfl⟩)
      · exact .inl h
      · by_cases hold : Offered doc c.name
        · exact .inl hold
        · exact .inr ⟨c, ⟨hc, hold⟩, rfl⟩
    · rintro (h | ⟨c, ⟨hc, -⟩, rfl⟩)
      · exact .inl h
      · exact .inr ⟨c, hc, rfl⟩

theorem Reads.mem_names {errors : List DescriptionError} (h : Reads doc r errors) {name : String} :
    name ∈ r.names ↔ Offered doc name := by
  rw [offered_iff, Registry.names, List.mem_map]
  constructor
  · rintro ⟨c, hc, rfl⟩
    obtain ⟨c₀, hc₀, rfl⟩ := (h.classes c).mp hc
    exact ⟨c₀, hc₀, rfl⟩
  · rintro ⟨c, hc, rfl⟩
    exact ⟨c.registered, (h.classes _).mpr ⟨c, hc, rfl⟩, rfl⟩

theorem Reads.concat_of_not_offers {errors bad : List DescriptionError} (h : Reads doc r errors)
    (hno : ∀ c, Offers e c → Offered doc c.name) (hbad : Verdict doc e bad) :
    Reads (doc ++ [e]) r (errors ++ bad) := by
  refine ⟨h.sorted, fun c => ?_, .snoc h.errors hbad⟩
  rw [h.classes]
  refine exists_congr fun c₀ => and_congr_left fun _ => ?_
  rw [introduces_concat]
  exact ⟨.inl, fun hc => hc.resolve_right fun hnew => hnew.2 (hno c₀ hnew.1)⟩

theorem addElement_reads {acc : Registry × List DescriptionError} (hb : acc.1.Built)
    (h : Reads doc acc.1 acc.2) :
    Reads (doc ++ [e]) (addElement acc e).1 (addElement acc e).2 := by
  obtain ⟨r, errors⟩ := acc
  dsimp only at hb h
  unfold addElement
  cases hc : classOf e with
  | error bad =>
    have hno : ∀ c, Offers e c → Offered doc c.name := by
      intro c hoffer
      rw [classOf_eq_ok.mpr hoffer.1] at hc
      cases hc
    refine h.concat_of_not_offers hno ?_
    rcases classOf_eq_error hc with ⟨hname, rfl⟩ | ⟨hname, hne, hbad⟩
    · exact .unnamed hname
    · exact .faulty hname hbad hne
  | ok c =>
    have hdescribes := classOf_eq_ok.mp hc
    have honly : ∀ d, Offers e d → d = c := by
      intro d hd
      rw [classOf_eq_ok.mpr hd.1, Except.ok.injEq] at hc
      exact hc
    have hname : c.name ≠ "" := hdescribes.name.ne
    dsimp only
    by_cases hroot : SpellsRoot c.name
    · have hadd : r.add c = .error (.reserved c.name) := by
        simp [Registry.add, hb.unsealed, hname, isRoot_iff.mpr (.inr hroot)]
      rw [hadd]
      exact h.concat_of_not_offers (fun d hd => absurd hroot (honly d hd ▸ hd.2))
        (.reserved hdescribes hroot)
    have hoffers : Offers e c := ⟨hdescribes, hroot⟩
    have hfree : isRoot c.name = false := Registry.isRoot_eq_false.mpr ⟨hname, hroot⟩
    by_cases hold : Offered doc c.name
    · have hadd : r.add c = .error (.duplicate c.name) := by
        have hin := Registry.contains_iff_mem_names.mpr (h.mem_names.mpr hold)
        simp [Registry.add, hb.unsealed, hname, hfree, hin]
      rw [hadd]
      exact h.concat_of_not_offers (fun d hd => honly d hd ▸ hold) (.repeated hoffers hold)
    · have hadd := Registry.add_of_unsealed hb.unsealed hfree fun hin => hold (h.mem_names.mp hin)
      have hbuilt := hb.add hadd
      rw [hadd]
      refine ⟨List.pairwise_map.mpr hbuilt.sorted, fun d => ?_, ?_⟩
      · have hperm := Registry.insertByName_perm { c with parent := c.parentName } r.classes
        rw [hperm.mem_iff, List.mem_cons, h.classes]
        simp only [introduces_concat]
        constructor
        · rintro (rfl | ⟨c₀, hc₀, rfl⟩)
          · exact ⟨c, .inr ⟨hoffers, hold⟩, rfl⟩
          · exact ⟨c₀, .inl hc₀, rfl⟩
        · rintro ⟨c₀, hc₀ | ⟨hc₀, -⟩, rfl⟩
          · exact .inr ⟨c₀, hc₀, rfl⟩
          · rw [honly c₀ hc₀]
            exact .inl rfl
      · have herrors := h.errors.snoc (.fine hoffers hold)
        rwa [List.append_nil] at herrors

theorem readClasses_reads (doc : List Xml.Element) :
    (doc.foldl addElement ({}, [])).1.Built ∧
      Reads doc (doc.foldl addElement ({}, [])).1 (doc.foldl addElement ({}, [])).2 := by
  induction doc using List.reverseRecOn with
  | nil =>
    refine ⟨.empty, .nil, fun c => ⟨fun hc => (nomatch hc), ?_⟩, .nil⟩
    rintro ⟨c₀, ⟨before, d, after, heq, -⟩, -⟩
    simp at heq
  | append_singleton doc e ih =>
    rw [List.foldl_append, List.foldl_cons, List.foldl_nil]
    exact ⟨addElement_built ih.1 e, addElement_reads ih.1 ih.2⟩

end Schema

/-- Reading a document registers what its elements introduce and reports all that is wrong with
them. -/
theorem Registry.ofDocument_reads {text : String} {root : Xml.Element}
    (h : Xml.readDocument "classes" text = .ok root) :
    (∃ r errors, Registry.ofDocument text = .ok (r, errors) ∧
      Schema.Reads (root.childrenNamed "class") r errors) ∧
    ∀ name attr cause, (DescriptionError.badAttribute name attr cause).message =
      name ++ "." ++ attr ++ ": " ++ cause.message := by
  refine ⟨⟨_, _, ?_, (Schema.readClasses_reads (root.childrenNamed "class")).2⟩, fun _ _ _ => rfl⟩
  rw [Registry.ofDocument, h]
  rfl

namespace Draft

def text : String := "\n".intercalate [
  "<classes>",
  "  <class name=' Point '><attribute name='x'><primitive type='Unsigned Int'/></attribute></class>",
  "  <class name='Area'>",
  "    <attribute name='a'/>",
  "    <attribute name='b'><primitive type='int8'/></attribute>",
  "    <attribute name=' c '><classRef name=' '/></attribute>",
  "  </class>",
  "  <class/> <class name='ROOT'/> <class name='Point'/>",
  "  <class name='Area'>",
  "    <attribute name='d'><objectlist length='0'><classRef name='Line'/></objectlist></attribute>",
  "  </class>",
  "</classes>"]

def root : Xml.Element := .mk "classes" [] [
  .mk "class" [("name", " Point ")] [
    .mk "attribute" [("name", "x")] [.mk "primitive" [("type", "Unsigned Int")] []]],
  .mk "class" [("name", "Area")] [
    .mk "attribute" [("name", "a")] [],
    .mk "attribute" [("name", "b")] [.mk "primitive" [("type", "int8")] []],
    .mk "attribute" [("name", " c ")] [.mk "classRef" [("name", " ")] []]],
  .mk "class" [] [],
  .mk "class" [("name", "ROOT")] [],
  .mk "class" [("name", "Point")] [],
  .mk "class" [("name", "Area")] [
    .mk "attribute" [("name", "d")] [.mk "objectlist" [("length", "0")] [
      .mk "classRef" [("name", "Line")] []]]]]

theorem readDocument_text : Xml.readDocument "classes" text = .ok root := by
  apply eq_ok_of_toOption
  -- the text is spelled out as characters, which the kernel reads faster than it joins strings
  rewrite [Xml.readDocument, text, String.toList_intercalate]
  simp only [List.map]
  repeat rewrite [String.toList_ofList]
  decide +kernel

def registry : Registry := { classes := [
  { name := "Area", parent := "root", attributes := [
      { name := "d", kind := some (.fixedList 0 { className := "Line" }) }] },
  { name := "Point", parent := "root", attributes := [
      { name := "x", kind := some (.primitive { type := "uint32" }) }] }] }

def errors : List DescriptionError := [
  .badAttribute "Area" "a" (.kinds 0), .badAttribute "Area" " c " .unnamedClass, .unnamedClass,
  .notAdded (.reserved "ROOT"), .notAdded (.duplicate "Point")]

theorem root_evaluated :
    (root.childrenNamed "class").foldl Schema.addElement ({}, []) = (registry, errors) := by
  decide +kernel

theorem ofDocument_text : Registry.ofDocument text = .ok (registry, errors) := by
  rw [Registry.ofDocument, readDocument_text, ← root_evaluated]
  rfl

end Draft

theorem ofDocument_reads_draft : Xml.readDocument "classes" Draft.text = .ok Draft.root ∧
    Registry.ofDocument Draft.text = .ok (Draft.registry, Draft.errors) ∧
    Schema.Reads (Draft.root.childrenNamed "class") Draft.registry Draft.errors := by
  obtain ⟨⟨r, errors, hof, hreads⟩, -⟩ := Registry.ofDocument_reads Draft.readDocument_text
  rw [Draft.ofDocument_text] at hof
  cases Except.ok.inj hof
  exact ⟨Draft.readDocument_text, Draft.ofDocument_text, hreads⟩

end PduCompiler
