import PduCompiler.Proofs.Documents

/-! The types in what is read from a document are sound: an attribute has a kind, a type is one of
the scalars under its own name, an element is of a type or a class. Sealing finds nothing wrong with
types then, though it may with names, lengths, count fields and cycles. -/

namespace PduCompiler

/-- An element has a scalar type or a class, and not both. -/
def Element.WellTyped (e : Element) : Prop :=
  (∃ t : Scalar, t.name = e.type) ∧ e.className = "" ∨ e.type = "" ∧ e.className ≠ ""

def Kind.WellTyped : Kind → Prop
  | .primitive q => (∃ t : Scalar, t.name = q.type) ∧ q.countFor = "" ∧
      ∀ b ∈ q.bitFields, b.name ≠ "" ∧ b.mask ≠ ""
  | .object name => name ≠ ""
  | .fixedList _ e => e.WellTyped
  | .dynamicList field e => field ≠ "" ∧ e.WellTyped

def Attribute.WellTyped (a : Attribute) : Prop := ∃ k, a.kind = some k ∧ k.WellTyped

theorem forall₂_of_mem_right {α β : Type} {R : α → β → Prop} {l : List α} {u : List β}
    (h : List.Forall₂ R l u) {b : β} (hb : b ∈ u) : ∃ a ∈ l, R a b :=
  forall₂_of_mem h.flip hb

namespace Schema

variable {e : Xml.Element}

theorem DescribesPrimitive.wellTyped {q : Primitive} (h : DescribesPrimitive e q) :
    (Kind.primitive q).WellTyped := by
  obtain ⟨t, -, ht⟩ := h.type
  refine ⟨⟨t, ht.symm⟩, h.countFor, fun b hb => ?_⟩
  obtain ⟨d, -, hd⟩ := forall₂_of_mem_right h.bits hb
  exact ⟨hd.named, hd.masked⟩

theorem DescribesElement.wellTyped {elem : Element} (h : DescribesElement e elem) :
    elem.WellTyped := by
  cases h with
  | scalar _ _ hq _ =>
    obtain ⟨t, -, ht⟩ := hq.type
    exact .inl ⟨⟨t, ht.symm⟩, rfl⟩
  | object _ _ hname => exact .inr ⟨rfl, hname.ne⟩

theorem DescribesKind.wellTyped {k : Kind} (h : DescribesKind e k) : k.WellTyped := by
  cases h with
  | primitive _ hq => exact hq.wellTyped
  | object _ hname => exact hname.ne
  | list _ _ hk =>
    cases hk with
    | fixed he _ _ => exact he.wellTyped
    | dynamic he _ hne _ => exact ⟨hne, he.wellTyped⟩

theorem DescribesClass.wellTyped {c : ClassDescription} (h : DescribesClass e c) :
    ∀ a ∈ c.attributes, a.WellTyped := by
  intro a ha
  obtain ⟨d, -, hd⟩ := forall₂_of_mem_right h.attributes ha
  obtain ⟨k, hk, hkind⟩ := hd.kind
  exact ⟨k, hk, hkind.wellTyped⟩

theorem Reads.wellTyped {doc : List Xml.Element} {r : Registry} {errors : List DescriptionError}
    (h : Reads doc r errors) : ∀ c ∈ r.classes, ∀ a ∈ c.attributes, a.WellTyped := by
  intro c hc
  obtain ⟨c₀, ⟨-, e, -, -, hoffers, -⟩, rfl⟩ := (h.classes c).mp hc
  exact hoffers.1.wellTyped

end Schema

namespace Registry

variable {r : Registry}

/-- What sealing can find wrong where types are sound. -/
inductive Remaining (r : Registry) : SealError → Prop
  | unnamedAttribute (c : String) : Remaining r (.unnamedAttribute c)
  | duplicateAttribute (c a : String) : Remaining r (.duplicateAttribute c a)
  | unknownClass (c a : String) {name : String} (h : name ∉ r.names) :
      Remaining r (.unknownClass c a name)
  | badLength (c a : String) {n : Int} (h : n ≤ 0) : Remaining r (.badLength c a n)
  | countField (c a : String) (cause : CountFieldError) : Remaining r (.countField c a cause)
  | floatCount (c a field : String) (type : TypeName) : Remaining r (.floatCount c a field type)
  | sharedCount (c field first second : String) : Remaining r (.sharedCount c field first second)
  | embedsItself (path : List String) : Remaining r (.embedsItself path)

theorem checkClassName_remaining (c a name : String) :
    ∀ e ∈ r.checkClassName c a name, r.Remaining e := by
  intro e he
  unfold checkClassName at he
  split at he
  · cases he
  · next hno =>
    rw [List.mem_singleton.mp he]
    exact .unknownClass c a fun hin => hno (contains_iff_mem_names.mpr hin)

theorem checkElement_remaining (c a : String) {elem : Element} (h : elem.WellTyped) :
    ∀ e ∈ r.checkElement c a elem, r.Remaining e := by
  intro e he
  unfold checkElement at he
  rcases h with ⟨htype, hclass⟩ | ⟨htype, hclass⟩
  · simp [Element.isObject, hclass, TypeName.isCanonical_iff.mpr htype] at he
  · rw [if_pos (by simpa [Element.isObject] using hclass), if_neg (by simp [htype])] at he
    exact checkClassName_remaining c a _ e he

theorem checkDynamicList_remaining (c a field : String) {elem : Element} (h : elem.WellTyped)
    (counted : Table String) :
    ∀ e ∈ (r.checkDynamicList c a field elem counted).1, r.Remaining e := by
  intro e he
  unfold checkDynamicList at he
  cases hf : r.countField c field with
  | error cause =>
    simp only [hf, List.mem_append, List.mem_singleton] at he
    rcases he with he | rfl
    · exact checkElement_remaining c a h e he
    · exact .countField c a cause
  | ok found =>
    simp only [hf, List.mem_append, List.mem_map] at he
    rcases he with (he | he) | ⟨first, -, rfl⟩
    · exact checkElement_remaining c a h e he
    · split at he
      · rw [List.mem_singleton.mp he]
        exact .floatCount c a field _
      · cases he
    · exact .sharedCount c field first a

theorem checkAttributes_remaining (c : String) {l : List Attribute} (h : ∀ a ∈ l, a.WellTyped)
    (seen : List String) (counted : Table String) :
    ∀ e ∈ r.checkAttributes c seen counted l, r.Remaining e := by
  induction l generalizing seen counted with
  | nil => simp [checkAttributes]
  | cons a rest ih =>
    obtain ⟨⟨k, hk, htyped⟩, hrest⟩ := List.forall_mem_cons.mp h
    intro e he
    rw [checkAttributes] at he
    split at he
    · rcases List.mem_cons.mp he with rfl | he
      · exact .unnamedAttribute c
      · exact ih hrest seen counted e he
    simp only [hk, List.mem_append] at he
    rcases he with (he | he) | he
    · split at he
      · rw [List.mem_singleton.mp he]
        exact .duplicateAttribute c a.name
      · cases he
    · cases k with
      | primitive q => simp [TypeName.isCanonical_iff.mpr htyped.1] at he
      | object name => exact checkClassName_remaining c a.name name e he
      | fixedList n elem =>
        rcases List.mem_append.mp he with he | he
        · split at he
          · cases he
          · next hn =>
            rw [List.mem_singleton.mp he]
            exact .badLength c a.name (Int.not_lt.mp hn)
        · exact checkElement_remaining c a.name htyped e he
      | dynamicList field elem =>
        exact checkDynamicList_remaining c a.name field htyped.2 counted e he
    · exact ih hrest _ _ e he

theorem problems_remaining (h : ∀ c ∈ r.classes, ∀ a ∈ c.attributes, a.WellTyped) :
    ∀ e ∈ r.problems, r.Remaining e := by
  intro e he
  unfold problems at he
  split at he
  · obtain ⟨path, -, rfl⟩ := List.mem_map.mp he
    exact .embedsItself path
  · obtain ⟨c, hc, hin⟩ := List.mem_flatMap.mp he
    exact checkAttributes_remaining c.name (h c hc) [] [] e hin

/-- Whatever a document says, the types in its classes are sound, and sealing finds nothing wrong
with them. -/
theorem ofDocument_wellTyped {text : String} {errors : List DescriptionError}
    (h : ofDocument text = .ok (r, errors)) :
    (∀ c ∈ r.classes, ∀ a ∈ c.attributes, a.WellTyped) ∧
    ∀ bad, r.toSealed = .error bad → ∀ e ∈ bad, r.Remaining e := by
  have htyped : ∀ c ∈ r.classes, ∀ a ∈ c.attributes, a.WellTyped := by
    obtain ⟨root, -, hfold⟩ := bind_eq_ok.mp h
    have hreads := (Schema.readClasses_reads (root.childrenNamed "class")).2
    rw [Except.ok.inj hfold] at hreads
    exact hreads.wellTyped
  refine ⟨htyped, fun bad hbad e he => problems_remaining htyped e ?_⟩
  rw [toSealed, (ofDocument_built h).unsealed] at hbad
  split at hbad
  · next hs => cases hs
  · split at hbad
    · cases hbad
    · cases hbad
      exact he

end Registry

/-- The document has errors, and the one area left in it is a list of no lines. -/
theorem ofDocument_wellTyped_draft :
    Registry.ofDocument Draft.text = .ok (Draft.registry, Draft.errors) ∧
    (∀ c ∈ Draft.registry.classes, ∀ a ∈ c.attributes, a.WellTyped) ∧
    Draft.registry.toSealed = .error [.badLength "Area" "d" 0, .unknownClass "Area" "d" "Line"] ∧
    Draft.registry.Remaining (.unknownClass "Area" "d" "Line") := by
  have hseal : Draft.registry.toSealed =
      .error [.badLength "Area" "d" 0, .unknownClass "Area" "d" "Line"] := by
    have hproblems : Draft.registry.problems =
      [.badLength "Area" "d" 0, .unknownClass "Area" "d" "Line"] := by decide +kernel
    rw [Registry.toSealed, hproblems]
    rfl
  obtain ⟨htyped, hremaining⟩ := Registry.ofDocument_wellTyped Draft.ofDocument_text
  exact ⟨Draft.ofDocument_text, htyped, hseal, hremaining _ hseal _ (by simp)⟩

end PduCompiler
