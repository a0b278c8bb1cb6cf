import PduCompiler.Proofs.RoundTrip
import PduCompiler.Proofs.WireCounts

/-! What the bytes of an object reveal. The stored values of count fields, and transient attributes
other than dynamic lists, are hidden: objects that show the same in everything else, at every depth,
have the same encoding and the same size, wherever they lie. -/

namespace PduCompiler

/-- An attribute whose value the encoding does not depend on. The length of a dynamic list is
written, even if the list is transient. -/
def Attribute.hidden (a : Attribute) : Bool :=
  match a.kind with
  | some (.dynamicList _ _) => false
  | some (.primitive q) => a.transient || q.countFor != ""
  | _ => a.transient

def Store.shownTo (r : Registry) (s : Store) : (depth : Nat) → Ref → View
  | 0, _ => .missing
  | depth + 1, ref =>
    match s.get? ref with
    | none => .missing
    | some i =>
      .object i.className (((r.allAttributes i.className).filter (!·.hidden)).map fun a =>
        (a.name, i.viewField (s.shownTo r depth) a))

def Store.Alike (r : Registry) (s t : Store) (x y : Nat) : Prop :=
  ∀ depth, s.shownTo r depth x = t.shownTo r depth y

theorem View.word_injective : Function.Injective View.word := fun _ _ h => View.word.inj h

theorem forall₂_of_map_eq {α β γ : Type} {f : Nat → α → γ} {g : Nat → β → γ} {l : List α}
    {l' : List β} (h : ∀ depth, l.map (f depth) = l'.map (g depth)) :
    List.Forall₂ (fun y z => ∀ depth, f depth y = g depth z) l l' := by
  induction l generalizing l' with
  | nil =>
    have hnil : l' = [] := List.map_eq_nil_iff.mp (h 0).symm
    rw [hnil]
    exact .nil
  | cons y l ih =>
    cases l' with
    | nil => exact absurd (h 0) (by simp)
    | cons z l' =>
      exact .cons (fun depth => (List.cons.inj (h depth)).1)
        (ih fun depth => (List.cons.inj (h depth)).2)

theorem forall₂_eq_of_rel {α β γ : Type} {A : α → β → Prop} {R : α → γ → Prop} {S : β → γ → Prop}
    {l : List α} {l' : List β} {us vs : List γ} (hl : List.Forall₂ A l l')
    (hu : List.Forall₂ R l us) (hv : List.Forall₂ S l' vs)
    (h : ∀ a b u v, A a b → R a u → S b v → u = v) : us = vs := by
  induction hl generalizing us vs with
  | nil =>
    cases hu
    cases hv
    rfl
  | cons hab _ ih =>
    cases hu with
    | cons hr hu =>
      cases hv with
      | cons hs hv => rw [h _ _ _ _ hab hr hs, ih hu hv]

namespace Instance

instance (i j : Instance) (name : String) (slot : Slot) : Decidable (i.AgreeAt j name slot) :=
  match slot with
  | .word | .object | .array | .objects | .words | .list => inferInstanceAs (Decidable (_ = _))

end Instance

namespace Store

variable {r : Registry} {s t : Store} {x y : Nat} {i j : Instance}

theorem Alike.object (h : s.Alike r t x y) (hi : s.get? x = some i) (hj : t.get? y = some j) :
    i.className = j.className ∧ ∀ a ∈ r.allAttributes i.className, a.hidden = false → ∀ depth,
      i.viewField (s.shownTo r depth) a = j.viewField (t.shownTo r depth) a := by
  have hshown : ∀ depth, s.shownTo r (depth + 1) x = t.shownTo r (depth + 1) y :=
    fun depth => h (depth + 1)
  simp only [shownTo, hi, hj, View.object.injEq] at hshown
  have hcls := (hshown 0).1
  refine ⟨hcls, fun a ha hhid depth => ?_⟩
  have hfields := (hshown depth).2
  rw [← hcls] at hfields
  have hmem : a ∈ (r.allAttributes i.className).filter (!·.hidden) :=
    List.mem_filter.mpr ⟨ha, by simp [hhid]⟩
  exact (Prod.mk.inj (List.map_inj_left.mp hfields a hmem)).2

theorem alike_of_all (hsize : s.size = t.size)
    (h : ((List.range s.size).all fun x => (s.get? x).elim false fun i =>
      (t.get? x).elim false fun j => decide (j.className = i.className ∧
        ∀ a ∈ r.allAttributes i.className, a.hidden = false → i.AgreeAt j a.name a.slot)) = true)
    (x : Nat) : s.Alike r t x x := by
  intro depth
  induction depth generalizing x with
  | zero => rfl
  | succ depth ih =>
    by_cases hx : x < s.size
    · obtain ⟨i, hi⟩ := get?_of_lt hx
      obtain ⟨j, hj⟩ := get?_of_lt (hsize ▸ hx)
      have hag := List.all_eq_true.mp h x (List.mem_range.mpr hx)
      simp only [hi, hj, Option.elim_some, decide_eq_true_eq] at hag
      simp only [shownTo, hi, hj, hag.1]
      congr 1
      refine List.map_congr_left fun a ha => congrArg _ ?_
      obtain ⟨ha, hhid⟩ := List.mem_filter.mp ha
      have hfield := hag.2 a ha (by simpa using hhid)
      exact (Instance.viewField_congr hfield fun y _ => (ih y).symm).symm
    · have hle : t.size ≤ x := by omega
      have hi : s.get? x = none := Array.getElem?_eq_none (Nat.le_of_not_lt hx)
      have hj : t.get? x = none := Array.getElem?_eq_none hle
      simp only [shownTo, hi, hj]

end Store

namespace Program

variable {p : Program} {s t : Store} {x y : Nat} {i j : Instance}

theorem Planned.kind_of_all (hp : p.Planned) (hs : p.Sound s) (hi : s.get? x = some i)
    {a : Attribute} (ha : a ∈ p.registry.allAttributes i.className) : a.kind ≠ none := by
  obtain ⟨c, hc, hcn⟩ := (hs.object x i hi).ready.class hp
  obtain ⟨q, hq, haq, -⟩ := hp.declaring hc (hcn ▸ ha)
  exact hp.kind_ne_none hq haq

theorem Sound.listLength_undeclared (hp : p.Planned) (hs : p.Sound s) (hi : s.get? x = some i)
    {name : String} (hnone : ∀ a ∈ p.registry.allAttributes i.className, a.name = name →
      ∀ field e, a.kind ≠ some (.dynamicList field e)) : i.listLength name = 0 := by
  have hdecl : ∀ slot, ¬ i.HasList name slot := by
    intro slot hl
    obtain ⟨a, ha, han, rfl⟩ := (hs.object x i hi).draft.lists name slot hl
    cases Attribute.form (hp.kind_of_all hs hi ha) with
    | words field e hk _ | list field e hk _ => exact hnone a ha han field e hk
    | word q hk | object cls hk => simp [Attribute.slot, hk, Instance.HasList] at hl
    | array n e hk he | objects n e hk he => simp [Attribute.slot, hk, he, Instance.HasList] at hl
  have hwords : i.primLists.get? name = none := by simpa [Instance.HasList] using hdecl .words
  have hlist : i.lists.get? name = none := by simpa [Instance.HasList] using hdecl .list
  simp [Instance.listLength, Instance.list, hwords, hlist]

theorem Sound.listLength_eq (hp : p.Planned) (hno : p.registry.NoRedeclaration) (hs : p.Sound s)
    (ht : p.Sound t) (h : s.Alike p.registry t x y) (hi : s.get? x = some i)
    (hj : t.get? y = some j) (name : String) : i.listLength name = j.listLength name := by
  obtain ⟨hcls, hview⟩ := h.object hi hj
  by_cases hdecl : ∃ a ∈ p.registry.allAttributes i.className, a.name = name ∧
      ∃ field e, a.kind = some (.dynamicList field e)
  · obtain ⟨a, ha, rfl, field, e, hk⟩ := hdecl
    have hfield := hview a ha (by simp [Attribute.hidden, hk]) 0
    rw [hs.listLength hp hno hi ha hk, ht.listLength hp hno hj (hcls ▸ ha) hk]
    simp only [Instance.viewField, hk] at hfield
    cases he : e.isObject with
    | true =>
      simp only [he, if_true, View.list.injEq] at hfield ⊢
      simpa using congrArg List.length hfield
    | false =>
      simp only [he, if_neg Bool.false_ne_true, View.list.injEq] at hfield ⊢
      simpa using congrArg List.length hfield
  · have hnone : ∀ a ∈ p.registry.allAttributes i.className, a.name = name →
        ∀ field e, a.kind ≠ some (.dynamicList field e) :=
      fun a ha han field e hk => hdecl ⟨a, ha, han, field, e, hk⟩
    rw [hs.listLength_undeclared hp hi hnone, ht.listLength_undeclared hp hj (hcls ▸ hnone)]

section

variable {below below' : Instance → String → Except MachineError (List UInt8)}
  {u v : List UInt8}

theorem encodeRefs_alike (hbelow : ∀ y z part part', s.Alike p.registry t y z →
      encodeRef s below (some y) = .ok part → encodeRef t below' (some z) = .ok part' →
      part = part') {refs refs' : List Nat}
    (h : ∀ depth, refs.map (s.shownTo p.registry depth) = refs'.map (t.shownTo p.registry depth))
    (hu : (return (← refs.mapM fun y => encodeRef s below (some y)).flatten :
      Except MachineError (List UInt8)) = .ok u)
    (hv : (return (← refs'.mapM fun y => encodeRef t below' (some y)).flatten :
      Except MachineError (List UInt8)) = .ok v) : u = v := by
  obtain ⟨parts, hparts, rfl⟩ := encodeRefs_eq_ok.mp hu
  obtain ⟨parts', hparts', rfl⟩ := encodeRefs_eq_ok.mp hv
  exact congrArg List.flatten (forall₂_eq_of_rel (forall₂_of_map_eq h) hparts hparts' hbelow)

theorem encodeAction_alike (hp : p.Planned) (hno : p.registry.NoRedeclaration) (hs : p.Sound s)
    (ht : p.Sound t) (h : s.Alike p.registry t x y) (hi : s.get? x = some i)
    (hj : t.get? y = some j) {a : Attribute} (ha : a ∈ p.registry.serialised i.className)
    (hbelow : ∀ y z part part', s.Alike p.registry t y z →
      encodeRef s below (some y) = .ok part → encodeRef t below' (some z) = .ok part' →
      part = part') {name : String}
    (hu : encodeAction s below name i (Plan.wire a).marshal = .ok u)
    (hv : encodeAction t below' name j (Plan.wire a).marshal = .ok v) : u = v := by
  obtain ⟨hcls, hview⟩ := h.object hi hj
  obtain ⟨hall, htransient⟩ := List.mem_filter.mp ha
  have hshown : a.hidden = false → ∀ depth, i.viewField (s.shownTo p.registry depth) a =
      j.viewField (t.shownTo p.registry depth) a := hview a hall
  have hplain : a.transient = false := by simpa using htransient
  cases Attribute.form (hp.kind_of_all hs hi hall) with
  | word q hk =>
    rw [encodeAction_word hk] at hu hv
    have hwritten : i.written a.name q = j.written a.name q := by
      by_cases hc : q.countFor = ""
      · have hfield := hshown (by simp [Attribute.hidden, hk, hplain, hc]) 0
        simpa [Instance.viewField, hk, Instance.written, hc] using hfield
      · simp [Instance.written, hc, hs.listLength_eq hp hno ht h hi hj]
    rw [← Except.ok.inj hu, ← Except.ok.inj hv, hwritten]
  | object cls hk =>
    rw [encodeAction_object hk] at hu hv
    obtain ⟨y', hy, -⟩ := hs.object? hi hall hk
    obtain ⟨z, hz, -⟩ := ht.object? hj (hcls ▸ hall) hk
    have hfield := hshown (by simp [Attribute.hidden, hk, hplain])
    simp only [Instance.viewField, hk, hy, hz, Option.elim_some] at hfield
    exact hbelow _ _ _ _ hfield (hy ▸ hu) (hz ▸ hv)
  | array n e hk he =>
    rw [encodeAction_array hk he] at hu hv
    have hfield := hshown (by simp [Attribute.hidden, hk, hplain]) 0
    simp only [Instance.viewField, hk, he, if_neg Bool.false_ne_true, View.list.injEq] at hfield
    have hwords := List.map_injective_iff.mpr View.word_injective hfield
    rw [← Except.ok.inj hu, ← Except.ok.inj hv, hwords]
  | objects n e hk he =>
    rw [encodeAction_objects hk he] at hu hv
    have hfield := hshown (by simp [Attribute.hidden, hk, hplain])
    simp only [Instance.viewField, hk, he, if_true, View.list.injEq] at hfield
    exact encodeRefs_alike hbelow hfield hu hv
  | words field e hk he =>
    rw [encodeAction_words hk he] at hu hv
    have hfield := hshown (by simp [Attribute.hidden, hk]) 0
    simp only [Instance.viewField, hk, he, if_neg Bool.false_ne_true, View.list.injEq] at hfield
    have hwords := List.map_injective_iff.mpr View.word_injective hfield
    rw [← Except.ok.inj hu, ← Except.ok.inj hv, hwords]
  | list field e hk he =>
    rw [encodeAction_list hk he] at hu hv
    have hfield := hshown (by simp [Attribute.hidden, hk])
    simp only [Instance.viewField, hk, he, if_true, View.list.injEq] at hfield
    exact encodeRefs_alike hbelow hfield hu hv

end

theorem encode_alike (hp : p.Planned) (hno : p.registry.NoRedeclaration) (hs : p.Sound s)
    (ht : p.Sound t) {depth : Nat} {c : ClassDescription} (hc : c ∈ p.registry.classes)
    (h : s.Alike p.registry t x y) (hi : s.get? x = some i) (hj : t.get? y = some j)
    (hsub : p.registry.serialised c.name ⊆ p.registry.serialised i.className) {u v : List UInt8}
    (hu : p.encode s depth i c.name = .ok u) (hv : p.encode t depth j c.name = .ok v) : u = v := by
  induction depth generalizing x y i j c u v with
  | zero => simp [encode] at hu
  | succ depth ih =>
    obtain ⟨front, parts, hfront, hparts, rfl⟩ := (encode_succ_eq_ok hp hc).mp hu
    obtain ⟨front', parts', hfront', hparts', rfl⟩ := (encode_succ_eq_ok hp hc).mp hv
    have hfronts : front = front' := by
      by_cases hpar : c.hasParent = true
      · rw [if_pos hpar] at hfront hfront'
        obtain ⟨q, hq, hqn, hin, -⟩ := hp.parent hc hpar
        exact ih hq h hi hj (List.Subset.trans hin hsub) (hqn ▸ hfront) (hqn ▸ hfront')
      · rw [if_neg hpar] at hfront hfront'
        rw [hfront, hfront']
    have hbelow : ∀ y z part part', s.Alike p.registry t y z →
        encodeRef s (p.encode s depth) (some y) = .ok part →
        encodeRef t (p.encode t depth) (some z) = .ok part' → part = part' := by
      intro y z part part' hyz hy hz
      obtain ⟨o, ho, hpart⟩ := encodeRef_eq_ok.mp hy
      obtain ⟨o', ho', hpart'⟩ := encodeRef_eq_ok.mp hz
      obtain ⟨d, hd, hdn⟩ := (hs.object y o ho).ready.class hp
      have hcls := (hyz.object ho ho').1
      exact ih hd hyz ho ho' (hdn ▸ List.Subset.refl _) (hdn ▸ hpart) (by rwa [hdn, hcls])
    rw [hfronts, forall₂_unique (fun a ha u v hu hv => encodeAction_alike hp hno hs ht h hi hj
      (hsub (hp.serialised_own hc ha)) hbelow hu hv) hparts hparts']

/-- Two objects that any operations made, and of which neither contains itself, have the same bytes
and the same size if they show the same: neither the values of transient attributes nor the stored
values of count fields are revealed. -/
theorem marshal_of_alike {source : Registry} {options : PlanOptions} (h : p.Compiled source options)
    (hno : p.registry.NoRedeclaration) (ops ops' : List Operation)
    (hi : (p.run ops).get? x = some i) (hj : (p.run ops').get? y = some j)
    (hx : (p.run ops).Acyclic x) (hy : (p.run ops').Acyclic y)
    (halike : (p.run ops).Alike p.registry (p.run ops') x y) :
    ∃ bytes n, p.marshal (p.run ops) i = .ok bytes ∧ p.marshal (p.run ops') j = .ok bytes ∧
      p.size (p.run ops) i = .ok n ∧ p.size (p.run ops') j = .ok n := by
  have hp := h.toPlanned
  have hs := run_sound hp ops
  have ht := run_sound hp ops'
  obtain ⟨u, hu⟩ := marshal_ok hp hs hi (hx.height hs (Store.get?_lt hi))
  obtain ⟨v, hv⟩ := marshal_ok hp ht hj (hy.height ht (Store.get?_lt hj))
  obtain rfl : u = v := by
    obtain ⟨c, hc, hcn⟩ := (hs.object x i hi).ready.class hp
    have hcls := (halike.object hi hj).1
    -- the two stores allow for different depths of plans, the greater one serves both
    have hu' := encode_mono (Nat.le_max_left _ (p.depthOver (p.run ops'))) hu
    have hv' := encode_mono (Nat.le_max_right (p.depthOver (p.run ops)) _) hv
    exact encode_alike hp hno hs ht hc halike hi hj (hcn ▸ List.Subset.refl _) (hcn ▸ hu')
      (by rwa [hcn, hcls])
  exact ⟨u, _, hu, hv, size_eq_wrap_length hp hs hno hi hu, size_eq_wrap_length hp ht hno hj hv⟩

end Program

namespace Survey

def replotted : List Operation :=
  plotted ++ [.setUint 0 "label" 77, .setUint 1 "label" 3, .setUint 2 "numPoints" 200,
    .setUint 2 "numMarks" 0]

theorem replotted_evaluated :
    (program.run plotted).size = (program.run replotted).size ∧
    ((List.range (program.run plotted).size).all fun x =>
      ((program.run plotted).get? x).elim false fun i =>
      ((program.run replotted).get? x).elim false fun j =>
        decide (j.className = i.className ∧ ∀ a ∈ program.registry.allAttributes i.className,
          a.hidden = false → i.AgreeAt j a.name a.slot)) = true ∧
    (program.run replotted).isRanked id = true ∧
    ((program.run plotted).get? 2).elim 0 (·.uint "numPoints") = 0 ∧
    ((program.run replotted).get? 2).elim 0 (·.uint "numPoints") = 200 := by
  decide +kernel

end Survey

/-- Two routes of which one has no true count and other labels. -/
theorem marshal_of_alike_replotted : ∃ i j,
    (Survey.program.run Survey.plotted).get? 2 = some i ∧
    (Survey.program.run Survey.replotted).get? 2 = some j ∧
    i.uint "numPoints" ≠ j.uint "numPoints" ∧ ∃ bytes n,
      Survey.program.marshal (Survey.program.run Survey.plotted) i = .ok bytes ∧
      Survey.program.marshal (Survey.program.run Survey.replotted) j = .ok bytes ∧
      Survey.program.size (Survey.program.run Survey.plotted) i = .ok n ∧
      Survey.program.size (Survey.program.run Survey.replotted) j = .ok n := by
  obtain ⟨hsize, hagree, hbelow, hcount, hcount'⟩ := Survey.replotted_evaluated
  obtain ⟨i, hi⟩ := Store.get?_of_lt Survey.plotted_evaluated.1
  obtain ⟨j, hj⟩ := Store.get?_of_lt (hsize ▸ Survey.plotted_evaluated.1)
  rw [hi, Option.elim_some] at hcount
  rw [hj, Option.elim_some] at hcount'
  refine ⟨i, j, hi, hj, by rw [hcount, hcount']; decide, ?_⟩
  exact Program.marshal_of_alike Survey.program_compiled Survey.program_noRedeclaration
    Survey.plotted Survey.replotted hi hj Survey.plotted_acyclic (Store.acyclic_of_isRanked hbelow 2)
    (Store.alike_of_all hsize hagree 2)

end PduCompiler
