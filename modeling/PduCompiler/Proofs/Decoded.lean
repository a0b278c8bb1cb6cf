import PduCompiler.Proofs.Reading

/-! Successful decoding fills the object, one attribute after the other: what an attribute writes
lies apart from what the attributes before it have filled. -/

namespace PduCompiler

open Decode

namespace Program

variable {p : Program} {I : Store → Nat → Attribute → Prop} {k : Nat}
  {below : Nat → String → Decode Unit}

theorem visit_eq {y : Nat} {name : String} {d : Decoding} (hy : d.store.class? y = some name) :
    visit below (some y) d = below y name d := by
  obtain ⟨obj, hobj, rfl⟩ := Option.map_eq_some_iff.mp hy
  simp only [visit, hobj]

theorem visit_ok {y : Nat} {name : String} {d d' : Decoding} (hy : d.store.class? y = some name)
    (h : visit below (some y) d = .ok () d') : below y name d = .ok () d' :=
  (visit_eq hy).symm.trans h

/-- What decoding into several objects inside another has filled so far. -/
structure Visited (p : Program) (I : Store → Nat → Attribute → Prop) (k : Nat) (name : String)
    (d : Decoding) (before : List Nat) (e : Decoding) : Prop where
  steps : p.Steps (fun z _ => (∃ y ∈ before, d.store.Owns y z) ∨ d.store.size ≤ z) d.store e.store
  filled : ∃ parts, d.Took parts.flatten e ∧ List.Forall₂ (p.Filled I
    (fun z _ => (∃ y ∈ before, d.store.Owns y z) ∨ d.store.size ≤ z ∧ z < e.store.size) e.store k
    · (p.registry.serialised name)) before parts

theorem Visited.keep (hp : p.Planned) (hI : p.Persists I) {x : Nat} {name : String}
    {d e e' : Decoding} (hs : p.Sound d.store) {before : List Nat} {y : Nat}
    (hin : ∀ z ∈ y :: before, d.store.Embeds x z) (hnd : y ∉ before)
    (hv : p.Visited I k name d before e)
    (hsteps : p.Steps (fun z _ => e.store.Owns y z ∨ e.store.size ≤ z) e.store e'.store) :
    ∃ parts, d.Took parts.flatten e ∧ List.Forall₂ (p.Filled I
      (fun z _ => (∃ y ∈ before, d.store.Owns y z) ∨ d.store.size ≤ z ∧ z < e.store.size) e'.store k
      · (p.registry.serialised name)) before parts := by
  have hlt := (hin y List.mem_cons_self).lt_size hs
  have hle := hv.steps.frame.size_le
  have hown : ∀ z, e.store.Owns y z → d.store.Owns y z :=
    fun z hz => hv.steps.frame.owns hs hlt hz
  obtain ⟨parts, htook, hparts⟩ := hv.filled
  refine ⟨parts, htook, hparts.imp fun w part hw =>
    hw.frame hI (hv.steps.sound hp hs) hsteps.frame ?_⟩
  rintro z _ (hR | hR) (hz | hz)
  · exact Store.Embeds.apart hs hin hnd hR (hown z hz)
  · obtain ⟨w, hw, hwz⟩ := hR
    have hzd := hwz.lt_size hs ((hin w (List.mem_cons_of_mem _ hw)).lt_size hs)
    omega
  · exact absurd ((hown z hz).lt_size hs hlt) (Nat.not_lt.mpr hR.1)
  · omega

theorem Visited.step (hp : p.Planned) (hI : p.Persists I) (hm : p.Moves below)
    (hf : p.Fills I k below) {x : Nat} {name : String} {d e e' : Decoding} (hs : p.Sound d.store)
    {before : List Nat} {y : Nat} (hin : ∀ z ∈ y :: before, d.store.Embeds x z)
    (hnd : y ∉ before) (hy : d.store.class? y = some name) (hidle : p.Idle I d.store y)
    (hv : p.Visited I k name d before e) (h : visit below (some y) e = .ok () e') :
    p.Visited I k name d (before ++ [y]) e' := by
  have hlt := Store.class?_lt hy
  have hse := hv.steps.sound hp hs
  have hframe := hv.steps.frame
  have hye := hframe.class? hy
  have hidle' : p.Idle I e.store y := by
    refine hidle.frame hI hs hframe hlt fun z f hz hw => ?_
    rcases hw with hw | hw
    · exact Store.Embeds.apart hs hin hnd hw hz
    · exact absurd (hz.lt_size hs hlt) (Nat.not_lt.mpr hw)
  have hok := visit_ok hye h
  have hsteps := hm.steps hse hye hok
  obtain ⟨b, htook, hfill⟩ := hf y name e e' hse hye hidle' hok
  have hown : ∀ z, e.store.Owns y z → d.store.Owns y z := fun z hz => hframe.owns hs hlt hz
  have hle := hframe.size_le
  have hle' := hsteps.frame.size_le
  obtain ⟨parts, htook', hparts⟩ := hv.keep hp hI hs hin hnd hsteps
  refine ⟨?_, parts ++ [b], by simpa using htook'.trans htook, List.rel_append ?_ (.cons ?_ .nil)⟩
  · refine (hv.steps.mono fun z _ hz => ?_).trans (hsteps.mono fun z _ hz => ?_)
    · exact hz.imp_left fun ⟨w, hw, hwz⟩ => ⟨w, List.mem_append_left _ hw, hwz⟩
    · exact hz.imp (fun hz => ⟨y, by simp, hown z hz⟩) (Nat.le_trans hle)
  · refine hparts.imp fun w part hw => hw.mono fun z _ hz => ?_
    exact hz.imp (fun ⟨w, hw, hwz⟩ => ⟨w, List.mem_append_left _ hw, hwz⟩)
      fun hz => ⟨hz.1, Nat.lt_of_lt_of_le hz.2 hle'⟩
  · refine hfill.mono fun z _ hz => hz.imp (fun hz => ⟨y, by simp, hown z hz⟩) fun hz => ?_
    exact ⟨Nat.le_trans hle hz.1, hz.2⟩

theorem visits_filled (hp : p.Planned) (hI : p.Persists I) (hm : p.Moves below)
    (hf : p.Fills I k below) {x : Nat} {name : String} {d d' : Decoding} (hs : p.Sound d.store)
    {refs : List Nat} (hin : ∀ y ∈ refs, d.store.Embeds x y) (hnd : refs.Nodup)
    (hcls : ∀ y ∈ refs, d.store.class? y = some name) (hidle : ∀ y ∈ refs, p.Idle I d.store y)
    (h : refs.forM (fun y => visit below (some y)) d = .ok () d') :
    p.Visited I k name d refs d' := by
  refine forM_ok (p.Visited I k name d) refs (fun before y after hl e e' hv he => ?_)
    ⟨.refl, [], .refl d, .nil⟩ h
  have hmem : ∀ z ∈ y :: before, z ∈ refs := by
    intro z hz
    rw [hl]
    rcases List.mem_cons.mp hz with rfl | hz <;> simp [*]
  have hnot : y ∉ before := fun hy => by
    rw [hl] at hnd
    exact (List.nodup_append.mp hnd).2.2 y hy y List.mem_cons_self rfl
  exact hv.step hp hI hm hf hs (fun z hz => hin z (hmem z hz)) hnot
    (hcls y (hmem y List.mem_cons_self)) (hidle y (hmem y List.mem_cons_self)) he

theorem Idle.of_build (hp : p.Planned) (hI : p.Persists I) {s : Store} (hs : p.Sound s)
    {name : String} {objects : Array Instance} {ref : Nat}
    (h : p.build s.size name = .ok (objects, ref)) : p.Idle I (s.append objects) ref := by
  obtain ⟨hg, hge, -, -⟩ := build_grown hp hs h
  exact fun z hz o ho => hI.build hs h z o (hz.of_grown hg hge) ho

theorem elements_filled (hp : p.Planned) (hI : p.Persists I) (hm : p.Moves below)
    (hf : p.Fills I k below) {name : String} {n : Nat} {d d' : Decoding} (hs : p.Sound d.store)
    {refs : List Nat}
    (h : elements (p.make name) (below · name) n d = .ok (refs, none) d') :
    refs.length = n ∧ p.Steps (fun z _ => d.store.size ≤ z) d.store d'.store ∧
      ∃ parts, d.Took parts.flatten d' ∧ List.Forall₂ (fun y part =>
        d'.store.class? y = some name ∧ p.Filled I
          (fun z _ => d.store.size ≤ z ∧ z < d'.store.size) d'.store k y
          (p.registry.serialised name) part) refs parts := by
  induction n generalizing d refs with
  | zero =>
    cases h
    exact ⟨rfl, .refl, [], .refl d', .nil⟩
  | succ n ih =>
    simp only [elements, bind_apply, outcome_apply, make] at h
    cases hb : p.build d.store.size name with
    | error e =>
      simp only [hb] at h
      cases h
    | ok made =>
      obtain ⟨objects, ref⟩ := made
      obtain ⟨hg, hge, hcls, -⟩ := build_grown hp hs hb
      have hgrow : p.Steps (fun z _ => d.store.size ≤ z) d.store (d.store.append objects) :=
        .single (.grow hb)
      simp only [hb, bind_apply, outcome_apply] at h
      cases hfill : below ref name { d with store := d.store.append objects } with
      | error e d₁ =>
        simp only [hfill] at h
        cases h
      | ok u d₁ =>
        have hsteps := hm.steps hg.sound hcls hfill
        have hs₁ := hsteps.sound hp hg.sound
        obtain ⟨b, htook, hfilled⟩ := hf ref name _ d₁ hg.sound hcls (.of_build hp hI hs hb) hfill
        have htook₁ : d.Took b d₁ := ⟨htook.rest, htook.offset⟩
        have hle := hg.size_le
        have hle₁ : (d.store.append objects).size ≤ d₁.store.size := hsteps.frame.size_le
        have hregion : ∀ z, ((d.store.append objects).Owns ref z ∨
            (d.store.append objects).size ≤ z ∧ z < d₁.store.size) →
            d.store.size ≤ z ∧ z < d₁.store.size := by
          rintro z (hz | hz)
          · exact ⟨hz.of_grown hg hge,
              Nat.lt_of_lt_of_le (hz.lt_size hg.sound (Store.class?_lt hcls)) hle₁⟩
          · exact ⟨Nat.le_trans hle hz.1, hz.2⟩
        obtain ⟨refs', error, d₂, hd₂, -, -⟩ :=
          elements_walks hp (hm anyField) name n d₁ hs₁ fun _ _ _ => trivial
        simp only [hfill, bind_apply, hd₂] at h
        cases h
        obtain ⟨hlen, hrest, parts, htook', hparts⟩ := ih hs₁ hd₂
        have hle₂ := hrest.frame.size_le
        refine ⟨by simp [hlen], ?_, b :: parts, ?_, .cons ⟨?_, ?_⟩ ?_⟩
        · refine (hgrow.trans (hsteps.mono fun z _ hz => ?_)).trans
            (hrest.mono fun z _ hz => ?_)
          · exact hz.elim (fun hz => hz.of_grown hg hge) (Nat.le_trans hle)
          · exact Nat.le_trans (Nat.le_trans hle hle₁) hz
        · rw [List.flatten_cons]
          exact htook₁.trans htook'
        · exact hrest.frame.class? (hsteps.frame.class? hcls)
        · refine (hfilled.frame hI hs₁ hrest.frame fun z _ hz hw => ?_).mono fun z _ hz => ?_
          · exact absurd (hregion z hz).2 (Nat.not_lt.mpr hw)
          · exact ⟨(hregion z hz).1, Nat.lt_of_lt_of_le (hregion z hz).2 hle₂⟩
        · refine hparts.imp fun y part hpart => ⟨hpart.1, hpart.2.mono fun z _ hz => ?_⟩
          exact ⟨Nat.le_trans (Nat.le_trans hle hle₁) hz.1, hz.2⟩

def Read (p : Program) (I : Store → Nat → Attribute → Prop) (k : Nat) (d : Decoding) (x : Nat)
    (a : Attribute) (d' : Decoding) : Prop :=
  ∃ part, d.Took part d' ∧ ∃ j, d'.store.get? x = some j ∧
    j.Part (fun name y part => d'.store.class? y = some name ∧ p.Filled I
      (fun z f => d.store.Zone x [a] z f ∨ d.store.size ≤ z ∧ z < d'.store.size) d'.store k y
      (p.registry.serialised name) part) a part

section

variable {c : ClassDescription} {a : Attribute} {x : Nat} {i : Instance} {d d' : Decoding}

theorem read_word (hk : p.registry.KindSound c a) (hi : d.store.get? x = some i) {q : Primitive}
    (hq : a.kind = some (.primitive q))
    (h : p.decodeAction below x i (Plan.wire a).unmarshal d = .ok () d') : p.Read I k d x a d' := by
  simp only [Registry.KindSound, hq] at hk
  rw [decodeAction_word p below x i d hq] at h
  cases hsc : scalar q.type d with
  | error e d₁ =>
    rw [hsc] at h
    cases h
  | ok w d₁ =>
    rw [hsc] at h
    cases h
    obtain ⟨b, hb, rfl, htook, hst⟩ := scalar_ok hk hsc
    refine ⟨b, ⟨htook.rest, htook.offset⟩, i.setPrim a.name (wordOf b), ?_, ?_⟩
    · simp [hst, Store.modify, hi, Store.get?_set]
    · simp [Instance.Part, hq, hb, Instance.uint, Instance.setPrim, Table.get?_set]

theorem read_array (hk : p.registry.KindSound c a) (hi : d.store.get? x = some i)
    (hh : i.Holds d.store a) {n : Int} {e : Element} (hq : a.kind = some (.fixedList n e))
    (he : e.isObject = false)
    (h : p.decodeAction below x i (Plan.wire a).unmarshal d = .ok () d') : p.Read I k d x a d' := by
  simp only [Registry.KindSound, hq, Registry.ElementSound, he, if_neg Bool.false_ne_true] at hk
  simp only [Instance.Holds, hq, he, if_neg Bool.false_ne_true] at hh
  obtain ⟨ws, error, d₁, hsc, -, hle⟩ := scalars_apply e.type n.toNat d
  rw [decodeAction_array p below x i d hq he hsc, if_neg (by omega), if_neg (by omega)] at h
  obtain ⟨rfl, rfl⟩ := failWith_ok h
  obtain ⟨hlen, hst, bytes, hblocks, htook⟩ := scalars_ok hk.2 hsc
  have hdrop : (i.array a.name).drop ws.length = [] := List.drop_eq_nil_of_le (by omega)
  refine ⟨bytes, ⟨htook.rest, htook.offset⟩, { i with arrays := i.arrays.set a.name ws }, ?_, ?_⟩
  · simp [hst, Store.modify, hi, Store.get?_set, hdrop]
  · simp only [Instance.Part, hq, he, if_neg Bool.false_ne_true, Instance.array, Table.get?_set,
      if_true, Option.getD_some]
    exact ⟨hlen, hblocks⟩

theorem read_words (hk : p.registry.KindSound c a) (hi : d.store.get? x = some i)
    {field : String} {e : Element} (hq : a.kind = some (.dynamicList field e))
    (he : e.isObject = false)
    (h : p.decodeAction below x i (Plan.wire a).unmarshal d = .ok () d') : p.Read I k d x a d' := by
  simp only [Registry.KindSound, hq, Registry.ElementSound, he, if_neg Bool.false_ne_true] at hk
  by_cases hc : maxListCount < (i.uint field).toNat
  · rw [decodeAction_tooMany p below x i d hq hc] at h
    cases h
  obtain ⟨ws, error, d₁, hsc, -, -⟩ := scalars_apply e.type (i.uint field).toNat d
  rw [decodeAction_words p below x i d hq he (Nat.not_lt.mp hc) hsc] at h
  obtain ⟨rfl, rfl⟩ := failWith_ok h
  obtain ⟨hlen, hst, bytes, hblocks, htook⟩ := scalars_ok hk.1 hsc
  refine ⟨bytes, ⟨htook.rest, htook.offset⟩,
    { i with primLists := i.primLists.set a.name ws }, ?_, ?_⟩
  · simp [hst, Store.modify, hi, Store.get?_set]
  · simp only [Instance.Part, hq, he, if_neg Bool.false_ne_true, Instance.primList,
      Table.get?_set, if_true, Option.getD_some]
    exact ⟨hlen.symm, hblocks⟩

theorem read_object (hm : p.Moves below) (hf : p.Fills I k below) (hs : p.Sound d.store)
    (hi : d.store.get? x = some i) (hh : i.Holds d.store a)
    (hidle : ∀ y ∈ i.inside a, p.Idle I d.store y) {name : String}
    (hq : a.kind = some (.object name))
    (h : p.decodeAction below x i (Plan.wire a).unmarshal d = .ok () d') : p.Read I k d x a d' := by
  simp only [Instance.Holds, hq] at hh
  obtain ⟨y, hy, hcls⟩ := hh
  have hin : y ∈ i.inside a := by simp [Instance.inside, hq, hy]
  rw [decodeAction_object p below x i d hq, hy] at h
  have hok := visit_ok hcls h
  have hframe := (hm.steps hs hcls hok).frame
  obtain ⟨b, htook, hfill⟩ := hf y name d d' hs hcls (hidle y hin) hok
  obtain ⟨j, hj, hkept⟩ := hframe.object x i hi
  refine ⟨b, htook, j, hj, ?_⟩
  simp only [Instance.Part, hq, Instance.object?, hkept.objects]
  refine ⟨y, hy, hframe.class? hcls, hfill.mono fun z f hz => hz.imp_left fun hz => ?_⟩
  exact ⟨i, hi, a, List.mem_cons_self, .inr ⟨y, hin, hz⟩⟩

theorem read_objects (hp : p.Planned) (hI : p.Persists I) (hm : p.Moves below)
    (hf : p.Fills I k below) (hs : p.Sound d.store) (hi : d.store.get? x = some i)
    (hh : i.Holds d.store a) (hidle : ∀ y ∈ i.inside a, p.Idle I d.store y) {n : Int} {e : Element}
    (hq : a.kind = some (.fixedList n e)) (he : e.isObject = true)
    (h : p.decodeAction below x i (Plan.wire a).unmarshal d = .ok () d') : p.Read I k d x a d' := by
  simp only [Instance.Holds, hq, he, if_true] at hh
  have hin : i.inside a = i.objectArray a.name := by simp [Instance.inside, hq, he]
  rw [decodeAction_objects p below x i d hq he] at h
  have hv := visits_filled hp hI hm hf hs
    (fun y hy => ⟨i, hi, Instance.inside_embedded (hin ▸ hy)⟩)
    (hs.objectArray_nodup hi a.name) hh.2 (fun y hy => hidle y (hin ▸ hy)) h
  obtain ⟨parts, htook, hparts⟩ := hv.filled
  obtain ⟨j, hj, hkept⟩ := hv.steps.frame.object x i hi
  refine ⟨parts.flatten, htook, j, hj, ?_⟩
  simp only [Instance.Part, hq, he, if_true, Instance.objectArray, hkept.objectArrays]
  refine ⟨parts, ((List.forall₂_and_left _ _).mpr ⟨hh.2, hparts⟩).imp
    fun y part hpart => ⟨hv.steps.frame.class? hpart.1, hpart.2.mono fun z f hz => ?_⟩, rfl⟩
  refine hz.imp_left ?_
  rintro ⟨w, hw, hwz⟩
  exact ⟨i, hi, a, List.mem_cons_self, .inr ⟨w, hin ▸ hw, hwz⟩⟩

theorem setList_steps {s : Store} (hi : s.get? x = some i)
    (ha : a ∈ p.registry.allAttributes i.className) {field : String} {e : Element}
    (hq : a.kind = some (.dynamicList field e)) (he : e.isObject = true) {refs : List Nat}
    (hrefs : ∀ y ∈ refs, y < s.size) : p.Steps (fun z f => z = x ∧ f = a.name) s
      (s.modify x fun j => { j with lists := j.lists.set a.name refs }) :=
  .modify hi ⟨rfl, rfl⟩ (.list refs hrefs ⟨a, ha, rfl, by simp [Attribute.slot, hq, he]⟩)

theorem read_list (hp : p.Planned) (hI : p.Persists I) (hm : p.Moves below)
    (hf : p.Fills I k below) (hs : p.Sound d.store) (hi : d.store.get? x = some i)
    (ha : a ∈ p.registry.allAttributes i.className) {field : String} {e : Element}
    (hq : a.kind = some (.dynamicList field e)) (he : e.isObject = true)
    (h : p.decodeAction below x i (Plan.wire a).unmarshal d = .ok () d') : p.Read I k d x a d' := by
  by_cases hc : maxListCount < (i.uint field).toNat
  · rw [decodeAction_tooMany p below x i d hq hc] at h
    cases h
  obtain ⟨refs, error, d₁, hel, -, hrefs⟩ := elements_walks hp (hm anyField) e.className
    (i.uint field).toNat d hs fun _ _ _ => trivial
  rw [decodeAction_list p below x i d hq he (Nat.not_lt.mp hc) hel] at h
  obtain ⟨rfl, rfl⟩ := failWith_ok h
  obtain ⟨hlen, hsteps, parts, htook, hparts⟩ := elements_filled hp hI hm hf hs hel
  have hx := Store.get?_lt hi
  obtain ⟨j, hj, hkept⟩ := hsteps.frame.object x i hi
  have hset := setList_steps hj (hkept.className ▸ ha) hq he hrefs
  have hfield : j.prims.get? field = i.prims.get? field :=
    hkept.agree field (Nat.not_le.mpr hx) .word
  refine ⟨parts.flatten, ⟨htook.rest, htook.offset⟩,
    { j with lists := j.lists.set a.name refs }, by simp [Store.modify, hj, Store.get?_set], ?_⟩
  simp only [Instance.Part, hq, he, if_true, Instance.list, Instance.uint, Table.get?_set,
    Option.getD_some, hfield]
  refine ⟨hlen.symm, parts, hparts.imp fun y part hpart =>
    ⟨hset.frame.class? hpart.1, ?_⟩, rfl⟩
  refine (hpart.2.frame hI (hsteps.sound hp hs) hset.frame fun z f hz hw => ?_).mono
    fun z f hz => .inr ⟨hz.1, Nat.lt_of_lt_of_le hz.2 hset.frame.size_le⟩
  exact absurd hx (Nat.not_lt.mpr (hw.1 ▸ hz.1))

theorem decodeAction_read (hp : p.Planned) (hno : p.registry.NoRedeclaration) (hI : p.Persists I)
    (hm : p.Moves below) (hf : p.Fills I k below) (hk : p.registry.KindSound c a)
    (hs : p.Sound d.store) (hi : d.store.get? x = some i)
    (ha : a ∈ p.registry.allAttributes i.className)
    (hidle : ∀ y ∈ i.inside a, p.Idle I d.store y)
    (h : p.decodeAction below x i (Plan.wire a).unmarshal d = .ok () d') : p.Read I k d x a d' := by
  have hh := hs.holds hp hno hi ha
  cases Attribute.form hk.ne_none with
  | word q hq => exact read_word hk hi hq h
  | object name hq => exact read_object hm hf hs hi hh hidle hq h
  | array n e hq he => exact read_array hk hi hh hq he h
  | objects n e hq he => exact read_objects hp hI hm hf hs hi hh hidle hq he h
  | words field e hq he => exact read_words hk hi hq he h
  | list field e hq he => exact read_list hp hI hm hf hs hi ha hq he h

end

/-- How far decoding into an object has come, with attributes that it leaves alone. -/
structure Reached (p : Program) (I : Store → Nat → Attribute → Prop) (k : Nat) (d : Decoding)
    (x : Nat) (hidden attrs : List Attribute) (e : Decoding) : Prop where
  steps : p.Steps (fun z f => d.store.Zone x attrs z f ∨ d.store.size ≤ z) d.store e.store
  filled : ∃ b, d.Took b e ∧ p.Filled I (fun z f => d.store.Zone x (attrs ++ hidden) z f ∨
    d.store.size ≤ z ∧ z < e.store.size) e.store k x attrs b

/-- What was filled so far rests on other names than the next attribute, or on objects that came
before it. -/
theorem Reached.keep (hp : p.Planned) (hI : p.Persists I) {d e e' : Decoding} {x : Nat}
    {i : Instance} (hs : p.Sound d.store) (hi : d.store.get? x = some i)
    {hidden attrs : List Attribute} {a : Attribute}
    (hnames : ∀ b ∈ attrs ++ hidden, a.name ≠ b.name) (hr : p.Reached I k d x hidden attrs e)
    (hsteps : p.Steps (fun z f => e.store.Zone x [a] z f ∨ e.store.size ≤ z) e.store e'.store) :
    ∃ b, d.Took b e ∧ p.Filled I (fun z f => d.store.Zone x (attrs ++ hidden) z f ∨
      d.store.size ≤ z ∧ z < e.store.size) e'.store k x attrs b := by
  have hle := hr.steps.frame.size_le
  have hzone : ∀ z f, e.store.Zone x [a] z f → d.store.Zone x [a] z f :=
    fun z f hz => hr.steps.frame.zone hs (Store.get?_lt hi) hz
  obtain ⟨b, htook, hfilled⟩ := hr.filled
  refine ⟨b, htook, hfilled.frame hI (hr.steps.sound hp hs) hsteps.frame ?_⟩
  rintro z f (hz | hz) (hw | hw)
  · exact Store.Zone.disjoint hs (by simpa using hnames) (hzone z f hw) hz
  · exact absurd (hz.lt_size hs) (Nat.not_lt.mpr (Nat.le_trans hle hw))
  · exact absurd ((hzone z f hw).lt_size hs) (Nat.not_lt.mpr hz.1)
  · exact absurd hz.2 (Nat.not_lt.mpr hw)

theorem Reached.step (hp : p.Planned) (hI : p.Persists I) {d e e' : Decoding} {x : Nat}
    {i : Instance} (hs : p.Sound d.store) (hi : d.store.get? x = some i)
    {hidden attrs : List Attribute} {a : Attribute}
    (hnames : ∀ b ∈ attrs ++ hidden, a.name ≠ b.name)
    (hcount : ∀ field, a.CountedBy field → ∃ b ∈ attrs, b.name = field)
    (hr : p.Reached I (k + 1) d x hidden attrs e)
    (hsteps : p.Steps (fun z f => e.store.Zone x [a] z f ∨ e.store.size ≤ z) e.store e'.store)
    (hread : p.Read I k e x a e') : p.Reached I (k + 1) d x hidden (attrs ++ [a]) e' := by
  have hle := hr.steps.frame.size_le
  have hle' := hsteps.frame.size_le
  have hzone : ∀ z f, e.store.Zone x [a] z f → d.store.Zone x [a] z f :=
    fun z f hz => hr.steps.frame.zone hs (Store.get?_lt hi) hz
  obtain ⟨b, htook, hkeep⟩ := hr.keep hp hI hs hi hnames hsteps
  obtain ⟨part, htook', j, hj, hpart⟩ := hread
  refine ⟨?_, b ++ part, htook.trans htook', ?_⟩
  · refine (hr.steps.mono fun z f hz => ?_).trans (hsteps.mono fun z f hz => ?_)
    · exact hz.imp_left fun hz => hz.mono (List.subset_append_left _ _)
    · exact hz.imp (fun hz => (hzone z f hz).mono (List.subset_append_right _ _))
        (Nat.le_trans hle)
  · have hmono : ∀ z f, (d.store.Zone x (attrs ++ hidden) z f ∨
        d.store.size ≤ z ∧ z < e.store.size) → (d.store.Zone x (attrs ++ [a] ++ hidden) z f ∨
        d.store.size ≤ z ∧ z < e'.store.size) := by
      intro z f hz
      refine hz.imp (fun hz => hz.mono fun b hb => ?_)
        fun hz => ⟨hz.1, Nat.lt_of_lt_of_le hz.2 hle'⟩
      rcases List.mem_append.mp hb with hb | hb <;> simp [hb]
    obtain ⟨j', hj', hfields, htrans, parts, hparts, rfl⟩ := hkeep.mono hmono
    cases Option.some.inj (hj.symm.trans hj')
    refine ⟨j, hj, fun b hb => ?_, htrans, parts ++ [part],
      List.rel_append hparts (.cons (hpart.below ?_) .nil), by simp⟩
    · rcases List.mem_append.mp hb with hb | hb
      · exact hfields b hb
      · rw [List.mem_singleton.mp hb]
        refine ⟨.inl ⟨i, hi, a, by simp, .inl ⟨rfl, rfl⟩⟩, fun field hc => ?_⟩
        obtain ⟨b, hb, rfl⟩ := hcount field hc
        exact (hfields b hb).1
    · rintro name y part ⟨hcls, hfill⟩
      refine ⟨hcls, hfill.mono fun z f hz => hz.imp (fun hz => ?_) fun hz => ?_⟩
      · exact (hzone z f hz).mono (by simp)
      · exact ⟨Nat.le_trans hle hz.1, hz.2⟩

theorem decodeStep_ok {x : Nat} {name : String} {act : Action} {d d' : Decoding} {i : Instance}
    (hi : d.store.get? x = some i) (h : p.decodeStep below x name act d = .ok () d') :
    p.decodeAction below x i act d = .ok () d' := by
  simp only [decodeStep, hi] at h
  cases ha : p.decodeAction below x i act d with
  | error e e' =>
    rw [ha] at h
    cases h
  | ok u e =>
    rw [ha] at h
    cases h
    rfl

theorem decodeInto_moves (hp : p.Planned) (depth : Nat) : p.Moves (p.decodeInto depth) :=
  fun _ y name d hs => decodeInto_walks hp depth y name d hs

theorem Reached.start {d : Decoding} {x : Nat} {i : Instance} (hi : d.store.get? x = some i)
    (hidle : p.Idle I d.store x) : p.Reached I (k + 1) d x
      ((p.registry.allAttributes i.className).filter (·.transient)) [] d := by
  refine ⟨.refl, [], .refl d, i, hi, by simp, fun a ha ht => ⟨hidle x .refl i hi a ha ht, ?_⟩,
    [], .nil, rfl⟩
  intro z f hz
  exact .inl (hz.mono (by simp [ha, ht]))

theorem Sound.names_apart (hp : p.Planned) (hno : p.registry.NoRedeclaration) {s : Store}
    (hs : p.Sound s) {x : Nat} {i : Instance} (hi : s.get? x = some i) {c : ClassDescription}
    (hc : c ∈ p.registry.classes)
    (hsub : p.registry.serialised c.name ⊆ p.registry.serialised i.className)
    {before after : List Attribute} {a : Attribute} (hl : c.serialised = before ++ a :: after) :
    ∀ b ∈ Plan.inherited c p.registry.serialised ++ before ++
      (p.registry.allAttributes i.className).filter (·.transient), a.name ≠ b.name := by
  have hser : p.registry.serialised c.name =
      Plan.inherited c p.registry.serialised ++ before ++ a :: after := by
    rw [hp.serialised_eq hc, hl, List.append_assoc]
  have hmem : ∀ b ∈ p.registry.serialised c.name, b ∈ p.registry.allAttributes i.className :=
    fun b hb => serialised_sub _ _ b (hsub hb)
  have ha : a ∈ p.registry.serialised c.name := by simp [hser]
  intro b hb heq
  have hinj : b ∈ p.registry.allAttributes i.className → a = b := fun hb =>
    List.inj_on_of_nodup_map (hs.names_nodup hp hno hi) (hmem a ha) hb heq
  rcases List.mem_append.mp hb with hb | hb
  · have hab := hinj (hmem b (hser ▸ List.mem_append_left _ hb))
    have hnd : (p.registry.serialised c.name).Nodup :=
      (hno.names_nodup hp.rooted hp.consistent c hc).of_map.filter _
    rw [hser] at hnd
    exact (List.nodup_append.mp hnd).2.2 b hb a List.mem_cons_self hab.symm
  · obtain ⟨hb, ht⟩ := List.mem_filter.mp hb
    have hta := (List.mem_filter.mp ha).2
    rw [hinj hb, ht] at hta
    exact Bool.false_ne_true hta

theorem Reached.idle (hI : p.Persists I) {d e : Decoding} {x : Nat} {i : Instance}
    (hs : p.Sound d.store) (hi : d.store.get? x = some i) (hidle : p.Idle I d.store x)
    {hidden attrs : List Attribute} {a : Attribute} (hnames : ∀ b ∈ attrs, a.name ≠ b.name)
    (hr : p.Reached I k d x hidden attrs e) : ∀ y ∈ i.inside a, p.Idle I e.store y := by
  intro y hy
  have hxy : d.store.Embeds x y := ⟨i, hi, Instance.inside_embedded hy⟩
  have hlt := hxy.lt_size hs
  refine Idle.frame hI hs hr.steps.frame hlt (fun z f hz hw => ?_)
    fun z hz => hidle z (.head hxy hz)
  rcases hw with hw | hw
  · have hza : d.store.Zone x [a] z f := ⟨i, hi, a, List.mem_cons_self, .inr ⟨y, hy, hz⟩⟩
    exact Store.Zone.disjoint hs (by simpa using hnames) hza hw
  · exact absurd (hz.lt_size hs hlt) (Nat.not_lt.mpr hw)

/-- Decoding by the plan of a class of an object comes to the end of its attributes. -/
def Reaching (p : Program) (I : Store → Nat → Attribute → Prop) (depth : Nat) : Prop :=
  ∀ {x : Nat} {c : ClassDescription} {i : Instance} {d d' : Decoding}, c ∈ p.registry.classes →
    p.Sound d.store → d.store.get? x = some i →
    p.registry.serialised c.name ⊆ p.registry.serialised i.className → p.Idle I d.store x →
    p.decodeInto depth x c.name d = .ok () d' →
    p.Reached I depth d x ((p.registry.allAttributes i.className).filter (·.transient))
      (p.registry.serialised c.name) d'

theorem Reaching.fills (hp : p.Planned) {depth : Nat} (h : p.Reaching I depth) :
    p.Fills I depth (p.decodeInto depth) := by
  intro y name e e' hse hcls hidle he
  obtain ⟨j, hj, rfl⟩ := Option.map_eq_some_iff.mp hcls
  obtain ⟨q, hq, hqn⟩ := (hse.object y j hj).ready.class hp
  rw [← hqn] at he ⊢
  obtain ⟨-, b, htook, hfill⟩ := h hq hse hj (hqn ▸ List.Subset.refl _) hidle he
  exact ⟨b, htook, hfill.mono fun z f hz => hz.imp_left Store.Zone.owns⟩

section

variable {depth x : Nat} {c : ClassDescription} {i : Instance} {d d₁ d' : Decoding}

theorem Reaching.inherited (hp : p.Planned) (h : p.Reaching I depth) (hc : c ∈ p.registry.classes)
    (hs : p.Sound d.store) (hi : d.store.get? x = some i)
    (hsub : p.registry.serialised c.name ⊆ p.registry.serialised i.className)
    (hidle : p.Idle I d.store x)
    (hd : (if c.hasParent then p.decodeStep (p.decodeInto depth) x c.name
      { op := .super, className := c.parent } else pure ()) d = .ok () d₁) :
    p.Reached I (depth + 1) d x ((p.registry.allAttributes i.className).filter (·.transient))
      (Plan.inherited c p.registry.serialised) d₁ := by
  by_cases hpar : c.hasParent = true
  · rw [if_pos hpar] at hd
    obtain ⟨q, hq, hqn, hin, -⟩ := hp.parent hc hpar
    have hok : p.decodeInto depth x q.name d = .ok () d₁ := by
      rw [hqn]
      exact decodeStep_ok hi hd
    obtain ⟨hsteps, b, htook, hfill⟩ := h hq hs hi (List.Subset.trans hin hsub) hidle hok
    rw [Plan.inherited, if_pos hpar, ← hqn]
    exact ⟨hsteps, b, htook, hfill.succ⟩
  · rw [if_neg hpar] at hd
    cases hd
    rw [Plan.inherited, if_neg hpar]
    exact .start hi hidle

theorem decodeAction_zone (hp : p.Planned) {e e' : Decoding} {a : Attribute}
    (hc : c ∈ p.registry.classes) (ha : a ∈ c.serialised) (hs : p.Sound e.store)
    (hi : e.store.get? x = some i) (hall : a ∈ p.registry.allAttributes i.className)
    (he : after (p.decodeAction (p.decodeInto depth) x i (Plan.wire a).unmarshal) e = e') :
    p.Steps (fun z f => e.store.Zone x [a] z f ∨ e.store.size ≤ z) e.store e'.store := by
  rw [← he]
  exact decodeAction_walks hp (decodeInto_walks hp depth)
    (hp.kind_ne_none hc (List.mem_filter.mp ha).1)
    ⟨hs, ⟨i, hi, by simpa using hall⟩, fun z f hz => .inl (hz.zone ⟨i, hi⟩), fun z f hz => .inr hz⟩
    hi

theorem Reached.attributes (hp : p.Planned) (hno : p.registry.NoRedeclaration)
    (hI : p.Persists I) (h : p.Reaching I depth) (hc : c ∈ p.registry.classes)
    (hs : p.Sound d.store) (hi : d.store.get? x = some i)
    (hsub : p.registry.serialised c.name ⊆ p.registry.serialised i.className)
    (hidle : p.Idle I d.store x)
    (hfront : p.Reached I (depth + 1) d x
      ((p.registry.allAttributes i.className).filter (·.transient))
      (Plan.inherited c p.registry.serialised) d₁)
    {own rest : List Attribute} (hown : c.serialised = own ++ rest)
    (hd : own.forM (fun a =>
      p.decodeStep (p.decodeInto depth) x c.name (Plan.wire a).unmarshal) d₁ = .ok () d') :
    p.Reached I (depth + 1) d x ((p.registry.allAttributes i.className).filter (·.transient))
      (Plan.inherited c p.registry.serialised ++ own) d' := by
  refine forM_ok (fun before e => p.Reached I (depth + 1) d x
    ((p.registry.allAttributes i.className).filter (·.transient))
    (Plan.inherited c p.registry.serialised ++ before) e) own ?_ (by simpa using hfront) hd
  intro before a later hl e e' hr he
  have hl : c.serialised = before ++ a :: (later ++ rest) := by simp [hown, hl]
  have ha : a ∈ c.serialised := by simp [hl]
  have hall := serialised_sub _ _ a (hsub (hp.serialised_own hc ha))
  have hnames := hs.names_apart hp hno hi hc hsub hl
  have hse := hr.steps.sound hp hs
  obtain ⟨j, hj, hkept⟩ := hr.steps.frame.object x i hi
  have hok := decodeStep_ok hj he
  have hafter : after (p.decodeAction (p.decodeInto depth) x j (Plan.wire a).unmarshal) e = e' := by
    rw [after, hok]
  rw [← hkept.className] at hall
  rw [← List.append_assoc]
  refine hr.step hp hI hs hi hnames (fun field hf => ?_)
    (decodeAction_zone hp hc ha hse hj hall hafter) ?_
  · obtain ⟨b, hb, -, hbn, -⟩ := hp.count_before hc hl hf
    exact ⟨b, List.mem_append_right _ hb, hbn⟩
  · refine decodeAction_read hp hno hI (decodeInto_moves hp depth) (h.fills hp)
      (hp.consistent.kinds c hc a (List.mem_filter.mp ha).1) hse hj hall (fun y hy => ?_) hok
    rw [hkept.inside] at hy
    exact hr.idle hI hs hi hidle (fun b hb => hnames b (List.mem_append_left _ hb)) y hy

end

theorem decodeInto_reached (hp : p.Planned) (hno : p.registry.NoRedeclaration)
    (hI : p.Persists I) (depth : Nat) : p.Reaching I depth := by
  induction depth with
  | zero =>
    intro x c i d d' _ _ _ _ _ h
    cases h
  | succ depth ih =>
    intro x c i d d' hc hs hi hsub hidle h
    rw [decodeInto_class hp hc, bind_apply] at h
    generalize hfront : (if c.hasParent then p.decodeStep (p.decodeInto depth) x c.name
      { op := .super, className := c.parent } else pure ()) d = front at h
    cases front with
    | error e e' => cases h
    | ok u d₁ =>
      rw [hp.serialised_eq hc]
      exact (ih.inherited hp hc hs hi hsub hidle hfront).attributes hp hno hI ih hc hs hi hsub hidle
        (List.append_nil _).symm h

theorem unmarshal_filled (hp : p.Planned) (hno : p.registry.NoRedeclaration) (hI : p.Persists I)
    {s t : Store} (hs : p.Sound s) {x n : Nat} {i : Instance} (hi : s.get? x = some i)
    (hidle : p.Idle I s x) {data : List UInt8} (h : p.unmarshal s x data = (t, n, none)) :
    p.Sound t ∧ t.class? x = some i.className ∧ ∃ b rest, data = b ++ rest ∧ n = b.length ∧
      ∃ R k, p.Filled I R t k x (p.registry.serialised i.className) b := by
  simp only [unmarshal, hi] at h
  cases hd : p.decodeInto (p.decodeDepth s data) x i.className { store := s, rest := data } with
  | error e d => simp [hd] at h
  | ok u d =>
    simp only [hd, Prod.mk.injEq, and_true] at h
    obtain ⟨rfl, rfl⟩ := h
    obtain ⟨c, hc, hcn⟩ := (hs.object x i hi).ready.class hp
    rw [← hcn] at hd ⊢
    obtain ⟨hsteps, b, htook, hfill⟩ := decodeInto_reached hp hno hI _ hc hs hi
      (hcn ▸ List.Subset.refl _) hidle hd
    refine ⟨hsteps.sound hp hs, hsteps.frame.class? (by simp [Store.class?, hi, hcn]), b, d.rest,
      htook.rest, ?_, _, _, hfill⟩
    simpa using htook.offset

end Program

end PduCompiler
