import PduCompiler.Machine.Decode
import PduCompiler.Proofs.Mutation

/-! Decoding as a run of small steps. Whether it succeeds or fails, decoding into an object writes
only serialised fields of that object, of objects inside it, and of new objects. -/

namespace PduCompiler

namespace Decode

/-- The state after a computation, whether it failed or not. -/
def after {α : Type} (x : Decode α) (d : Decoding) : Decoding :=
  match x d with
  | .ok _ d' => d'
  | .error _ d' => d'

theorem bind_apply {α β : Type} (x : Decode α) (f : α → Decode β) (d : Decoding) :
    (x >>= f) d = match x d with
      | .ok a d' => f a d'
      | .error e d' => .error e d' := by
  simp only [bind, EStateM.bind]
  cases x d <;> rfl

theorem outcome_apply {α : Type} (x : Decode α) (d : Decoding) :
    outcome x d = match x d with
      | .ok a d' => .ok (.ok a) d'
      | .error e d' => .ok (.error e) d' := rfl

theorem pure_apply {α : Type} (a : α) (d : Decoding) : (pure a : Decode α) d = .ok a d := rfl

theorem instance?_apply (ref : Nat) (d : Decoding) :
    instance? ref d = .ok (d.store.get? ref) d := rfl

theorem modifyInstance_apply (ref : Nat) (change : Instance → Instance) (d : Decoding) :
    modifyInstance ref change d = .ok () { d with store := d.store.modify ref change } := rfl

theorem failWith_apply (error : Option MachineError) (d : Decoding) :
    failWith error d = match error with
      | none => .ok () d
      | some e => .error e d := by
  cases error <;> rfl

theorem count_apply (i : Instance) (field : String) (d : Decoding) :
    count i field d = if maxListCount < (i.uint field).toNat
      then .error (.countTooLarge field (i.uint field).toNat) d
      else .ok (i.uint field).toNat d := by
  unfold count
  split <;> rfl

theorem scalar_store (t : TypeName) (d : Decoding) : (after (scalar t) d).store = d.store := by
  unfold after scalar
  cases t.scalar? with
  | none => rfl
  | some s =>
    simp only
    split
    · next h =>
      split at h
      · cases h
      · cases h
        rfl
    · next h =>
      split at h
      · cases h
        rfl
      · cases h

theorem scalars_apply (t : TypeName) (n : Nat) (d : Decoding) :
    ∃ ws error d', scalars t n d = .ok (ws, error) d' ∧ d'.store = d.store ∧ ws.length ≤ n := by
  induction n generalizing d with
  | zero => exact ⟨[], none, d, rfl, rfl, Nat.le_refl _⟩
  | succ n ih =>
    have hs := scalar_store t d
    unfold after at hs
    simp only [scalars, bind_apply, outcome_apply]
    cases h : scalar t d with
    | error e d₁ => exact ⟨[0], some e, d₁, by simp [pure_apply], by simpa [h] using hs, by simp⟩
    | ok w d₁ =>
      obtain ⟨ws, error, d₂, hd₂, hst, hlen⟩ := ih d₁
      refine ⟨w :: ws, error, d₂, by simp [hd₂, bind_apply, pure_apply], ?_, by simpa using hlen⟩
      rw [hst]
      simpa [h] using hs

end Decode

namespace Program

open Decode

def visit (below : Nat → String → Decode Unit) (ref : Option Nat) : Decode Unit := fun d =>
  match ref with
  | none => .error .noObject d
  | some y =>
    match d.store.get? y with
    | none => .error .noObject d
    | some obj => below y obj.className d

section

variable (p : Program) (below : Nat → String → Decode Unit) (x : Nat) (i : Instance)
  {a : Attribute} (d : Decoding)

theorem decodeAction_word {q : Primitive} (h : a.kind = some (.primitive q)) :
    p.decodeAction below x i (Plan.wire a).unmarshal d =
      match scalar q.type d with
      | .ok w d' => .ok () { d' with store := d'.store.modify x (·.setPrim a.name w) }
      | .error e d' => .error e { d' with store := d'.store.modify x (·.setPrim a.name 0) } := by
  simp only [Plan.wire, Plan.wireActions, h, Except.toOption, Option.getD_some, decodeAction,
    bind_apply, outcome_apply]
  cases scalar q.type d <;> rfl

theorem visit_apply (y : Option Nat) :
    (do
      let some ref := y | throw .noObject
      let some obj ← instance? ref | throw .noObject
      below ref obj.className : Decode Unit) d = visit below y d := by
  cases y with
  | none => rfl
  | some y =>
    simp only [bind_apply, instance?_apply, visit]
    cases d.store.get? y <;> rfl

theorem decodeAction_object {name : String} (h : a.kind = some (.object name)) :
    p.decodeAction below x i (Plan.wire a).unmarshal d = visit below (i.object? a.name) d := by
  simp only [Plan.wire, Plan.wireActions, h, Except.toOption, Option.getD_some, decodeAction]
  exact visit_apply below d _

theorem decodeAction_objects {n : Int} {e : Element} (h : a.kind = some (.fixedList n e))
    (he : e.isObject = true) :
    p.decodeAction below x i (Plan.wire a).unmarshal d =
      (i.objectArray a.name).forM (fun y => visit below (some y)) d := by
  simp only [Plan.wire, Plan.wireActions, h, he, if_true, Except.toOption, Option.getD_some,
    decodeAction]
  have hf : (fun y => visit below (some y)) = fun y => (do
      let some obj ← instance? y | throw .noObject
      below y obj.className : Decode Unit) := by
    funext y d
    exact (visit_apply below d (some y)).symm
  exact (congrFun (congrArg (fun step => (i.objectArray a.name).forM step) hf) d).symm

theorem decodeAction_array {n : Int} {e : Element} (h : a.kind = some (.fixedList n e))
    (he : e.isObject = false) {ws : List Word} {error : Option MachineError} {d' : Decoding}
    (hs : scalars e.type n.toNat d = .ok (ws, error) d') :
    p.decodeAction below x i (Plan.wire a).unmarshal d =
      if (i.array a.name).length < ws.length then .error .outOfBounds d'
      else failWith error (if n.toNat = 0 then d' else { d' with
        store := d'.store.modify x fun j => { j with
          arrays := j.arrays.set a.name (ws ++ (i.array a.name).drop ws.length) } }) := by
  simp only [Plan.wire, Plan.wireActions, h, he, if_neg Bool.false_ne_true, Except.toOption,
    Option.getD_some, decodeAction, bind_apply, hs]
  by_cases hb : (i.array a.name).length < ws.length
  · rw [if_pos hb, if_pos hb]
    rfl
  · rw [if_neg hb, if_neg hb]
    by_cases hn : n.toNat = 0
    · rw [if_pos hn, if_neg (not_not.mpr hn)]
    · rw [if_neg hn, if_pos hn]
      rfl

theorem decodeAction_tooMany {field : String} {e : Element}
    (h : a.kind = some (.dynamicList field e)) (hc : maxListCount < (i.uint field).toNat) :
    p.decodeAction below x i (Plan.wire a).unmarshal d =
      .error (.countTooLarge field (i.uint field).toNat) d := by
  cases he : e.isObject <;>
    simp [Plan.wire, Plan.wireActions, h, he, Except.toOption, decodeAction, bind_apply,
      count_apply, hc]

theorem decodeAction_words {field : String} {e : Element}
    (h : a.kind = some (.dynamicList field e)) (he : e.isObject = false)
    (hc : (i.uint field).toNat ≤ maxListCount) {ws : List Word} {error : Option MachineError}
    {d' : Decoding} (hs : scalars e.type (i.uint field).toNat d = .ok (ws, error) d') :
    p.decodeAction below x i (Plan.wire a).unmarshal d = failWith error { d' with
      store := d'.store.modify x fun j => { j with primLists := j.primLists.set a.name ws } } := by
  simp only [Plan.wire, Plan.wireActions, h, he, if_neg Bool.false_ne_true, if_true,
    Except.toOption, Option.getD_some, decodeAction, bind_apply, count_apply,
    if_neg (Nat.not_lt.mpr hc), hs, modifyInstance_apply]

theorem decodeAction_list {field : String} {e : Element}
    (h : a.kind = some (.dynamicList field e)) (he : e.isObject = true)
    (hc : (i.uint field).toNat ≤ maxListCount) {refs : List Nat} {error : Option MachineError}
    {d' : Decoding}
    (hs : elements (p.make e.className) (below · e.className) (i.uint field).toNat d =
      .ok (refs, error) d') :
    p.decodeAction below x i (Plan.wire a).unmarshal d = failWith error { d' with
      store := d'.store.modify x fun j => { j with lists := j.lists.set a.name refs } } := by
  simp only [Plan.wire, Plan.wireActions, h, he, if_true,
    Except.toOption, Option.getD_some, decodeAction, bind_apply, count_apply,
    if_neg (Nat.not_lt.mpr hc), hs, modifyInstance_apply]

def decodeStep (className : String) (act : Action) : Decode Unit := fun d =>
  match d.store.get? x with
  | none => .error .noObject d
  | some i =>
    match p.decodeAction below x i act d with
    | .ok () d' => .ok () d'
    | .error e d' => .error (.within className act.attr e) d'

end

theorem decodeInto_succ (p : Program) (depth x : Nat) (name : String) :
    p.decodeInto (depth + 1) x name = match p.plan? name with
      | none => throw (.unknownClass name)
      | some plan => plan.unmarshal.forM (p.decodeStep (p.decodeInto depth) x name) := by
  rw [decodeInto]
  cases p.plan? name with
  | none => rfl
  | some plan =>
    refine congrArg (fun step => plan.unmarshal.forM step) ?_
    funext act d
    simp only [decodeStep, bind_apply, instance?_apply]
    cases d.store.get? x with
    | none => rfl
    | some i =>
      simp only [bind_apply, outcome_apply]
      cases p.decodeAction (p.decodeInto depth) x i act d <;> rfl

theorem decodeInto_class {p : Program} (hp : p.Planned) {c : ClassDescription}
    (hc : c ∈ p.registry.classes) (depth x : Nat) :
    p.decodeInto (depth + 1) x c.name =
      ((if c.hasParent then p.decodeStep (p.decodeInto depth) x c.name
        { op := .super, className := c.parent } else pure ()) >>= fun _ =>
      c.serialised.forM fun a =>
        p.decodeStep (p.decodeInto depth) x c.name (Plan.wire a).unmarshal) := by
  obtain ⟨plan, hplan, hf⟩ := hp.plan c hc
  have hmap : ∀ (l : List Attribute) (step : Action → Decode Unit),
      (l.map fun a => (Plan.wire a).unmarshal).forM step =
        l.forM fun a => step (Plan.wire a).unmarshal := by
    intro l step
    induction l with
    | nil => rfl
    | cons a l ih => exact congrArg _ (funext fun _ => ih)
  rw [decodeInto_succ, hplan]
  simp only [hf.unmarshal, Plan.superStep]
  by_cases hpar : c.hasParent = true
  · rw [if_pos hpar, if_pos hpar, ← hmap]
    rfl
  · rw [if_neg hpar, if_neg hpar, ← hmap]
    rfl

end Program

def Instance.inside (i : Instance) (a : Attribute) : List Nat :=
  match a.kind with
  | some (.object _) => (i.object? a.name).toList
  | some (.fixedList _ e) => if e.isObject then i.objectArray a.name else []
  | _ => []

theorem Instance.inside_embedded {i : Instance} {a : Attribute} {y : Nat} (h : y ∈ i.inside a) :
    y ∈ i.embedded := by
  unfold inside at h
  split at h
  · exact object?_mem_embedded (by simpa using h)
  · split at h
    · exact objectArray_mem_embedded h
    · simp at h
  · simp at h

theorem Instance.Kept.inside {i j : Instance} {writes : String → Prop} (h : i.Kept writes j)
    (a : Attribute) : j.inside a = i.inside a := by
  simp only [Instance.inside, object?, objectArray, h.objects, h.objectArrays]

namespace Store

/-- The fields that decoding some attributes of an object can reach without new objects: those of
the attributes, and the serialised ones of objects inside. -/
inductive Touches (r : Registry) (s : Store) : Nat → List Attribute → Nat → String → Prop
  | field {x : Nat} {attrs : List Attribute} {a : Attribute} (ha : a ∈ attrs) :
      Touches r s x attrs x a.name
  | inside {x y z : Nat} {attrs : List Attribute} {a : Attribute} {i : Instance}
      {name field : String} (hi : s.get? x = some i) (ha : a ∈ attrs) (hy : y ∈ i.inside a)
      (hn : s.class? y = some name) (h : Touches r s y (r.serialised name) z field) :
      Touches r s x attrs z field

theorem Touches.mono {r : Registry} {s : Store} {x z : Nat} {attrs attrs' : List Attribute}
    {field : String} (h : Touches r s x attrs z field) (hsub : attrs ⊆ attrs') :
    Touches r s x attrs' z field := by
  cases h with
  | field ha => exact .field (hsub ha)
  | inside hi ha hy hn h => exact .inside hi (hsub ha) hy hn h

theorem Frame.touches {p : Program} {s t : Store} {writes : Nat → String → Prop}
    (hf : Frame writes s t) (hs : p.Sound s) {r : Registry} {x z : Nat}
    {attrs : List Attribute} {field : String} (hx : x < s.size)
    (h : Touches r t x attrs z field) : Touches r s x attrs z field := by
  induction h with
  | field ha => exact .field ha
  | @inside x y z attrs a j name field hj ha hy hn _ ih =>
    obtain ⟨i, hi⟩ := get?_of_lt hx
    obtain ⟨j', hj', hk⟩ := hf.object x i hi
    cases Option.some.inj (hj.symm.trans hj')
    rw [hk.inside] at hy
    have hlt := (hs.object x i hi).draft.embedded_lt y (Instance.inside_embedded hy)
    obtain ⟨o, ho⟩ := get?_of_lt hlt
    have hc : s.class? y = some o.className := by simp [Store.class?, ho]
    cases Option.some.inj (hn.symm.trans (hf.class? hc))
    exact .inside hi ha hy hc (ih hlt)

theorem Touches.of_grown {p : Program} {s t : Store} (hg : p.Grown s t) {r : Registry} {x z : Nat}
    {attrs : List Attribute} {field : String} (hx : s.size ≤ x)
    (h : Touches r t x attrs z field) : s.size ≤ z := by
  induction h with
  | field ha => exact hx
  | @inside x y z attrs a i name field hi ha hy hn _ ih =>
    refine ih ?_
    obtain ⟨⟨objects, rfl, ho⟩, -⟩ := hg
    rw [get?_append_right hx] at hi
    exact (ho i (Array.mem_of_getElem? hi)).1 y (Instance.inside_embedded hy)

end Store

namespace Program

open Decode

/-- Decoding some attributes of an object stays within what may be written. -/
structure Scope (p : Program) (writes : Nat → String → Prop) (s : Store) (x : Nat)
    (attrs : List Attribute) : Prop where
  sound : p.Sound s
  declared : ∃ i, s.get? x = some i ∧ ∀ a ∈ attrs, a ∈ p.registry.allAttributes i.className
  touch : ∀ z field, Store.Touches p.registry s x attrs z field → writes z field
  new : ∀ z field, s.size ≤ z → writes z field

variable {p : Program} {writes : Nat → String → Prop} {s t : Store} {x : Nat}
  {attrs : List Attribute}

theorem Scope.sub {attrs' : List Attribute} (h : p.Scope writes s x attrs)
    (hsub : attrs' ⊆ attrs) : p.Scope writes s x attrs' := by
  obtain ⟨i, hi, ha⟩ := h.declared
  exact ⟨h.sound, ⟨i, hi, fun a h => ha a (hsub h)⟩, fun z f ht => h.touch z f (ht.mono hsub),
    h.new⟩

theorem Scope.steps (hp : p.Planned) (h : p.Scope writes s x attrs) (ht : p.Steps writes s t) :
    p.Scope writes t x attrs := by
  obtain ⟨i, hi, ha⟩ := h.declared
  obtain ⟨j, hj, hk⟩ := ht.frame.object x i hi
  refine ⟨ht.sound hp h.sound, ⟨j, hj, by rwa [hk.className]⟩, fun z f hz => ?_, fun z f hz => ?_⟩
  · exact h.touch z f (ht.frame.touches h.sound (Store.get?_lt hi) hz)
  · exact h.new z f (Nat.le_trans ht.frame.size_le hz)

theorem serialised_sub (r : Registry) (name : String) :
    ∀ a ∈ r.serialised name, a ∈ r.allAttributes name := fun _ ha => (List.mem_filter.mp ha).1

theorem Scope.inside (h : p.Scope writes s x attrs) {i obj : Instance} {a : Attribute} {y : Nat}
    (hi : s.get? x = some i) (ha : a ∈ attrs) (hy : y ∈ i.inside a) (hobj : s.get? y = some obj) :
    p.Scope writes s y (p.registry.serialised obj.className) := by
  refine ⟨h.sound, ⟨obj, hobj, serialised_sub _ _⟩, fun z f hz => h.touch z f ?_, h.new⟩
  exact .inside hi ha hy (by simp [Store.class?, hobj]) hz

theorem Scope.element (hp : p.Planned) (hs : p.Sound s) (hnew : ∀ z f, s.size ≤ z → writes z f)
    {name : String} {objects : Array Instance} {ref : Nat}
    (h : p.build s.size name = .ok (objects, ref)) :
    p.Scope writes (s.append objects) ref (p.registry.serialised name) := by
  obtain ⟨hg, hge, hc, -⟩ := build_grown hp hs h
  obtain ⟨i, hi, rfl⟩ := Option.map_eq_some_iff.mp hc
  exact ⟨hg.sound, ⟨i, hi, serialised_sub _ _⟩, fun z f hz => hnew z f (hz.of_grown hg hge),
    fun z f hz => hnew z f (Nat.le_trans hg.size_le hz)⟩

/-- An object is open to decoding an attribute of it, for which it holds objects inside. -/
structure Opened (p : Program) (writes : Nat → String → Prop) (s : Store) (x : Nat)
    (a : Attribute) (refs : List Nat) : Prop where
  scope : p.Scope writes s x [a]
  inside : ∃ i, s.get? x = some i ∧ i.inside a = refs

theorem Opened.steps (hp : p.Planned) {a : Attribute} {refs : List Nat}
    (h : p.Opened writes s x a refs) (ht : p.Steps writes s t) : p.Opened writes t x a refs := by
  obtain ⟨i, hi, hin⟩ := h.inside
  obtain ⟨j, hj, hk⟩ := ht.frame.object x i hi
  exact ⟨h.scope.steps hp ht, j, hj, (hk.inside a).trans hin⟩

theorem Opened.object {a : Attribute} {refs : List Nat} (h : p.Opened writes s x a refs) {y : Nat}
    (hy : y ∈ refs) {obj : Instance} (hobj : s.get? y = some obj) :
    p.Scope writes s y (p.registry.serialised obj.className) := by
  obtain ⟨i, hi, rfl⟩ := h.inside
  exact h.scope.inside hi List.mem_cons_self hy hobj

def Walks (p : Program) (writes : Nat → String → Prop) {α : Type} (c : Decode α) (d : Decoding) :
    Prop := p.Steps writes d.store (after c d).store

theorem Walks.forM {β : Type} {step : β → Decode Unit} (Inv : Store → Prop)
    (hinv : ∀ s t, Inv s → p.Steps writes s t → Inv t) (l : List β)
    (hstep : ∀ b ∈ l, ∀ d : Decoding, Inv d.store → p.Walks writes (step b) d) (d : Decoding)
    (hd : Inv d.store) : p.Walks writes (l.forM step) d := by
  induction l generalizing d with
  | nil => exact .refl
  | cons b l ih =>
    have hb := hstep b List.mem_cons_self d hd
    unfold Walks after at hb ⊢
    rw [show (b :: l).forM step = (step b >>= fun _ => l.forM step) from rfl, bind_apply]
    cases h : step b d with
    | error e d' => simpa only [h] using hb
    | ok u d' =>
      simp only [h] at hb ⊢
      exact hb.trans (ih (fun c hc => hstep c (List.mem_cons_of_mem _ hc)) d' (hinv _ _ hd hb))

theorem Steps.modify {i : Instance} {name : String} {change : Instance → Instance}
    (hi : s.get? x = some i) (hw : writes x name)
    (h : i.Change p.registry s name (change i)) : p.Steps writes s (s.modify x change) := by
  rw [Store.modify, hi]
  exact .single (.change hi hw h)

theorem visit_walks {below : Nat → String → Decode Unit}
    (hbelow : ∀ y name d, p.Scope writes d.store y (p.registry.serialised name) →
      p.Walks writes (below y name) d) {a : Attribute} {refs : List Nat} {d : Decoding}
    (hs : p.Opened writes d.store x a refs) {y : Option Nat} (hy : ∀ z, y = some z → z ∈ refs) :
    p.Walks writes (visit below y) d := by
  cases y with
  | none => exact .refl
  | some z =>
    have hb := hbelow z
    unfold Walks after visit at *
    cases hz : d.store.get? z with
    | none => simp only [hz]; exact .refl
    | some obj =>
      simp only [hz]
      exact hb _ d (hs.object (hy z rfl) hz)

theorem elements_walks (hp : p.Planned) {below : Nat → String → Decode Unit}
    (hbelow : ∀ y name d, p.Scope writes d.store y (p.registry.serialised name) →
      p.Walks writes (below y name) d) (name : String) (n : Nat) (d : Decoding)
    (hs : p.Sound d.store) (hnew : ∀ z f, d.store.size ≤ z → writes z f) :
    ∃ refs error d', elements (p.make name) (below · name) n d = .ok (refs, error) d' ∧
      p.Steps writes d.store d'.store ∧ ∀ y ∈ refs, y < d'.store.size := by
  induction n generalizing d with
  | zero => exact ⟨[], none, d, rfl, .refl, by simp⟩
  | succ n ih =>
    simp only [elements, bind_apply, outcome_apply, make]
    cases hb : p.build d.store.size name with
    | error e => exact ⟨[], some e, d, by simp [pure_apply], .refl, by simp⟩
    | ok made =>
      obtain ⟨objects, ref⟩ := made
      have hscope := Scope.element hp hs hnew hb
      have hgrow : p.Steps writes d.store (d.store.append objects) := .single (.grow hb)
      have hfill := hbelow ref name { d with store := d.store.append objects } hscope
      obtain ⟨i, hi, -⟩ := hscope.declared
      unfold Walks after at hfill
      simp only [bind_apply, outcome_apply]
      cases hf : below ref name { d with store := d.store.append objects } with
      | error e d₁ =>
        simp only [hf] at hfill
        refine ⟨[ref], some e, d₁, by simp [pure_apply], hgrow.trans hfill, fun y hy => ?_⟩
        rw [List.mem_singleton.mp hy]
        exact Nat.lt_of_lt_of_le (Store.get?_lt hi) hfill.frame.size_le
      | ok u d₁ =>
        simp only [hf] at hfill
        have hsize := Nat.le_trans hgrow.frame.size_le hfill.frame.size_le
        obtain ⟨refs, error, d₂, hd₂, hsteps, hrefs⟩ := ih d₁
          (hfill.sound hp hscope.sound) fun z f hz => hnew z f (Nat.le_trans hsize hz)
        refine ⟨ref :: refs, error, d₂, by simp [hd₂, bind_apply, pure_apply],
          (hgrow.trans hfill).trans hsteps, fun y hy => ?_⟩
        rcases List.mem_cons.mp hy with rfl | hy
        · exact Nat.lt_of_lt_of_le (Store.get?_lt hi)
            (Nat.le_trans hfill.frame.size_le hsteps.frame.size_le)
        · exact hrefs y hy

theorem after_of_failWith {c : Decode Unit} {d d' : Decoding} {error : Option MachineError}
    (hc : c d = failWith error d') : after c d = d' := by
  unfold after
  rw [hc]
  cases error <;> rfl

theorem decodeAction_walks (hp : p.Planned) {below : Nat → String → Decode Unit}
    (hbelow : ∀ y name d, p.Scope writes d.store y (p.registry.serialised name) →
      p.Walks writes (below y name) d) {a : Attribute} (hk : a.kind ≠ none) {i : Instance}
    {d : Decoding} (hs : p.Scope writes d.store x [a]) (hi : d.store.get? x = some i) :
    p.Walks writes (p.decodeAction below x i (Plan.wire a).unmarshal) d := by
  have hw : writes x a.name := hs.touch x a.name (.field List.mem_cons_self)
  have hdecl : a ∈ p.registry.allAttributes i.className := by
    obtain ⟨j, hj, ha⟩ := hs.declared
    cases Option.some.inj (hi.symm.trans hj)
    exact ha a List.mem_cons_self
  have hfail : ∀ {c : Decode Unit} {error d'}, c d = failWith error d' →
      p.Steps writes d.store d'.store → p.Walks writes c d := by
    intro c error d' hc hsteps
    rwa [Walks, after_of_failWith hc]
  cases Attribute.form hk with
  | word q hk =>
    have hst := scalar_store q.type d
    unfold Walks after at *
    rw [decodeAction_word p below x i d hk]
    cases hsc : scalar q.type d with
    | ok w d' | error w d' =>
      simp only [hsc] at hst ⊢
      rw [hst]
      exact .modify hi hw (.word _)
  | object name hk =>
    have hv : p.Walks writes (visit below (i.object? a.name)) d :=
      visit_walks hbelow ⟨hs, i, hi, rfl⟩ fun z hz => by simp [Instance.inside, hk, hz]
    unfold Walks after at *
    rwa [decodeAction_object p below x i d hk]
  | array n e hk he =>
    obtain ⟨ws, error, d', hsc, hst, -⟩ := scalars_apply e.type n.toNat d
    have heq := decodeAction_array p below x i d hk he hsc
    by_cases hb : (i.array a.name).length < ws.length
    · rw [if_pos hb] at heq
      unfold Walks after
      rw [heq, hst]
    · rw [if_neg hb] at heq
      refine hfail heq ?_
      split
      · rw [hst]
      · rw [hst]
        exact .modify hi hw (.array _ (by simp; omega))
  | objects n e hk he =>
    have hv : p.Walks writes ((i.objectArray a.name).forM fun y => visit below (some y)) d := by
      refine Walks.forM (fun s => p.Opened writes s x a (i.objectArray a.name))
        (fun s t h ht => h.steps hp ht) _ (fun y hy d h => visit_walks hbelow h fun z hz => ?_) d
        ⟨hs, i, hi, by simp [Instance.inside, hk, he]⟩
      cases hz
      exact hy
    unfold Walks after at *
    rwa [decodeAction_objects p below x i d hk he]
  | words field e hk he =>
    by_cases hc : maxListCount < (i.uint field).toNat
    · unfold Walks after
      rw [decodeAction_tooMany p below x i d hk hc]
    · obtain ⟨ws, error, d', hsc, hst, -⟩ := scalars_apply e.type (i.uint field).toNat d
      refine hfail (decodeAction_words p below x i d hk he (Nat.not_lt.mp hc) hsc) ?_
      rw [hst]
      exact .modify hi hw (.words ws ⟨a, hdecl, rfl, by simp [Attribute.slot, hk, he]⟩)
  | list field e hk he =>
    by_cases hc : maxListCount < (i.uint field).toNat
    · unfold Walks after
      rw [decodeAction_tooMany p below x i d hk hc]
    · obtain ⟨refs, error, d', hel, hsteps, hrefs⟩ := elements_walks hp hbelow e.className
        (i.uint field).toNat d hs.sound hs.new
      refine hfail (decodeAction_list p below x i d hk he (Nat.not_lt.mp hc) hel) ?_
      obtain ⟨j, hj, hkept⟩ := hsteps.frame.object x i hi
      refine hsteps.trans (Steps.modify hj hw (.list refs hrefs ⟨a, ?_, rfl, ?_⟩))
      · rwa [hkept.className]
      · simp [Attribute.slot, hk, he]

theorem decodeStep_walks {below : Nat → String → Decode Unit} {name : String} {act : Action}
    {d : Decoding}
    (h : ∀ i, d.store.get? x = some i → p.Walks writes (p.decodeAction below x i act) d) :
    p.Walks writes (p.decodeStep below x name act) d := by
  unfold Walks after decodeStep at *
  cases hi : d.store.get? x with
  | none => exact .refl
  | some i =>
    have hh := h i hi
    simp only
    cases ha : p.decodeAction below x i act d <;> simpa only [ha] using hh

theorem unmarshal_walks (hp : p.Planned) {c : ClassDescription} (hc : c ∈ p.registry.classes)
    {plan : ClassPlan} (hf : plan.Follows c) {below : Nat → String → Decode Unit}
    (hbelow : ∀ y name d, p.Scope writes d.store y (p.registry.serialised name) →
      p.Walks writes (below y name) d) {act : Action} (hact : act ∈ plan.unmarshal) {d : Decoding}
    (hs : p.Scope writes d.store x (p.registry.serialised c.name)) {i : Instance}
    (hi : d.store.get? x = some i) : p.Walks writes (p.decodeAction below x i act) d := by
  rcases hf.unmarshal_step hact with ⟨hpar, rfl⟩ | ⟨a, ha, rfl⟩
  · exact hbelow x c.parent d (hs.sub (hp.serialised_parent hc hpar))
  · exact decodeAction_walks hp hbelow (hp.kind_ne_none hc (List.mem_filter.mp ha).1)
      (hs.sub (by simpa using hp.serialised_own hc ha)) hi

theorem decodeInto_walks (hp : p.Planned) (depth x : Nat) (name : String) (d : Decoding)
    (hs : p.Scope writes d.store x (p.registry.serialised name)) :
    p.Walks writes (p.decodeInto depth x name) d := by
  induction depth generalizing x name d with
  | zero => exact .refl
  | succ depth ih =>
    rw [decodeInto_succ]
    cases hplan : p.plan? name with
    | none => exact .refl
    | some plan =>
      obtain ⟨c, hc, rfl, hf⟩ := hp.class_of_plan name plan hplan
      exact Walks.forM (fun s => p.Scope writes s x (p.registry.serialised c.name))
        (fun s t h ht => h.steps hp ht) _
        (fun act hact d hd => decodeStep_walks fun i hi =>
          unmarshal_walks hp hc hf ih hact hd hi) d hs

end Program

end PduCompiler
