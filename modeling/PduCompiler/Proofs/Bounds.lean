import PduCompiler.Proofs.SizeAgreement

/-! The bounds of scalar fixed lists. An object has one slot for all declarations of a name that are
stored alike, and the last of them gives the slot its length. Decoding reaches outside a fixed list
only where an earlier declaration asks for more. -/

namespace PduCompiler

def Attribute.arrayLength? (a : Attribute) : Option Nat :=
  match a.kind with
  | some (.fixedList n e) => if e.isObject then none else some n.toNat
  | _ => none

theorem Attribute.slot_of_arrayLength? {a : Attribute} {n : Nat} (h : a.arrayLength? = some n) :
    a.slot = .array := by
  unfold arrayLength? at h
  split at h
  · next hk =>
    split at h
    · cases h
    · next he => simp [slot, hk, he]
  · cases h

theorem Attribute.arrayLength?_of_slot {a : Attribute} (h : a.slot = .array) :
    ∃ n e, a.kind = some (.fixedList n e) ∧ e.isObject = false ∧
      a.arrayLength? = some n.toNat := by
  unfold slot at h
  split at h
  · cases h
  · cases h
  · next n e hk =>
    cases he : e.isObject with
    | true => simp [he] at h
    | false => exact ⟨n, e, hk, he, by simp [arrayLength?, hk, he]⟩
  · split at h <;> cases h
  · cases h

/-- The length of the slot that a class has for the scalar fixed lists of a name: the last
declaration in the chain decides. -/
def Registry.storageLength (r : Registry) (className field : String) : Option Nat :=
  (r.allAttributes className).reverse.findSome? fun a =>
    if a.name == field then a.arrayLength? else none

theorem Registry.storageLength_eq {r : Registry} {name : String} {b : Attribute}
    (h : b.LastIn (r.allAttributes name)) {n : Nat} (hn : b.arrayLength? = some n) :
    r.storageLength name b.name = some n := by
  obtain ⟨pre, post, he, hp⟩ := h
  have hpost : post.reverse.findSome? (fun a =>
      if a.name == b.name then a.arrayLength? else none) = none := by
    rw [List.findSome?_eq_none_iff]
    intro a ha
    by_cases hab : a.name = b.name
    · cases hl : a.arrayLength? with
      | none => simp
      | some m =>
        have hs := hp a (by simpa using ha) hab
        rw [Attribute.slot_of_arrayLength? hl, Attribute.slot_of_arrayLength? hn] at hs
        exact (hs rfl).elim
    · simp [hab]
  rw [storageLength, he, List.reverse_append, List.reverse_cons, List.append_assoc,
    List.findSome?_append, hpost, Option.none_or]
  simp [hn]

namespace Program

open Decode

variable {p : Program} {s : Store}

theorem Sound.array_length (hs : p.Sound s) {x : Nat} {i : Instance} (hi : s.get? x = some i)
    {a : Attribute} (ha : a ∈ p.registry.allAttributes i.className) (hslot : a.slot = .array) :
    p.registry.storageLength i.className a.name = some (i.array a.name).length := by
  obtain ⟨b, hb, hbn, hbs, hholds⟩ := hs.last hi ha
  obtain ⟨n, e, hk, he, hlen⟩ := Attribute.arrayLength?_of_slot (hbs.trans hslot)
  have hh := Registry.storageLength_eq hb hlen
  simp only [Instance.Holds, hk, he, if_neg Bool.false_ne_true] at hholds
  rw [← hbn, hh, hholds]

def LengthsAgree (p : Program) (name : String) : Prop :=
  ∀ a ∈ p.registry.serialised name, ∀ n, a.arrayLength? = some n →
    p.registry.storageLength name a.name = some n

theorem LengthsAgree.extents (hs : p.Sound s) (h : ∀ name, p.Ready name → p.LengthsAgree name) :
    p.Extents (· = ·) s := by
  intro x i hi a ha n e hk he
  have hl : a.arrayLength? = some n.toNat := by simp [Attribute.arrayLength?, hk, he]
  have hall := serialised_sub _ _ a ha
  have hlen := hs.array_length hi hall (Attribute.slot_of_arrayLength? hl)
  rw [h _ (hs.object x i hi).ready a ha _ hl] at hlen
  exact Option.some.inj hlen

def Harmless (e : MachineError) : Prop := e.root ≠ .outOfBounds

theorem initStep_harmless {build : Builder}
    (hb : ∀ n i name e, build n i name = .error e → Harmless e) {name : String}
    {state : Nursery × Instance} {act : Action} {e : MachineError}
    (h : initStep build name state act = .error e) : Harmless e := by
  rcases initStep_eq_error h with ⟨inner, -, n, i, hin⟩ | ⟨-, le, -, rfl⟩ | ⟨-, rfl⟩
  · exact hb _ _ _ _ hin
  · simp [Harmless, MachineError.root]
  · simp [Harmless, MachineError.root]

theorem construct_harmless (p : Program) (depth : Nat) (n : Nursery) (i : Instance)
    (name : String) (e : MachineError) (h : p.construct depth n i name = .error e) :
    Harmless e := by
  induction depth generalizing n i name e with
  | zero =>
    cases h
    simp [Harmless, MachineError.root]
  | succ depth ih =>
    rw [construct] at h
    cases hplan : p.plan? name with
    | none =>
      rw [hplan] at h
      cases h
      simp [Harmless, MachineError.root]
    | some plan =>
      rw [hplan] at h
      exact foldlM_error (fun act _ x e he => initStep_harmless ih he) h

theorem build_harmless {first : Nat} {name : String} {e : MachineError}
    (h : p.build first name = .error e) : Harmless e := by
  rcases bind_eq_error.mp h with hc | ⟨made, -, h⟩
  · exact construct_harmless p _ _ _ _ _ hc
  · cases h

def Errs {α : Type} (P : MachineError → Prop) (c : Decode α) (d : Decoding) : Prop :=
  ∀ e d', c d = .error e d' → P e

section Errs

variable {P : MachineError → Prop} {below : Nat → String → Decode Unit} {a : Attribute} {x : Nat}
  {i : Instance} {d : Decoding}

theorem Errs.forM {β : Type} {step : β → Decode Unit} (Inv : List β → Decoding → Prop) (l : List β)
    (hstep : ∀ before b after, l = before ++ b :: after → ∀ d, Inv before d →
      Errs P (step b) d ∧ ∀ d', step b d = .ok () d' → Inv (before ++ [b]) d')
    (hd : Inv [] d) : Errs P (l.forM step) d := by
  induction l generalizing Inv d with
  | nil =>
    intro e d' he
    cases he
  | cons b l ih =>
    obtain ⟨hfirst, hnext⟩ := hstep [] b l rfl d hd
    intro e d' he
    rw [show (b :: l).forM step = (step b >>= fun _ => l.forM step) from rfl, bind_apply] at he
    cases h : step b d with
    | error e₁ d₁ =>
      rw [h] at he
      cases he
      exact hfirst e d' h
    | ok u d₁ =>
      rw [h] at he
      exact ih (fun before => Inv (b :: before))
        (fun before c after hl => hstep (b :: before) c after (by rw [hl, List.cons_append]))
        (hnext d₁ h) e d' he

theorem errs_failWith {c : Decode Unit} {d' : Decoding} {error : Option MachineError}
    (hc : c d = failWith error d') (h : ∀ e ∈ error, P e) : Errs P c d := by
  intro e d₁ he
  rw [hc, failWith_apply] at he
  cases error with
  | none => cases he
  | some e' =>
    cases he
    exact h e rfl

theorem scalar_eq_error {t : TypeName} (h : t.isCanonical = true) {e : MachineError}
    {d' : Decoding} (he : scalar t d = .error e d') :
    ∃ need offset left, e = .shortBuffer need offset left := by
  obtain ⟨sc, hsc⟩ := Option.isSome_iff_exists.mp h
  simp only [scalar, hsc] at he
  split at he
  · cases he
    exact ⟨_, _, _, rfl⟩
  · cases he

theorem scalars_error {t : TypeName} (h : t.isCanonical = true) {n : Nat} {d' : Decoding}
    {ws : List Word} {error : Option MachineError} (hs : scalars t n d = .ok (ws, error) d') :
    ∀ e ∈ error, ∃ need offset left, e = .shortBuffer need offset left := by
  induction n generalizing d ws with
  | zero =>
    cases hs
    simp
  | succ n ih =>
    simp only [scalars, bind_apply, outcome_apply] at hs
    cases hw : scalar t d with
    | error e d₁ =>
      simp only [hw] at hs
      cases hs
      simpa using scalar_eq_error h hw
    | ok w d₁ =>
      obtain ⟨ws', error', d₂, hd₂, -, -⟩ := scalars_apply t n d₁
      simp only [hw, bind_apply, hd₂] at hs
      cases hs
      exact ih hd₂

theorem elements_error {make : Decode Ref} {fill : Ref → Decode Unit} (Inv : Decoding → Prop)
    (hmake : ∀ d, Inv d → Errs P make d)
    (hfill : ∀ d ref d₁, Inv d → make d = .ok ref d₁ →
      Errs P (fill ref) d₁ ∧ ∀ d₂, fill ref d₁ = .ok () d₂ → Inv d₂)
    {n : Nat} (hd : Inv d) {refs : List Ref} {error : Option MachineError} {d' : Decoding}
    (h : elements make fill n d = .ok (refs, error) d') : ∀ e ∈ error, P e := by
  induction n generalizing d refs with
  | zero =>
    cases h
    simp
  | succ n ih =>
    simp only [elements, bind_apply, outcome_apply] at h
    cases hm : make d with
    | error e d₁ =>
      simp only [hm] at h
      cases h
      simpa using hmake d hd _ _ hm
    | ok ref d₁ =>
      obtain ⟨herrs, hnext⟩ := hfill d ref d₁ hd hm
      simp only [hm, bind_apply, outcome_apply] at h
      cases hf : fill ref d₁ with
      | error e d₂ =>
        simp only [hf] at h
        cases h
        simpa using herrs _ _ hf
      | ok u d₂ =>
        simp only [hf, bind_apply] at h
        cases hr : elements make fill n d₂ with
        | error e d₃ => simp [hr] at h
        | ok rest d₃ =>
          simp only [hr] at h
          cases h
          exact ih (hnext d₂ hf) hr

theorem make_eq_error {name : String} {e : MachineError} {d' : Decoding}
    (h : p.make name d = .error e d') : p.build d.store.size name = .error e ∧ d' = d := by
  unfold make at h
  cases hb : p.build d.store.size name with
  | error e' =>
    simp only [hb] at h
    cases h
    exact ⟨rfl, rfl⟩
  | ok made => simp [hb] at h

theorem make_eq_ok {name : String} {ref : Ref} {d' : Decoding} (h : p.make name d = .ok ref d') :
    ∃ objects, p.build d.store.size name = .ok (objects, ref) ∧
      d' = { d with store := d.store.append objects } := by
  unfold make at h
  cases hb : p.build d.store.size name with
  | error e => simp [hb] at h
  | ok made =>
    obtain ⟨objects, ref'⟩ := made
    simp only [hb] at h
    cases h
    exact ⟨objects, rfl, rfl⟩

/-- An action fails where bytes are missing, by its count, by the length of its storage, or where it
goes inside. -/
theorem decodeAction_errs {c : ClassDescription} (hk : p.registry.KindSound c a)
    (hshort : ∀ need offset left, P (.shortBuffer need offset left))
    (hmany : ∀ field n, maxListCount < n → P (.countTooLarge field n))
    (hout : ∀ n e, a.kind = some (.fixedList n e) → e.isObject = false →
      (i.array a.name).length < n.toNat → P .outOfBounds)
    (hobject : ∀ name, a.kind = some (.object name) → Errs P (visit below (i.object? a.name)) d)
    (hobjects : ∀ n e, a.kind = some (.fixedList n e) → e.isObject = true →
      Errs P ((i.objectArray a.name).forM fun y => visit below (some y)) d)
    (hlist : ∀ field e, a.kind = some (.dynamicList field e) → e.isObject = true → ∀ n,
      ∃ refs error d', elements (p.make e.className) (below · e.className) n d =
        .ok (refs, error) d' ∧ ∀ err ∈ error, P err) :
    Errs P (p.decodeAction below x i (Plan.wire a).unmarshal) d := by
  have hread : ∀ {t n ws error d'}, t.isCanonical = true → scalars t n d = .ok (ws, error) d' →
      ∀ e ∈ error, P e := by
    intro t n ws error d' ht hs e he
    obtain ⟨need, offset, left, rfl⟩ := scalars_error ht hs e he
    exact hshort need offset left
  cases Attribute.form hk.ne_none with
  | word q hq =>
    simp only [Registry.KindSound, hq] at hk
    intro e d' he
    rw [decodeAction_word p below x i d hq] at he
    cases hsc : scalar q.type d with
    | ok w d₁ =>
      rw [hsc] at he
      cases he
    | error e₁ d₁ =>
      rw [hsc] at he
      cases he
      obtain ⟨need, offset, left, rfl⟩ := scalar_eq_error hk hsc
      exact hshort need offset left
  | object name hq =>
    intro e d' he
    rw [decodeAction_object p below x i d hq] at he
    exact hobject name hq e d' he
  | array n e hq he =>
    simp only [Registry.KindSound, hq, Registry.ElementSound, he,
      if_neg Bool.false_ne_true] at hk
    obtain ⟨ws, error, d', hsc, -, hws⟩ := scalars_apply e.type n.toNat d
    have heq := decodeAction_array p below x i d hq he hsc
    by_cases hlt : (i.array a.name).length < ws.length
    · intro e' d₁ he'
      rw [heq, if_pos hlt] at he'
      cases he'
      exact hout n e hq he (Nat.lt_of_lt_of_le hlt hws)
    · rw [if_neg hlt] at heq
      exact errs_failWith heq (hread hk.2 hsc)
  | objects n e hq he =>
    intro e' d' he'
    rw [decodeAction_objects p below x i d hq he] at he'
    exact hobjects n e hq he e' d' he'
  | words field e hq he =>
    simp only [Registry.KindSound, hq, Registry.ElementSound, he,
      if_neg Bool.false_ne_true] at hk
    by_cases hc : maxListCount < (i.uint field).toNat
    · intro e' d' he'
      rw [decodeAction_tooMany p below x i d hq hc] at he'
      cases he'
      exact hmany field _ hc
    · obtain ⟨ws, error, d', hsc, -, -⟩ := scalars_apply e.type (i.uint field).toNat d
      exact errs_failWith (decodeAction_words p below x i d hq he (Nat.not_lt.mp hc) hsc)
        (hread hk.1 hsc)
  | list field e hq he =>
    by_cases hc : maxListCount < (i.uint field).toNat
    · intro e' d' he'
      rw [decodeAction_tooMany p below x i d hq hc] at he'
      cases he'
      exact hmany field _ hc
    · obtain ⟨refs, error, d', hel, herr⟩ := hlist field e hq he (i.uint field).toNat
      exact errs_failWith (decodeAction_list p below x i d hq he (Nat.not_lt.mp hc) hel) herr

theorem decodeStep_eq_error {name : String} {act : Action} {e : MachineError} {d' : Decoding}
    (h : p.decodeStep below x name act d = .error e d') :
    (d.store.get? x = none ∧ e = .noObject) ∨ ∃ i cause, d.store.get? x = some i ∧
      p.decodeAction below x i act d = .error cause d' ∧ e = .within name act.attr cause := by
  unfold decodeStep at h
  cases hi : d.store.get? x with
  | none =>
    rw [hi] at h
    cases h
    exact .inl ⟨rfl, rfl⟩
  | some i =>
    simp only [hi] at h
    cases ha : p.decodeAction below x i act d with
    | ok u d₁ =>
      rw [ha] at h
      cases h
    | error e₁ d₁ =>
      rw [ha] at h
      cases h
      exact .inr ⟨i, e₁, rfl, ha, rfl⟩

end Errs

def Safe {α : Type} (c : Decode α) (d : Decoding) : Prop :=
  ∀ e d', c d = .error e d' → Harmless e

theorem visit_safe {below : Nat → String → Decode Unit}
    (hsafe : ∀ y name d, p.Scope anyField d.store y (p.registry.serialised name) →
      Safe (below y name) d) {a : Attribute} {x : Nat} {refs : List Nat} {d : Decoding}
    (hs : p.Opened anyField d.store x a refs) {y : Option Nat} (hy : ∀ z, y = some z → z ∈ refs) :
    Safe (visit below y) d := by
  intro e d' he
  cases y with
  | none =>
    cases he
    simp [Harmless, MachineError.root]
  | some z =>
    simp only [visit] at he
    cases hz : d.store.get? z with
    | none =>
      rw [hz] at he
      cases he
      simp [Harmless, MachineError.root]
    | some obj =>
      rw [hz] at he
      exact hsafe z _ d (hs.object (hy z rfl) hz) e d' he

theorem Safe.forM {β : Type} {step : β → Decode Unit} (Inv : Store → Prop)
    (hinv : ∀ s t, Inv s → p.Steps anyField s t → Inv t) (l : List β)
    (hwalk : ∀ b ∈ l, ∀ d : Decoding, Inv d.store → p.Walks anyField (step b) d)
    (hsafe : ∀ b ∈ l, ∀ d : Decoding, Inv d.store → Safe (step b) d) (d : Decoding)
    (hd : Inv d.store) : Safe (l.forM step) d := by
  refine Errs.forM (fun _ d => Inv d.store) l (fun before b rest hl d h => ?_) hd
  have hb : b ∈ l := by simp [hl]
  refine ⟨hsafe b hb d h, fun d' hd' => ?_⟩
  have hsteps := hwalk b hb d h
  simp only [Walks, after, hd'] at hsteps
  exact hinv _ _ h hsteps

theorem decodeAction_safe (hp : p.Planned) {below : Nat → String → Decode Unit}
    (hwalk : ∀ y name d, p.Scope anyField d.store y (p.registry.serialised name) →
      p.Walks anyField (below y name) d)
    (hsafe : ∀ y name d, p.Scope anyField d.store y (p.registry.serialised name) →
      Safe (below y name) d) {c : ClassDescription} {a : Attribute}
    (hk : p.registry.KindSound c a) {x : Nat} {i : Instance} {d : Decoding}
    (hs : p.Scope anyField d.store x [a]) (hi : d.store.get? x = some i)
    (hlen : i.Extent (· ≤ ·) a) :
    Safe (p.decodeAction below x i (Plan.wire a).unmarshal) d := by
  refine decodeAction_errs hk ?_ ?_ ?_ ?_ ?_ ?_
  · simp [Harmless, MachineError.root]
  · simp [Harmless, MachineError.root]
  · intro n e hq he hlt
    exact absurd (hlen n e hq he) (Nat.not_le.mpr hlt)
  · intro name hq
    exact visit_safe hsafe ⟨hs, i, hi, rfl⟩ fun z hz => by simp [Instance.inside, hq, hz]
  · intro n e hq he
    refine Safe.forM (p := p) (fun s => p.Opened anyField s x a (i.objectArray a.name))
      (fun s t h ht => h.steps hp ht) _ (fun y hy d h => visit_walks hwalk h fun z hz => ?_)
      (fun y hy d h => visit_safe hsafe h fun z hz => ?_) d
      ⟨hs, i, hi, by simp [Instance.inside, hq, he]⟩
    all_goals
      cases hz
      exact hy
  · intro field e hq he n
    obtain ⟨refs, error, d', hel, -, -⟩ := elements_walks hp hwalk e.className n d hs.sound hs.new
    refine ⟨refs, error, d', hel, elements_error (fun d => p.Sound d.store) ?_ ?_ hs.sound hel⟩
    · exact fun d _ err d₁ hm => build_harmless (make_eq_error hm).1
    · intro d ref d₁ hsound hm
      obtain ⟨objects, hb, rfl⟩ := make_eq_ok hm
      have hscope := Scope.element hp hsound (fun _ _ _ => trivial) hb
      refine ⟨hsafe ref e.className _ hscope, fun d₂ hd₂ => ?_⟩
      have hfill := hwalk ref e.className { d with store := d.store.append objects } hscope
      simp only [Walks, after, hd₂] at hfill
      exact hfill.sound hp hscope.sound

theorem decodeStep_safe {below : Nat → String → Decode Unit} {x : Nat} {name : String}
    {act : Action} {d : Decoding}
    (h : ∀ i, d.store.get? x = some i → Safe (p.decodeAction below x i act) d) :
    Safe (p.decodeStep below x name act) d := by
  intro e d' he
  rcases decodeStep_eq_error he with ⟨-, rfl⟩ | ⟨i, cause, hi, ha, rfl⟩
  · simp [Harmless, MachineError.root]
  · exact h i hi cause d' ha

theorem decodeInto_safe (hp : p.Planned) (hext : ∀ s, p.Sound s → p.Extents (· ≤ ·) s)
    (depth x : Nat) (name : String) (d : Decoding)
    (hs : p.Scope anyField d.store x (p.registry.serialised name)) :
    Safe (p.decodeInto depth x name) d := by
  induction depth generalizing x name d with
  | zero =>
    intro e d' he
    cases he
    simp [Harmless, MachineError.root]
  | succ depth ih =>
    rw [decodeInto_succ]
    cases hplan : p.plan? name with
    | none =>
      intro e d' he
      cases he
      simp [Harmless, MachineError.root]
    | some plan =>
      obtain ⟨c, hc, rfl, hf⟩ := hp.class_of_plan name plan hplan
      -- the scope is the invariant: a step may fail, but what it leaves is still open to the next
      refine Safe.forM (fun s => p.Scope anyField s x (p.registry.serialised c.name))
        (fun s t h ht => h.steps hp ht) _
        (fun act hact d hd => decodeStep_walks fun i hi => ?_)
        (fun act hact d hd => decodeStep_safe fun i hi => ?_) d hs
      · exact unmarshal_walks hp hc hf (decodeInto_walks hp depth) hact hd hi
      · rcases hf.unmarshal_step hact with ⟨hpar, rfl⟩ | ⟨a, ha, rfl⟩
        · exact ih x c.parent d (hd.sub (hp.serialised_parent hc hpar))
        · have has : a ∈ p.registry.serialised c.name := hp.serialised_own hc ha
          have hmem := List.mem_filter.mp ha
          refine decodeAction_safe hp (decodeInto_walks hp depth) ih
            (hp.consistent.kinds c hc a hmem.1) (hd.sub (by simpa using has)) hi ?_
          obtain ⟨j, hj, hdecl⟩ := hd.declared
          cases Option.some.inj (hi.symm.trans hj)
          exact hext d.store hd.sound x i hi a (List.mem_filter.mpr ⟨hdecl a has, hmem.2⟩)

end Program

end PduCompiler
