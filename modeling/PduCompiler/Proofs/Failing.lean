import PduCompiler.Proofs.Bounds
import PduCompiler.Proofs.Making
import PduCompiler.Proofs.Nesting

/-! How decoding can fail. Bytes may be missing, a count may be too large, and an element of a list
may not be made because of a literal; a redeclared fixed list may be too short. Plans never end in a
class or an action that is not there, and they never nest too deep. -/

namespace PduCompiler.Program

open Decode

variable {p : Program} {m bound left k level x : Nat} {d d' : Decoding} {a : Attribute}
  {c : ClassDescription}

def Lists (p : Program) (name : String) : Prop :=
  ∃ c ∈ p.registry.classes, ∃ a ∈ c.serialised, ∃ field e,
    a.kind = some (.dynamicList field e) ∧ e.isObject = true ∧ e.className = name

/-- What decoding fails with, apart from the places an error passed through. -/
inductive Fault (p : Program) : MachineError → Prop
  | short (need offset left : Nat) : Fault p (.shortBuffer need offset left)
  | tooMany (field : String) {n : Nat} (h : maxListCount < n) : Fault p (.countTooLarge field n)
  | literal {name : String} {le : LiteralError} (hl : p.Lists name) (h : p.Refuses name le) :
      Fault p (.badLiteral le)
  | outside : Fault p .outOfBounds

def Faulty (p : Program) (e : MachineError) : Prop := p.Fault e.root

def FaultsBelow (p : Program) (m bound : Nat) : Prop :=
  ∀ left k y, ∀ c ∈ p.registry.classes, ∀ d,
    p.Within left k d y (p.registry.serialised c.name) →
    p.nesting left k (p.registry.level c.name) < bound →
    Errs p.Faulty (p.decodeInto m y c.name) d

theorem FaultsBelow.visit (hp : p.Planned) (h : p.FaultsBelow m bound)
    (hbound : p.nesting left k level ≤ bound) {refs : List Nat} (hw : p.Within left k d x [a])
    (ho : p.Opened anyField d.store x a refs) {z : Nat} (hz : z ∈ refs) :
    Errs p.Faulty (visit (p.decodeInto m) (some z)) d := by
  intro e d' he
  obtain ⟨obj, hobj, q, hq, hqn, j, rfl, hin⟩ := hw.inside hp ho hz
  simp only [Program.visit, hobj, ← hqn] at he
  have hlt := Nat.lt_of_lt_of_le (nesting_inside (hp.level_le hq)) hbound
  exact h left j z q hq d hin hlt e d' he

theorem FaultsBelow.elements (hp : p.Planned) (hg : p.registry.Grounded)
    (h : p.FaultsBelow m bound) {q : ClassDescription} (hq : q ∈ p.registry.classes)
    (hlist : p.Lists q.name) (hheight : Height p.registry.Embeds k q.name)
    (hbound : p.nesting left k (p.registry.level q.name) < bound) {n : Nat}
    (hs : p.Sound d.store) (hleft : d.rest.length ≤ left) {refs : List Nat}
    {error : Option MachineError}
    (hel : Decode.elements (p.make q.name) (p.decodeInto m · q.name) n d = .ok (refs, error) d') :
    ∀ e ∈ error, p.Faulty e := by
  refine elements_error (fun d => p.Sound d.store ∧ d.rest.length ≤ left) ?_ ?_ ⟨hs, hleft⟩ hel
  · intro d _ e d₁ hm
    obtain ⟨le, hroot, href⟩ := build_eq_error hp hg hq (make_eq_error hm).1
    rw [Faulty, hroot]
    exact .literal hlist href
  · rintro d ref d₁ ⟨hs, hleft⟩ hm
    obtain ⟨objects, hb, rfl⟩ := make_eq_ok hm
    have hin : p.Within left k { d with store := d.store.append objects } ref
        (p.registry.serialised q.name) := .element hp hheight hs hleft hb
    refine ⟨h left k ref q hq _ hin hbound, fun d₂ hd₂ => ?_⟩
    have hin' := hin.walk hp (decodeInto_walks hp m ref q.name _ hin.scope)
      (decodeInto_reads hp m ref q.name) hd₂
    exact ⟨hin'.scope.sound, hin'.bytes⟩

theorem FaultsBelow.action (hp : p.Planned) (hg : p.registry.Grounded) (h : p.FaultsBelow m bound)
    (hbound : p.nesting left k level ≤ bound) (hc : c ∈ p.registry.classes) (ha : a ∈ c.serialised)
    (hw : p.Within left k d x [a]) (hcount : ∀ field, a.CountedBy field → d.rest.length < left)
    {i : Instance} (hi : d.store.get? x = some i) :
    Errs p.Faulty (p.decodeAction (p.decodeInto m) x i (Plan.wire a).unmarshal) d := by
  have hsound := hp.consistent.kinds c hc a (List.mem_filter.mp ha).1
  have hwalk : ∀ y name d, p.Scope anyField d.store y (p.registry.serialised name) →
      p.Walks anyField (p.decodeInto m y name) d := decodeInto_walks hp m
  refine decodeAction_errs hsound (fun _ _ _ => .short _ _ _) (fun _ _ hmany => .tooMany _ hmany)
    (fun _ _ _ _ _ => .outside) ?_ ?_ ?_
  · intro name hk
    obtain ⟨j, hj, hdecl⟩ := hw.scope.declared
    cases Option.some.inj (hi.symm.trans hj)
    obtain ⟨y, hy, -⟩ := hw.scope.sound.object? hi (hdecl a List.mem_cons_self) hk
    rw [hy]
    exact h.visit hp hbound hw ⟨hw.scope, i, hi, rfl⟩ (by simp [Instance.inside, hk, hy])
  · intro n e hk he
    have hin : i.inside a = i.objectArray a.name := by simp [Instance.inside, hk, he]
    refine Errs.forM (fun _ d => p.Within left k d x [a] ∧
      p.Opened anyField d.store x a (i.objectArray a.name)) _ (fun before y rest hl d hinv => ?_)
      ⟨hw, hw.scope, i, hi, hin⟩
    obtain ⟨hw, ho⟩ := hinv
    have hy : y ∈ i.objectArray a.name := by
      rw [hl]
      simp
    refine ⟨h.visit hp hbound hw ho hy, fun d' hd' => ?_⟩
    have hsteps := visit_walks hwalk ho fun z (hz : some y = some z) => Option.some.inj hz ▸ hy
    refine ⟨hw.walk hp hsteps (visit_reads (decodeInto_reads hp m) _) hd', ?_⟩
    simp only [Walks, after, hd'] at hsteps
    exact ho.steps hp hsteps
  · intro field e hk he n
    simp only [Registry.KindSound, hk, Registry.ElementSound, he, if_true] at hsound
    obtain ⟨q, hq, hqn⟩ := Registry.contains_iff.mp hsound.1
    obtain ⟨refs, error, d', hel, -, -⟩ := elements_walks hp hwalk e.className n d hw.scope.sound
      hw.scope.new
    have hlt : p.nesting d.rest.length p.registry.classes.length (p.registry.level q.name) <
        bound := Nat.lt_of_lt_of_le
      (nesting_element (hcount field ⟨e, hk⟩) hp.classes_le (hp.level_le hq)) hbound
    have hlist : p.Lists q.name := ⟨c, hc, a, ha, field, e, hk, he, hqn.symm⟩
    exact ⟨refs, error, d', hel, h.elements hp hg hq hlist (hg q hq) hlt hw.scope.sound
      (Nat.le_refl _) (hqn ▸ hel)⟩

theorem Faulty.step {below : Nat → String → Decode Unit} {name : String} {act : Action}
    (hx : (d.store.get? x).isSome = true)
    (h : ∀ i, d.store.get? x = some i → Errs p.Faulty (p.decodeAction below x i act) d) :
    Errs p.Faulty (p.decodeStep below x name act) d := by
  intro e d' he
  rcases decodeStep_eq_error he with ⟨hnone, -⟩ | ⟨i, cause, hi, ha, rfl⟩
  · simp [hnone] at hx
  · exact h i hi cause d' ha

theorem FaultsBelow.step (hp : p.Planned) (hg : p.registry.Grounded) (h : p.FaultsBelow m bound) :
    p.FaultsBelow (m + 1) (bound + 1) := by
  intro left k x c hc d hw hlt
  have hbound := Nat.le_of_lt_succ hlt
  have hopen : ∀ {d : Decoding} {attrs : List Attribute}, p.Within left k d x attrs →
      (d.store.get? x).isSome = true := by
    intro d attrs hw
    obtain ⟨i, hi, -⟩ := hw.chains
    simp [hi]
  have hattributes : ∀ d, p.Within left k d x (p.registry.serialised c.name) →
      Errs p.Faulty (c.serialised.forM fun a =>
        p.decodeStep (p.decodeInto m) x c.name (Plan.wire a).unmarshal) d := by
    intro d hw
    refine Errs.forM (p.Passed left k c x) _ (fun before a rest hl d hinv => ?_) ⟨hw, by simp⟩
    obtain ⟨-, hwa, hcount⟩ := hinv.attribute hp hc hl
    have ha : a ∈ c.serialised := by simp [hl]
    exact ⟨Faulty.step (hopen hwa) fun i hi => h.action hp hg hbound hc ha hwa hcount hi,
      fun d' hd' => hinv.step hp hc hl hd'⟩
  rw [decodeInto_class hp hc]
  by_cases hpar : c.hasParent = true
  · obtain ⟨q, hq, hqn, hsub, hlevel⟩ := hp.parent hc hpar
    have hfirst : Errs p.Faulty (p.decodeStep (p.decodeInto m) x c.name
        { op := .super, className := c.parent }) d := by
      refine Faulty.step (hopen hw) fun i _ => ?_
      have hparent := h left k x q hq d (hw.sub hsub) (by unfold nesting at hbound ⊢; omega)
      rw [hqn] at hparent
      exact hparent
    intro e d' he
    rw [if_pos hpar, bind_apply] at he
    cases hd : p.decodeStep (p.decodeInto m) x c.name { op := .super, className := c.parent } d with
    | error e₁ d₁ =>
      rw [hd] at he
      cases he
      exact hfirst _ _ hd
    | ok u d₁ =>
      rw [hd] at he
      exact hattributes d₁ (hw.parent hp hqn hsub hd) e d' he
  · intro e d' he
    rw [if_neg hpar, bind_apply] at he
    exact hattributes d hw e d' he

theorem faultsBelow (hp : p.Planned) (hg : p.registry.Grounded) (m : Nat) :
    p.FaultsBelow m m := by
  induction m with
  | zero => exact fun left k y c _ d _ hlt => (Nat.not_lt_zero _ hlt).elim
  | succ m ih => exact ih.step hp hg

theorem decodeInto_faulty (hp : p.Planned) (hg : p.registry.Grounded) {s : Store} (hs : p.Sound s)
    {i : Instance} (hi : s.get? x = some i) (bytes : List UInt8) (offset : Nat) :
    Errs p.Faulty (p.decodeInto (p.decodeDepth s bytes) x i.className) ⟨s, bytes, offset⟩ := by
  obtain ⟨c, hc, hcn⟩ := (hs.object x i hi).ready.class hp
  have hwhole := Within.whole hs hi (hcn ▸ hg c hc) bytes offset
  rw [← hcn] at hwhole ⊢
  exact faultsBelow hp hg _ bytes.length _ x c hc ⟨s, bytes, offset⟩ hwhole
    (nesting_lt_decodeDepth hp hc s bytes)

theorem unmarshal_error {s : Store} {i : Instance} (hi : s.get? x = some i)
    {bytes : List UInt8} {e : MachineError} (he : e ∈ (p.unmarshal s x bytes).2.2) :
    ∃ d, p.decodeInto (p.decodeDepth s bytes) x i.className ⟨s, bytes, 0⟩ = .error e d := by
  simp only [Program.unmarshal, hi] at he
  split at he
  · simp at he
  · next e' d hd =>
    rw [Option.mem_some_iff.mp he] at hd
    exact ⟨d, hd⟩

end PduCompiler.Program
