import PduCompiler.Proofs.Embedding
import PduCompiler.Proofs.Framing
import PduCompiler.Proofs.Rewriting

/-! How deep plans nest while decoding. A parent lies lower in the registry, an object inside is of a
class that its own class holds, and before an element of a list a byte of the count was read. So the
depth that decoding is given never shows, and what it makes of some bytes does not depend on those
behind them. -/

namespace PduCompiler

open Decode

theorem Decode.forM_congr {β : Type} {step step' : β → Decode Unit}
    (Inv : List β → Decoding → Prop) (l : List β)
    (hstep : ∀ before b after, l = before ++ b :: after → ∀ d, Inv before d →
      step b d = step' b d ∧ ∀ d', step b d = .ok () d' → Inv (before ++ [b]) d')
    (d : Decoding) (hd : Inv [] d) : l.forM step d = l.forM step' d := by
  induction l generalizing Inv d with
  | nil => rfl
  | cons b l ih =>
    obtain ⟨heq, hnext⟩ := hstep [] b l rfl d hd
    have hcons : ∀ f : β → Decode Unit, (b :: l).forM f = (f b >>= fun _ => l.forM f) :=
      fun _ => rfl
    rw [hcons, hcons, bind_apply, bind_apply, ← heq]
    cases hb : step b d with
    | error e d' => rfl
    | ok u d' =>
      exact ih (fun before => Inv (b :: before))
        (fun before c after he => hstep (b :: before) c after (by rw [he, List.cons_append])) d'
        (hnext d' hb)

namespace Program

variable {p : Program} {s : Store} {x left k : Nat} {d d' : Decoding} {attrs : List Attribute}

theorem Sound.inside_class (hs : p.Sound s) {i : Instance} (hi : s.get? x = some i)
    {a : Attribute} (ha : a ∈ p.registry.allAttributes i.className) {y : Nat}
    (hy : y ∈ i.inside a) :
    ∃ inner, s.class? y = some inner ∧ p.registry.Embeds i.className inner := by
  -- the class is that of the last declaration of the name, which need not be `a`
  obtain ⟨b, hlast, hn, hslot, hb⟩ := hs.last hi ha
  have hemb : ∀ inner, Registry.embedded? b = some inner → p.registry.Embeds i.className inner :=
    fun inner h => Registry.embeds_iff.mpr ⟨b, hlast.mem, h⟩
  have hkind : b.slot = .object ∨ b.slot = .objects := by
    rw [hslot]
    unfold Instance.inside at hy
    unfold Attribute.slot
    split at hy
    · next hk => simp [hk]
    · next hk =>
      split at hy
      · next he => simp [hk, he]
      · simp at hy
    · simp at hy
  unfold Attribute.slot at hkind hslot
  split at hkind
  · simp at hkind
  · next cls hk =>
    simp only [Instance.Holds, hk, hn] at hb
    obtain ⟨z, hz, hcls⟩ := hb
    obtain rfl : y = z := by
      unfold Instance.inside at hy
      split at hy
      · simpa [hz, eq_comm] using hy
      · next hka =>
        simp only [hk, hka] at hslot
        split at hslot <;> cases hslot
      · simp at hy
    exact ⟨cls, hcls, hemb cls (by simp [Registry.embedded?, hk])⟩
  · next n e hk =>
    by_cases he : e.isObject = true
    · simp only [Instance.Holds, hk, hn, he, if_true] at hb
      refine ⟨e.className, hb.2 y ?_, hemb _ (by simp [Registry.embedded?, hk, he])⟩
      unfold Instance.inside at hy
      split at hy
      · next hka => simp [hk, hka, he] at hslot
      · split at hy
        · exact hy
        · simp at hy
      · simp at hy
    · simp [he] at hkind
  · split at hkind <;> simp at hkind
  · simp at hkind

/-- How deep plans nest below the plan of a class at some level, where `left` bytes are left and
chains of at most `k` classes start at the class of the object. -/
def nesting (p : Program) (left k level : Nat) : Nat :=
  (left * (p.plans.length + 1) + k) * (p.plans.length + 1) + level

theorem nesting_inside {level level' : Nat} (h : level' ≤ p.plans.length) :
    p.nesting left k level' < p.nesting left (k + 1) level := by
  unfold nesting
  rw [← Nat.add_assoc, Nat.add_mul _ 1]
  omega

theorem nesting_element {left' k' level level' : Nat} (hleft : left' < left)
    (hk : k' ≤ p.plans.length) (hl : level' ≤ p.plans.length) :
    p.nesting left' k' level' < p.nesting left k level := by
  have hbytes : (left' + 1) * (p.plans.length + 1) ≤ left * (p.plans.length + 1) :=
    Nat.mul_le_mul_right _ hleft
  rw [Nat.add_mul, Nat.one_mul] at hbytes
  have hblock : (left' * (p.plans.length + 1) + k' + 1) * (p.plans.length + 1) ≤
      (left * (p.plans.length + 1) + k) * (p.plans.length + 1) :=
    Nat.mul_le_mul_right _ (by omega)
  rw [Nat.add_mul _ 1, Nat.one_mul] at hblock
  unfold nesting
  omega

/-- Decoding some attributes of an object finds at most so many bytes, and chains of at most `k`
classes start at the class of the object. -/
structure Within (p : Program) (left k : Nat) (d : Decoding) (x : Nat) (attrs : List Attribute) :
    Prop where
  scope : p.Scope anyField d.store x attrs
  chains : ∃ i, d.store.get? x = some i ∧ Height p.registry.Embeds k i.className
  bytes : d.rest.length ≤ left

theorem Within.sub {attrs' : List Attribute} (h : p.Within left k d x attrs)
    (hsub : attrs' ⊆ attrs) : p.Within left k d x attrs' :=
  ⟨h.scope.sub hsub, h.chains, h.bytes⟩

theorem Within.walk (hp : p.Planned) (h : p.Within left k d x attrs) {c : Decode Unit}
    (hw : p.Walks anyField c d) (hr : c.Reads) {u : Unit} (hc : c d = .ok u d') :
    p.Within left k d' x attrs := by
  have hafter : after c d = d' := by simp [after, hc]
  have hlen := hr.length_le d
  unfold Walks at hw
  rw [hafter] at hw hlen
  obtain ⟨i, hi, hheight⟩ := h.chains
  obtain ⟨j, hj, hkept⟩ := hw.frame.object x i hi
  exact ⟨h.scope.steps hp hw, ⟨j, hj, hkept.className ▸ hheight⟩, Nat.le_trans hlen h.bytes⟩

theorem Within.inside (hp : p.Planned) {a : Attribute} (hw : p.Within left k d x [a])
    {refs : List Nat} (ho : p.Opened anyField d.store x a refs) {z : Nat} (hz : z ∈ refs) :
    ∃ obj, d.store.get? z = some obj ∧ ∃ e ∈ p.registry.classes, e.name = obj.className ∧
      ∃ j, k = j + 1 ∧ p.Within left j d z (p.registry.serialised e.name) := by
  obtain ⟨i, hi, hin⟩ := ho.inside
  obtain ⟨i', hi', hheight⟩ := hw.chains
  cases Option.some.inj (hi.symm.trans hi')
  obtain ⟨j, hj, hdecl⟩ := hw.scope.declared
  cases Option.some.inj (hi.symm.trans hj)
  obtain ⟨inner, hcls, hemb⟩ := hw.scope.sound.inside_class hi (hdecl a List.mem_cons_self)
    (hin ▸ hz)
  obtain ⟨obj, hobj, rfl⟩ := Option.map_eq_some_iff.mp hcls
  obtain ⟨e, he, hen⟩ := (hw.scope.sound.object z obj hobj).ready.class hp
  cases k with
  | zero => exact hheight.elim
  | succ k =>
    exact ⟨obj, hobj, e, he, hen, k, rfl, hen ▸ ho.object hz hobj, ⟨obj, hobj, hheight _ hemb⟩,
      hw.bytes⟩

theorem Within.element (hp : p.Planned) {e : ClassDescription}
    (hheight : Height p.registry.Embeds k e.name) (hs : p.Sound d.store)
    (hleft : d.rest.length ≤ left) {objects : Array Instance} {ref : Nat}
    (hb : p.build d.store.size e.name = .ok (objects, ref)) :
    p.Within left k { d with store := d.store.append objects } ref
      (p.registry.serialised e.name) := by
  obtain ⟨-, -, hcls, -⟩ := build_grown hp hs hb
  obtain ⟨i, hi, hic⟩ := Option.map_eq_some_iff.mp hcls
  exact ⟨Scope.element hp hs (fun _ _ _ => trivial) hb, ⟨i, hi, hic ▸ hheight⟩, hleft⟩

/-- Two depths give the same where plans nest less deep than a bound. -/
def SameBelow (p : Program) (m m' bound : Nat) : Prop :=
  ∀ left k y, ∀ c ∈ p.registry.classes, ∀ d,
    p.Within left k d y (p.registry.serialised c.name) →
    p.nesting left k (p.registry.level c.name) < bound →
    p.decodeInto m y c.name d = p.decodeInto m' y c.name d

theorem Planned.level_le (hp : p.Planned) {c : ClassDescription} (hc : c ∈ p.registry.classes) :
    p.registry.level c.name ≤ p.plans.length := by
  have hlevel := hp.rooted.level_lt hp.consistent.names_nodup hc
  have hle := hp.classes_le
  omega

variable {m m' bound level : Nat} {a : Attribute}

theorem SameBelow.visit (hp : p.Planned) (h : p.SameBelow m m' bound)
    (hbound : p.nesting left k level ≤ bound) {refs : List Nat}
    (hw : p.Within left k d x [a]) (ho : p.Opened anyField d.store x a refs) {y : Option Nat}
    (hy : ∀ z, y = some z → z ∈ refs) :
    Program.visit (p.decodeInto m) y d = Program.visit (p.decodeInto m') y d := by
  cases y with
  | none => rfl
  | some z =>
    obtain ⟨obj, hz, e, he, hen, j, rfl, hin⟩ := hw.inside hp ho (hy z rfl)
    simp only [Program.visit, hz, ← hen]
    exact h left j z e he d hin (Nat.lt_of_lt_of_le (nesting_inside (hp.level_le he)) hbound)

theorem SameBelow.elements (hp : p.Planned) (h : p.SameBelow m m' bound) {e : ClassDescription}
    (he : e ∈ p.registry.classes) (hheight : Height p.registry.Embeds k e.name)
    (hbound : p.nesting left k (p.registry.level e.name) < bound) (n : Nat)
    (hs : p.Sound d.store) (hleft : d.rest.length ≤ left) :
    Decode.elements (p.make e.name) (p.decodeInto m · e.name) n d =
      Decode.elements (p.make e.name) (p.decodeInto m' · e.name) n d := by
  induction n generalizing d with
  | zero => rfl
  | succ n ih =>
    simp only [Decode.elements, bind_apply, outcome_apply, make]
    cases hb : p.build d.store.size e.name with
    | error e => rfl
    | ok made =>
      obtain ⟨objects, ref⟩ := made
      have hin : p.Within left k { d with store := d.store.append objects } ref
          (p.registry.serialised e.name) := .element hp hheight hs hleft hb
      simp only [bind_apply, outcome_apply, ← h left k ref e he _ hin hbound]
      cases hf : p.decodeInto m ref e.name { d with store := d.store.append objects } with
      | error e d₁ => rfl
      | ok u d₁ =>
        have hin' := hin.walk hp (decodeInto_walks hp m ref e.name _ hin.scope)
          (decodeInto_reads hp m ref e.name) hf
        simp only [bind_apply, ih hin'.scope.sound hin'.bytes]

theorem SameBelow.action (hp : p.Planned) (hg : p.registry.Grounded) (h : p.SameBelow m m' bound)
    (hbound : p.nesting left k level ≤ bound) {c : ClassDescription}
    (hc : c ∈ p.registry.classes) (ha : a ∈ c.attributes) (hw : p.Within left k d x [a])
    (hcount : ∀ field, a.CountedBy field → d.rest.length < left) {i : Instance}
    (hi : d.store.get? x = some i) :
    p.decodeAction (p.decodeInto m) x i (Plan.wire a).unmarshal d =
      p.decodeAction (p.decodeInto m') x i (Plan.wire a).unmarshal d := by
  cases Attribute.form (hp.kind_ne_none hc ha) with
  | word q hk => rw [decodeAction_word p _ x i d hk, decodeAction_word p _ x i d hk]
  | object cls hk =>
    rw [decodeAction_object p _ x i d hk, decodeAction_object p _ x i d hk]
    exact h.visit hp hbound hw ⟨hw.scope, i, hi, rfl⟩ fun z hz => by simp [Instance.inside, hk, hz]
  | array n e hk he =>
    obtain ⟨ws, error, d', hsc, -, -⟩ := scalars_apply e.type n.toNat d
    rw [decodeAction_array p _ x i d hk he hsc, decodeAction_array p _ x i d hk he hsc]
  | objects n e hk he =>
    have hin : i.inside a = i.objectArray a.name := by simp [Instance.inside, hk, he]
    rw [decodeAction_objects p _ x i d hk he, decodeAction_objects p _ x i d hk he]
    refine forM_congr (fun _ d => p.Within left k d x [a] ∧
      p.Opened anyField d.store x a (i.objectArray a.name)) _ (fun before y rest hl d hinv => ?_)
      d ⟨hw, hw.scope, i, hi, hin⟩
    obtain ⟨hw, ho⟩ := hinv
    have hy : ∀ z, some y = some z → z ∈ i.objectArray a.name := by
      rintro z ⟨⟩
      rw [hl]
      simp
    refine ⟨h.visit hp hbound hw ho hy, fun d' hd' => ?_⟩
    have hwalk := visit_walks (fun y name d hs => decodeInto_walks hp m y name d hs) ho hy
    refine ⟨hw.walk hp hwalk (visit_reads (decodeInto_reads hp m) _) hd', ?_⟩
    have hsteps : p.Steps anyField d.store d'.store := by
      simpa only [Walks, after, hd'] using hwalk
    exact ho.steps hp hsteps
  | words field e hk he =>
    by_cases hmany : maxListCount < (i.uint field).toNat
    · rw [decodeAction_tooMany p _ x i d hk hmany, decodeAction_tooMany p _ x i d hk hmany]
    · obtain ⟨ws, error, d', hsc, -, -⟩ := scalars_apply e.type (i.uint field).toNat d
      rw [decodeAction_words p _ x i d hk he (Nat.not_lt.mp hmany) hsc,
        decodeAction_words p _ x i d hk he (Nat.not_lt.mp hmany) hsc]
  | list field e hk he =>
    by_cases hmany : maxListCount < (i.uint field).toNat
    · rw [decodeAction_tooMany p _ x i d hk hmany, decodeAction_tooMany p _ x i d hk hmany]
    · have hsound := hp.consistent.kinds c hc a ha
      simp only [Registry.KindSound, hk, Registry.ElementSound, he, if_true] at hsound
      obtain ⟨q, hq, hqn⟩ := Registry.contains_iff.mp hsound.1
      have hlt : p.nesting d.rest.length p.registry.classes.length (p.registry.level q.name) <
          bound := Nat.lt_of_lt_of_le
        (nesting_element (hcount field ⟨e, hk⟩) hp.classes_le (hp.level_le hq)) hbound
      have hsame := h.elements hp hq (hg q hq) hlt (i.uint field).toNat hw.scope.sound
        (Nat.le_refl _)
      rw [hqn] at hsame
      obtain ⟨refs, error, d', hel, -, -⟩ := elements_walks hp
        (fun y name d hs => decodeInto_walks hp m y name d hs) e.className (i.uint field).toNat d
        hw.scope.sound hw.scope.new
      rw [decodeAction_list p _ x i d hk he (Nat.not_lt.mp hmany) hel,
        decodeAction_list p _ x i d hk he (Nat.not_lt.mp hmany) (hsame ▸ hel)]

theorem decodeStep_congr {below below' : Nat → String → Decode Unit} {name : String} {act : Action}
    (h : ∀ i, d.store.get? x = some i →
      p.decodeAction below x i act d = p.decodeAction below' x i act d) :
    p.decodeStep below x name act d = p.decodeStep below' x name act d := by
  unfold decodeStep
  cases hi : d.store.get? x with
  | none => rfl
  | some i => simp only [h i hi]

/-- A count, like every word, takes bytes. -/
theorem decodeStep_word_lt {below : Nat → String → Decode Unit} {name : String} {q : Primitive}
    (hk : a.kind = some (.primitive q)) (hq : q.type.isCanonical = true)
    (h : p.decodeStep below x name (Plan.wire a).unmarshal d = .ok () d') :
    d'.rest.length < d.rest.length := by
  unfold decodeStep at h
  cases hi : d.store.get? x with
  | none => simp [hi] at h
  | some i =>
    simp only [hi, decodeAction_word p below x i d hk] at h
    cases hs : scalar q.type d with
    | error e d₁ => simp [hs] at h
    | ok w d₁ =>
      obtain ⟨b, hb, -, htook, -⟩ := scalar_ok hq hs
      simp only [hs, EStateM.Result.ok.injEq, true_and] at h
      subst h
      have hpos := (TypeName.width_pos hq).1
      simp only [htook.rest, List.length_append]
      omega

/-- Some attributes of a class have been decoded into an object. Behind a count fewer bytes are left
than before it. -/
structure Passed (p : Program) (left k : Nat) (c : ClassDescription) (x : Nat)
    (before : List Attribute) (d : Decoding) : Prop where
  within : p.Within left k d x (p.registry.serialised c.name)
  fewer : ∀ b ∈ before, ∀ q, b.kind = some (.primitive q) → d.rest.length < left

theorem Passed.attribute (hp : p.Planned) {c : ClassDescription} (hc : c ∈ p.registry.classes)
    {before rest : List Attribute} (h : p.Passed left k c x before d)
    (hl : c.serialised = before ++ a :: rest) :
    a ∈ c.attributes ∧ p.Within left k d x [a] ∧
      ∀ field, a.CountedBy field → d.rest.length < left := by
  have ha : a ∈ c.serialised := by simp [hl]
  refine ⟨(List.mem_filter.mp ha).1, h.within.sub (by simpa using hp.serialised_own hc ha), ?_⟩
  intro field hf
  obtain ⟨b, hb, q, -, hbk, -⟩ := hp.count_before hc hl hf
  exact h.fewer b hb q hbk

theorem Passed.step (hp : p.Planned) {c : ClassDescription} (hc : c ∈ p.registry.classes)
    {before rest : List Attribute} (h : p.Passed left k c x before d)
    (hl : c.serialised = before ++ a :: rest)
    (hd' : p.decodeStep (p.decodeInto m) x c.name (Plan.wire a).unmarshal d = .ok () d') :
    p.Passed left k c x (before ++ [a]) d' := by
  obtain ⟨hown, hwa, -⟩ := h.attribute hp hc hl
  have hk := hp.kind_ne_none hc hown
  have hwalk : p.Walks anyField (p.decodeStep (p.decodeInto m) x c.name
      (Plan.wire a).unmarshal) d := decodeStep_walks fun i hi => decodeAction_walks hp
    (fun y name d hs => decodeInto_walks hp m y name d hs) hk hwa.scope hi
  have hreads : (p.decodeStep (p.decodeInto m) x c.name (Plan.wire a).unmarshal).Reads :=
    decodeStep_reads fun i => decodeAction_reads (decodeInto_reads hp m) hk
  have hlen := hreads.length_le d
  simp only [after, hd'] at hlen
  refine ⟨h.within.walk hp hwalk hreads hd', fun b hb q hq => ?_⟩
  rcases List.mem_append.mp hb with hb | hb
  · exact Nat.lt_of_le_of_lt hlen (h.fewer b hb q hq)
  · rw [List.mem_singleton.mp hb] at hq
    have hcanon := hp.consistent.kinds c hc a hown
    simp only [Registry.KindSound, hq] at hcanon
    exact Nat.lt_of_lt_of_le (decodeStep_word_lt hq hcanon hd') h.within.bytes

theorem Within.parent (hp : p.Planned) {c q : ClassDescription} (hqn : q.name = c.parent)
    (hsub : p.registry.serialised q.name ⊆ p.registry.serialised c.name)
    (hw : p.Within left k d x (p.registry.serialised c.name)) {u : Unit}
    (hd' : p.decodeStep (p.decodeInto m) x c.name { op := .super, className := c.parent } d =
      .ok u d') : p.Within left k d' x (p.registry.serialised c.name) := by
  have hwalk : p.Walks anyField (p.decodeStep (p.decodeInto m) x c.name
      { op := .super, className := c.parent }) d :=
    decodeStep_walks fun i _ => decodeInto_walks hp m x c.parent d (hqn ▸ hw.scope.sub hsub)
  have hreads : (p.decodeStep (p.decodeInto m) x c.name
      { op := .super, className := c.parent }).Reads :=
    decodeStep_reads fun _ => decodeInto_reads hp m x c.parent
  exact hw.walk hp hwalk hreads hd'

theorem SameBelow.attributes (hp : p.Planned) (hg : p.registry.Grounded)
    (h : p.SameBelow m m' bound) (hbound : p.nesting left k level ≤ bound) {c : ClassDescription}
    (hc : c ∈ p.registry.classes) (hw : p.Within left k d x (p.registry.serialised c.name)) :
    (c.serialised.forM fun a => p.decodeStep (p.decodeInto m) x c.name (Plan.wire a).unmarshal) d =
      (c.serialised.forM fun a =>
        p.decodeStep (p.decodeInto m') x c.name (Plan.wire a).unmarshal) d := by
  refine forM_congr (p.Passed left k c x) _ (fun before a rest hl d hinv => ?_) d ⟨hw, by simp⟩
  obtain ⟨hown, hwa, hcount⟩ := hinv.attribute hp hc hl
  exact ⟨decodeStep_congr fun i hi => h.action hp hg hbound hc hown hwa hcount hi,
    fun d' hd' => hinv.step hp hc hl hd'⟩

theorem SameBelow.step (hp : p.Planned) (hg : p.registry.Grounded) (h : p.SameBelow m m' bound) :
    p.SameBelow (m + 1) (m' + 1) (bound + 1) := by
  intro left k x c hc d hw hlt
  have hbound := Nat.le_of_lt_succ hlt
  rw [decodeInto_class hp hc, decodeInto_class hp hc, bind_apply, bind_apply]
  by_cases hpar : c.hasParent = true
  · obtain ⟨q, hq, hqn, hsub, hlevel⟩ := hp.parent hc hpar
    have hfirst : p.decodeStep (p.decodeInto m) x c.name { op := .super, className := c.parent } d =
        p.decodeStep (p.decodeInto m') x c.name { op := .super, className := c.parent } d := by
      refine decodeStep_congr fun i _ => ?_
      have hparent := h left k x q hq d (hw.sub hsub) (by unfold nesting at hbound ⊢; omega)
      rw [hqn] at hparent
      exact hparent
    simp only [hpar, if_true, ← hfirst]
    cases hd : p.decodeStep (p.decodeInto m) x c.name { op := .super, className := c.parent } d with
    | error e d' => rfl
    | ok u d' => exact h.attributes hp hg hbound hc (hw.parent hp hqn hsub hd)
  · simp only [hpar]
    exact h.attributes hp hg hbound hc hw

theorem sameBelow (hp : p.Planned) (hg : p.registry.Grounded) (m m' : Nat) :
    p.SameBelow m m' (min m m') := by
  induction m generalizing m' with
  | zero =>
    intro left k y c _ d _ hlt
    rw [Nat.zero_min] at hlt
    exact (Nat.not_lt_zero _ hlt).elim
  | succ m ih =>
    cases m' with
    | zero =>
      intro left k y c _ d _ hlt
      exact (Nat.not_lt_zero _ hlt).elim
    | succ m' =>
      have hstep := (ih m').step hp hg
      rwa [← Nat.add_min_add_right] at hstep

theorem nesting_lt_decodeDepth (hp : p.Planned) {c : ClassDescription}
    (hc : c ∈ p.registry.classes) (s : Store) (bytes : List UInt8) :
    p.nesting bytes.length p.registry.classes.length (p.registry.level c.name) <
      p.decodeDepth s bytes := by
  have hlast : p.nesting bytes.length p.registry.classes.length (p.registry.level c.name) <
      p.nesting (bytes.length + 1) 0 0 :=
    nesting_element (Nat.lt_succ_self _) hp.classes_le (hp.level_le hc)
  refine Nat.lt_of_lt_of_le hlast ?_
  unfold nesting decodeDepth
  exact Nat.mul_le_mul_right _ (by omega)

theorem Within.whole (hs : p.Sound s) {i : Instance} (hi : s.get? x = some i)
    (hheight : Height p.registry.Embeds k i.className) (bytes : List UInt8) (offset : Nat) :
    p.Within bytes.length k ⟨s, bytes, offset⟩ x (p.registry.serialised i.className) :=
  ⟨⟨hs, ⟨i, hi, fun a ha => serialised_sub _ _ a ha⟩, fun _ _ _ => trivial, fun _ _ _ => trivial⟩,
    ⟨i, hi, hheight⟩, Nat.le_refl _⟩

theorem decodeInto_deeper (hp : p.Planned) (hg : p.registry.Grounded) (hs : p.Sound s)
    {i : Instance} (hi : s.get? x = some i) (bytes : List UInt8) (offset : Nat) {depth : Nat}
    (hdepth : p.decodeDepth s bytes ≤ depth) :
    p.decodeInto (p.decodeDepth s bytes) x i.className ⟨s, bytes, offset⟩ =
      p.decodeInto depth x i.className ⟨s, bytes, offset⟩ := by
  obtain ⟨c, hc, hcn⟩ := (hs.object x i hi).ready.class hp
  have hwhole := Within.whole hs hi (hcn ▸ hg c hc) bytes offset
  rw [← hcn] at hwhole ⊢
  refine sameBelow hp hg _ depth bytes.length _ x c hc ⟨s, bytes, offset⟩ hwhole ?_
  rw [Nat.min_eq_left hdepth]
  exact nesting_lt_decodeDepth hp hc s bytes

theorem unmarshal_eq_of_le (hp : p.Planned) (hg : p.registry.Grounded) (hs : p.Sound s)
    {i : Instance} (hi : s.get? x = some i) (bytes : List UInt8) {depth : Nat}
    (hdepth : p.decodeDepth s bytes ≤ depth) :
    p.unmarshal s x bytes = match p.decodeInto depth x i.className ⟨s, bytes, 0⟩ with
      | .ok () d => (d.store, d.offset, none)
      | .error e d => (d.store, d.offset, some e) := by
  rw [← decodeInto_deeper hp hg hs hi bytes 0 hdepth]
  unfold unmarshal
  split
  · next hnone => simp [hi] at hnone
  · next j hj =>
    cases Option.some.inj (hi.symm.trans hj)
    rfl

theorem unmarshal_count_le (hp : p.Planned) (s : Store) (x : Nat) (bytes : List UInt8) :
    (p.unmarshal s x bytes).2.1 ≤ bytes.length := by
  unfold unmarshal
  cases hi : s.get? x with
  | none => exact Nat.zero_le _
  | some i =>
    have hreads := decodeInto_reads hp (p.decodeDepth s bytes) x i.className
    have htook : ∀ {b d}, Decoding.Took ⟨s, bytes, 0⟩ b d → d.offset ≤ bytes.length := by
      intro b d h
      have hrest := congrArg List.length h.rest
      have hoffset := h.offset
      simp only [List.length_append, Nat.zero_add] at hrest hoffset
      omega
    simp only
    cases hd : p.decodeInto (p.decodeDepth s bytes) x i.className ⟨s, bytes, 0⟩ with
    | ok u d =>
      obtain ⟨b, hb, -⟩ := hreads.ok hd
      exact htook hb
    | error e d =>
      obtain ⟨b, hb⟩ := hreads.error hd
      exact htook hb

/-- Decoding that succeeds reads `n` bytes and stands on these alone: it ends the same way whatever
follows them, and without the last of them it runs out of bytes. -/
theorem unmarshal_selfDelimiting {source : Registry} {options : PlanOptions}
    (h : p.Compiled source options) (ops : List Operation) (x : Nat) (data : List UInt8) :
    (p.unmarshal (p.run ops) x data).2.1 ≤ data.length ∧
    ∀ t n, p.unmarshal (p.run ops) x data = (t, n, none) →
      (∀ suffix, p.unmarshal (p.run ops) x (data.take n ++ suffix) = (t, n, none)) ∧
      ∀ m < n, ∃ t' n' e, p.unmarshal (p.run ops) x (data.take m) = (t', n', some e) ∧
        e.IsShort := by
  have hp := h.toPlanned
  have hg := h.built.grounded h.isSealed
  have hs := run_sound hp ops
  refine ⟨unmarshal_count_le hp _ x data, fun t n hun => ?_⟩
  generalize p.run ops = s at hs hun ⊢
  obtain ⟨i, hi⟩ : ∃ i, s.get? x = some i := by
    cases hi : s.get? x with
    | none => simp [unmarshal, hi] at hun
    | some i => exact ⟨i, rfl⟩
  -- at any depth that is enough for `data` the bytes that were read are those in front
  have hcut : ∀ depth, p.decodeDepth s data ≤ depth →
      n ≤ data.length ∧ (p.decodeInto depth x i.className).Cut s (data.take n) () t := by
    intro depth hdepth
    rw [unmarshal_eq_of_le hp hg hs hi data hdepth] at hun
    cases hd : p.decodeInto depth x i.className ⟨s, data, 0⟩ with
    | error e d => simp [hd] at hun
    | ok u d =>
      obtain ⟨b, hb, hcut⟩ := (decodeInto_reads hp depth x i.className).ok hd
      simp only [hd, Prod.mk.injEq, and_true] at hun
      obtain ⟨rfl, rfl⟩ := hun
      have hlen : d.offset = b.length := by simpa using hb.offset
      have hdata : data = b ++ d.rest := hb.rest
      rw [hlen, hdata, List.take_left]
      exact ⟨by simp, hcut⟩
  refine ⟨fun suffix => ?_, fun m hm => ?_⟩
  · let depth := max (p.decodeDepth s data) (p.decodeDepth s (data.take n ++ suffix))
    obtain ⟨hn, hcut⟩ := hcut depth (Nat.le_max_left _ _)
    rw [unmarshal_eq_of_le hp hg hs hi _ (Nat.le_max_right _ _ : _ ≤ depth),
      hcut.consumes suffix 0]
    simp [Nat.min_eq_left hn]
  · let depth := max (p.decodeDepth s data) (p.decodeDepth s (data.take m))
    obtain ⟨hn, hcut⟩ := hcut depth (Nat.le_max_left _ _)
    have hsplit : data.take n = data.take m ++ (data.drop m).take (n - m) := by
      rw [← List.take_add, Nat.add_sub_of_le (Nat.le_of_lt hm)]
    have hne : (data.drop m).take (n - m) ≠ [] := by
      rw [← List.length_pos_iff, List.length_take, List.length_drop]
      omega
    obtain ⟨e, d, hd, hshort⟩ := hcut.short _ _ hsplit hne 0
    rw [unmarshal_eq_of_le hp hg hs hi _ (Nat.le_max_right _ _ : _ ≤ depth), hd]
    exact ⟨_, _, e, rfl, hshort⟩

end Program

/-- A route that other bytes were decoded into before reads eleven bytes and needs the last. -/
theorem unmarshal_selfDelimiting_mixed : ∃ t,
    Survey.program.unmarshal (Survey.program.run Survey.mixed) 4 Survey.routeBytes = (t, 11, none) ∧
    Survey.program.unmarshal (Survey.program.run Survey.mixed) 4
      (Survey.routeBytes.take 11 ++ [1, 2]) = (t, 11, none) ∧
    ∃ t' n e, Survey.program.unmarshal (Survey.program.run Survey.mixed) 4
      (Survey.routeBytes.take 10) = (t', n, some e) ∧ e.IsShort := by
  obtain ⟨t, hun⟩ := Survey.unmarshal_routeBytes
  obtain ⟨hsuffix, hshort⟩ := (Program.unmarshal_selfDelimiting Survey.program_compiled Survey.mixed
    4 Survey.routeBytes).2 _ _ hun
  exact ⟨t, hun, hsuffix [1, 2], hshort 10 (by decide)⟩

end PduCompiler
