import PduCompiler.Proofs.Failing
import PduCompiler.Proofs.Rewriting
import PduCompiler.Proofs.Trees

/-! Decoding that fails. It stops at an attribute of the object, perhaps in an object that it holds
there. All attributes before it were read, with lists as long as their counts; all others, and the
transient ones, have the values they had. -/

namespace PduCompiler

open Decode Relation

/-- The attribute at which an error arose in an object, and the error that arose there. Through the
plans of its classes an error passes without a name. -/
inductive MachineError.Blames : MachineError → String → MachineError → Prop
  | step (className attr : String) (cause : MachineError) :
      Blames (.within className attr cause) attr cause
  | inherited (className : String) {e cause : MachineError} {attr : String}
      (h : Blames e attr cause) : Blames (.within className "" e) attr cause

namespace Decode

theorem forM_error {β : Type} {step : β → Decode Unit} {l : List β} {d d' : Decoding}
    {e : MachineError} (h : l.forM step d = .error e d') :
    ∃ before b later d₁, l = before ++ b :: later ∧ before.forM step d = .ok () d₁ ∧
      step b d₁ = .error e d' := by
  induction l generalizing d with
  | nil => cases h
  | cons b l ih =>
    rw [show (b :: l).forM step = (step b >>= fun _ => l.forM step) from rfl, bind_apply] at h
    cases hb : step b d with
    | error e₁ d₁ =>
      rw [hb] at h
      exact ⟨[], b, l, d, rfl, rfl, hb.trans h⟩
    | ok u d₁ =>
      rw [hb] at h
      obtain ⟨before, b', later, d₂, rfl, hok, herr⟩ := ih h
      refine ⟨b :: before, b', later, d₂, rfl, ?_, herr⟩
      rw [show (b :: before).forM step = (step b >>= fun _ => before.forM step) from rfl,
        bind_apply, hb]
      exact hok

theorem failWith_error {error : Option MachineError} {e : MachineError} {d d' : Decoding}
    (h : failWith error d = .error e d') : error = some e ∧ d' = d := by
  rw [failWith_apply] at h
  cases error with
  | none => cases h
  | some e =>
    cases h
    exact ⟨rfl, rfl⟩

theorem elements_some {make : Decode Ref} {fill : Ref → Decode Unit} {n : Nat} {d d' : Decoding}
    {refs : List Ref} {e : MachineError} (h : elements make fill n d = .ok (refs, some e) d') :
    ∃ m before d₁, elements make fill m d = .ok (before, none) d₁ ∧
      (refs = before ∧ make d₁ = .error e d' ∨
        ∃ y d₂, refs = before ++ [y] ∧ make d₁ = .ok y d₂ ∧ fill y d₂ = .error e d') := by
  induction n generalizing d refs with
  | zero => cases h
  | succ n ih =>
    simp only [elements, bind_apply, outcome_apply] at h
    cases hm : make d with
    | error e₁ d₁ =>
      simp only [hm] at h
      cases h
      exact ⟨0, [], d, rfl, .inl ⟨rfl, hm⟩⟩
    | ok ref d₁ =>
      simp only [hm, bind_apply, outcome_apply] at h
      cases hf : fill ref d₁ with
      | error e₁ d₂ =>
        simp only [hf] at h
        cases h
        exact ⟨0, [], d, rfl, .inr ⟨ref, d₁, rfl, hm, hf⟩⟩
      | ok u d₂ =>
        simp only [hf, bind_apply] at h
        cases hr : elements make fill n d₂ with
        | error e₁ d₃ => simp [hr] at h
        | ok rest d₃ =>
          obtain ⟨rest, error⟩ := rest
          simp only [hr] at h
          cases h
          obtain ⟨m, before, d₄, hok, hcases⟩ := ih hr
          refine ⟨m + 1, ref :: before, d₄, ?_, ?_⟩
          · simp only [elements, bind_apply, outcome_apply, hm, hf, hok, pure_apply]
          · rcases hcases with ⟨rfl, he⟩ | ⟨y, d₅, rfl, hy⟩
            · exact .inl ⟨rfl, he⟩
            · exact .inr ⟨y, d₅, rfl, hy⟩

end Decode

theorem Store.Frame.any {writes : Nat → String → Prop} {s t : Store} (h : Store.Frame writes s t) :
    Store.Frame Program.anyField s t :=
  h.mono fun _ _ _ => trivial

theorem Instance.Part.of_mem {below : String → Nat → List UInt8 → Prop} {i : Instance}
    {a : Attribute} {part : List UInt8} (h : i.Part below a part) {y : Nat} (hy : y ∈ i.refsAt a) :
    ∃ name part, below name y part := by
  cases hk : a.kind with
  | none => simp [refsAt, hk] at hy
  | some k =>
    cases k with
    | primitive q => simp [refsAt, hk] at hy
    | object name =>
      simp only [Part, hk] at h
      obtain ⟨z, hz, hb⟩ := h
      obtain rfl : z = y := by simpa [refsAt, hk, hz, eq_comm] using hy
      exact ⟨name, part, hb⟩
    | fixedList n e =>
      cases he : e.isObject with
      | false => simp [refsAt, hk, he] at hy
      | true =>
        simp only [Part, hk, he, if_true] at h
        obtain ⟨parts, hparts, -⟩ := h
        obtain ⟨part, -, hb⟩ := forall₂_of_mem hparts (by simpa [refsAt, hk, he] using hy)
        exact ⟨_, part, hb⟩
    | dynamicList field e =>
      cases he : e.isObject with
      | false => simp [refsAt, hk, he] at hy
      | true =>
        simp only [Part, hk, he, if_true] at h
        obtain ⟨-, parts, hparts, -⟩ := h
        obtain ⟨part, -, hb⟩ := forall₂_of_mem hparts (by simpa [refsAt, hk, he] using hy)
        exact ⟨_, part, hb⟩

namespace Program

/-- The dynamic lists among some attributes of an object are as long as their counts, and so are all
lists of the objects that these attributes hold. -/
inductive Tallied (p : Program) (t : Store) : Nat → List Attribute → Prop
  | intro {x : Nat} {attrs : List Attribute} {j : Instance} (hj : t.get? x = some j)
      (hcount : ∀ a ∈ attrs, ∀ field, a.CountedBy field →
        j.listLength a.name = (j.uint field).toNat)
      (hbelow : ∀ a ∈ attrs, ∀ y ∈ j.refsAt a, ∀ obj, t.get? y = some obj →
        Tallied p t y (p.registry.serialised obj.className)) : Tallied p t x attrs

variable {p : Program} {o s t : Store} {x y : Nat}

theorem Filled.tallied (hp : p.Planned) (hno : p.registry.NoRedeclaration) (ht : p.Sound t)
    {I : Store → Nat → Attribute → Prop} {R : Nat → String → Prop} {k : Nat}
    {attrs : List Attribute} {b : List UInt8} {j : Instance} (hj : t.get? x = some j)
    (hsub : attrs ⊆ p.registry.allAttributes j.className) (h : p.Filled I R t k x attrs b) :
    p.Tallied t x attrs := by
  induction k generalizing x attrs b j with
  | zero => exact h.elim
  | succ k ih =>
    have hfilled := h
    obtain ⟨j', hj', -, -, parts, hparts, -⟩ := h
    cases Option.some.inj (hj.symm.trans hj')
    refine .intro hj (fun a ha field hf => ?_) fun a ha y hy obj hobj => ?_
    · exact hfilled.listLength hp ht hno hj ha (hsub ha) hf
    · obtain ⟨part, -, hpart⟩ := forall₂_of_mem hparts ha
      obtain ⟨name, part, hcls, hbelow⟩ := hpart.of_mem hy
      obtain rfl : obj.className = name := by simpa [Store.class?, hobj] using hcls
      exact ih hobj (fun b hb => serialised_sub _ _ b hb) hbelow

def Whole (p : Program) (t : Store) (x : Nat) : Prop :=
  ∃ j, t.get? x = some j ∧ p.Tallied t x (p.registry.serialised j.className)

theorem Filled.whole (hp : p.Planned) (hno : p.registry.NoRedeclaration) (ht : p.Sound t)
    {I : Store → Nat → Attribute → Prop} {R : Nat → String → Prop} {k : Nat} {name : String}
    {b : List UInt8} (hcls : t.class? x = some name)
    (h : p.Filled I R t k x (p.registry.serialised name) b) : p.Whole t x := by
  obtain ⟨j, hj, rfl⟩ := Option.map_eq_some_iff.mp hcls
  exact ⟨j, hj, h.tallied hp hno ht hj fun b hb => serialised_sub _ _ b hb⟩

/-- How far decoding into an object had come when it failed at an attribute: it had read those
before, in the order of the wire, and left alone all but these. -/
structure Halted (p : Program) (o t : Store) (x : Nat) (j : Instance) (before : List Attribute)
    (a : Attribute) : Prop where
  object : t.get? x = some j
  wire : before ++ [a] <+: p.registry.serialised j.className
  read : p.Tallied t x before
  kept : ∀ b ∈ p.registry.allAttributes j.className, b ∉ before ++ [a] →
    o.Unchanged p.registry t x b

/-- What a store looks like in which decoding into an object failed: at one of its own values, or
inside an object that it holds. -/
inductive Stopped (p : Program) (o t : Store) : Nat → MachineError → Prop
  | here {x : Nat} {e cause : MachineError} {j : Instance} {before : List Attribute}
      {a : Attribute} (hblames : e.Blames a.name cause) (h : p.Halted o t x j before a)
      (hown : j.inside a = [])
      (hread : o.Unchanged p.registry t x a ∨ ∀ y ∈ j.refsAt a, p.Whole t y) : Stopped p o t x e
  | within {x y : Nat} {e cause : MachineError} {j : Instance} {before : List Attribute}
      {a : Attribute} {read rest : List Nat} (hblames : e.Blames a.name cause)
      (h : p.Halted o t x j before a) (hrefs : j.refsAt a = read ++ y :: rest)
      (hread : ∀ z ∈ read, p.Whole t z)
      (hrest : ∀ z ∈ rest, z < o.size → ∀ depth,
        t.viewTo p.registry depth z = o.viewTo p.registry depth z)
      (hy : Stopped p o t y cause) : Stopped p o t x e

theorem Stopped.inherited {e : MachineError} (h : p.Stopped o t x e) (name : String) :
    p.Stopped o t x (.within name "" e) := by
  cases h with
  | here hblames h hown hread => exact .here (.inherited name hblames) h hown hread
  | within hblames h hrefs hread hrest hy =>
    exact .within (.inherited name hblames) h hrefs hread hrest hy

/-- The objects that decoding into an object may touch, together with those it reached before. -/
def Domain (o s : Store) (x z : Nat) : Prop := s.Owns x z ∨ s.size ≤ z ∨ o.Reaches x z

/-- Decoding into an object started in `d`, had read some attributes in `e` and then failed at
another one in `d'`. From there to `t` nothing is written that has to do with the object. -/
structure Breaks (p : Program) (o : Store) (k : Nat) (d : Decoding) (x : Nat) (i : Instance)
    (before : List Attribute) (a : Attribute) (e d' : Decoding) (t : Store) : Prop where
  origin : o.Origin d.store x
  start : p.Sound d.store
  object : d.store.get? x = some i
  wire : before ++ [a] <+: p.registry.serialised i.className
  names : ∀ b ∈ before ++ (p.registry.allAttributes i.className).filter (·.transient),
    a.name ≠ b.name
  reached : p.Reached (fun _ _ _ => True) k d x
    ((p.registry.allAttributes i.className).filter (·.transient)) before e
  steps : p.Steps (fun z f => e.store.Zone x [a] z f ∨ e.store.size ≤ z) e.store d'.store
  later : Store.Frame (fun z _ => ¬ Domain o d.store x z) d'.store t
  sound : p.Sound t

/-- Decoding at a depth that fails, other than for want of depth, stops at an attribute. The store
is looked at later, as the list around a failing element is still put in place. -/
def Stopping (p : Program) (o : Store) (depth : Nat) : Prop :=
  ∀ {x : Nat} {c : ClassDescription} {i : Instance} {d d' : Decoding} {t : Store}
    {error : MachineError}, c ∈ p.registry.classes → p.Sound d.store → d.store.get? x = some i →
    p.registry.serialised c.name <+: p.registry.serialised i.className → o.Origin d.store x →
    error.root ≠ .endless → p.decodeInto depth x c.name d = .error error d' → p.Sound t →
    Store.Frame (fun z _ => ¬ Domain o d.store x z) d'.store t → p.Stopped o t x error

theorem Stopping.object (hp : p.Planned) {depth : Nat} (h : p.Stopping o depth) {name : String}
    {d d' : Decoding} {error : MachineError} (hs : p.Sound d.store)
    (hcls : d.store.class? x = some name) (horigin : o.Origin d.store x)
    (hroot : error.root ≠ .endless) (hd : p.decodeInto depth x name d = .error error d')
    (ht : p.Sound t) (hf : Store.Frame (fun z _ => ¬ Domain o d.store x z) d'.store t) :
    p.Stopped o t x error := by
  obtain ⟨i, hi, rfl⟩ := Option.map_eq_some_iff.mp hcls
  obtain ⟨c, hc, hcn⟩ := (hs.object x i hi).ready.class hp
  rw [← hcn] at hd
  exact h hc hs hi (hcn ▸ List.prefix_refl _) horigin hroot hd ht hf

theorem decodeInto_fills (hp : p.Planned) (hno : p.registry.NoRedeclaration) (depth : Nat) :
    p.Fills (fun _ _ _ => True) depth (p.decodeInto depth) :=
  Reaching.fills hp (decodeInto_reached hp hno (.trivial p) depth)

theorem Sound.inside_nodup (hs : p.Sound s) {i : Instance} (hi : s.get? x = some i)
    (a : Attribute) : (i.inside a).Nodup := by
  unfold Instance.inside
  split
  · cases i.object? a.name <;> simp
  · split
    · exact hs.objectArray_nodup hi a.name
    · exact List.nodup_nil
  · exact List.nodup_nil

section

variable {k : Nat} {d e d' : Decoding} {i : Instance} {before : List Attribute} {a : Attribute}

theorem Breaks.outcome (h : p.Breaks o k d x i before a e d' t) :
    ∃ j' j, d'.store.get? x = some j' ∧ t.get? x = some j ∧ j.className = i.className ∧
      j'.Kept (fun _ => False) j ∧ ∀ b, j.inside b = i.inside b := by
  obtain ⟨i', hi', hk⟩ := h.reached.steps.frame.object x i h.object
  obtain ⟨j', hj', hk'⟩ := h.steps.frame.object x i' hi'
  obtain ⟨j, hj, hk''⟩ := h.later.object x j' hj'
  refine ⟨j', j, hj', hj, ?_, hk''.mono fun f hf => hf (.inl .refl), fun b => ?_⟩
  · rw [hk''.className, hk'.className, hk.className]
  · rw [hk''.inside, hk'.inside, hk.inside]

theorem Breaks.confined (ho : p.Sound o) (h : p.Breaks o k d x i before a e d' t)
    (hx : x < o.size) (hspared : o.Spared d.store x) : o.Confined t x (before ++ [a]) := by
  have hread := hspared.confined.step ho hx h.reached.steps.frame
  have hfailed := hread.step ho hx h.steps.frame
  exact hfailed.later h.later fun z hz => .inr (.inr hz)

theorem Breaks.unread (ho : p.Sound o) (h : p.Breaks o k d x i before a e d' t)
    (hsame : d'.store = e.store) : o.Unchanged p.registry t x a := by
  refine h.origin.unchanged ho (fun hx hspared => ?_)
    (fun b hb heq => h.names b (List.mem_append_left _ hb) heq.symm) _
  have hread := hspared.confined.step ho hx h.reached.steps.frame
  exact hread.later (hsame ▸ h.later) fun z hz => .inr (.inr hz)

theorem Breaks.halted (hp : p.Planned) (hno : p.registry.NoRedeclaration) (ho : p.Sound o)
    (h : p.Breaks o k d x i before a e d' t) {j : Instance} (hj : t.get? x = some j)
    (hcls : j.className = i.className) : p.Halted o t x j before a := by
  have hall : before ++ [a] ⊆ p.registry.allAttributes i.className := fun b hb =>
    serialised_sub _ _ b (h.wire.subset hb)
  refine ⟨hj, hcls ▸ h.wire, ?_, fun b hb hnot => ?_⟩
  · obtain ⟨b, -, hfilled⟩ := h.reached.keep hp (.trivial p) h.start h.object h.names h.steps
    have hs : p.Sound d'.store := h.steps.sound hp (h.reached.steps.sound hp h.start)
    have hlast := hfilled.frame (.trivial p) hs h.later fun z f hz hw => hw <| by
      rcases hz with hz | hz
      · exact .inl hz.owns
      · exact .inr (.inl hz.1)
    refine hlast.tallied hp hno h.sound hj fun b hb => ?_
    rw [hcls]
    exact hall (List.mem_append_left _ hb)
  · refine h.origin.unchanged ho (h.confined ho) (fun c hc hname => ?_) _
    have hnd := h.start.names_nodup hp hno h.object
    have heq := List.inj_on_of_nodup_map hnd (hall hc) (hcls ▸ hb) hname
    exact hnot (heq ▸ hc)

theorem Breaks.embeds (h : p.Breaks o k d x i before a e d' t) (hy : y ∈ i.inside a) :
    d.store.Embeds x y :=
  ⟨i, h.object, Instance.inside_embedded hy⟩

theorem Breaks.domain (h : p.Breaks o k d x i before a e d' t) {e₁ : Decoding}
    (hf : Store.Frame anyField d.store e₁.store) (hy : y ∈ i.inside a) {z : Nat}
    (hz : Domain o e₁.store y z) : Domain o d.store x z := by
  have hy := h.embeds hy
  rcases hz with hz | hz | hz
  · exact .inl (.head hy (hf.owns h.start (hy.lt_size h.start) hz))
  · exact .inr (.inl (Nat.le_trans hf.size_le hz))
  · rcases h.origin.place with ⟨hx, -, hspared⟩ | hnew
    · have hy' : o.Embeds x y := (Store.Frame.embeds hspared hx).mp hy
      exact .inr (.inr (.head hy'.refers hz))
    · have hzy := Store.Reaches.eq_of_ge (hnew y (.single hy)) hz
      exact .inl (hzy ▸ .single hy)

theorem Breaks.origin_inside (ho : p.Sound o) (h : p.Breaks o k d x i before a e d' t)
    {visited : List Nat} (hvisited : visited ⊆ i.inside a) (hy : y ∈ i.inside a)
    (hnot : y ∉ visited) {e₁ : Decoding}
    (hf : Store.Frame (fun z _ => (∃ w ∈ visited, e.store.Owns w z) ∨ e.store.size ≤ z)
      e.store e₁.store) : o.Origin e₁.store y := by
  have hle := h.reached.steps.frame.size_le
  have hlt := (h.embeds hy).lt_size h.start
  have hframe : Store.Frame (fun z f => d.store.Zone x before z f ∨
      (∃ w ∈ visited, d.store.Owns w z) ∨ d.store.size ≤ z) d.store e₁.store := by
    refine (h.reached.steps.frame.mono fun z f hz => ?_).trans (hf.mono fun z f hz => ?_)
    · exact hz.imp_right .inr
    · rcases hz with ⟨w, hw, hwz⟩ | hz
      · have hwlt := (h.embeds (hvisited hw)).lt_size h.start
        exact .inr (.inl ⟨w, hw, h.reached.steps.frame.owns h.start hwlt hwz⟩)
      · exact .inr (.inr (Nat.le_trans hle hz))
  refine h.origin.inside ho h.start (h.embeds hy) hframe ?_ ?_
  · rintro z f (hz | ⟨w, hw, hwz⟩ | hz)
    · exact .inl hz.owns
    · exact .inl (.head (h.embeds (hvisited hw)) hwz)
    · exact .inr hz
  · rintro z f hyz (hz | hz | hz)
    · have hza : d.store.Zone x [a] z f := ⟨i, h.object, a, List.mem_cons_self, .inr ⟨y, hy, hyz⟩⟩
      refine Store.Zone.disjoint h.start (fun b hb c hc => ?_) hza hz
      rw [List.mem_singleton.mp hb]
      exact h.names c (List.mem_append_left _ hc)
    · have hin := List.forall_mem_cons.mpr ⟨h.embeds hy, fun w hw => h.embeds (hvisited hw)⟩
      exact Store.Embeds.apart h.start hin hnot hz hyz
    · exact absurd (hyz.lt_size h.start hlt) (Nat.not_lt.mpr hz)

variable {error cause : MachineError}

section

variable {e₁ : Decoding} {name : String} {read : List Nat} {y : Nat}

theorem Breaks.visited_whole (hp : p.Planned) (hno : p.registry.NoRedeclaration)
    (h : p.Breaks o (k + 1) d x i before a e d' t) (hin : y :: read ⊆ i.inside a) (hnot : y ∉ read)
    (hcls : ∀ w ∈ read, e.store.class? w = some name)
    (hv : p.Visited (fun _ _ _ => True) k name e read e₁)
    (hfailed : p.Steps (fun z _ => e₁.store.Owns y z ∨ e₁.store.size ≤ z) e₁.store d'.store) :
    ∀ w ∈ read, p.Whole t w := by
  intro w hw
  have hfront := h.reached.steps.frame
  have hse := h.reached.steps.sound hp h.start
  have hembeds : ∀ w ∈ y :: read, e.store.Embeds x w := fun w hw =>
    (hfront.embeds (Store.get?_lt h.object)).mpr (h.embeds (hin hw))
  obtain ⟨parts, -, hparts⟩ := hv.keep hp (.trivial p) hse hembeds hnot hfailed
  obtain ⟨part, -, hfilled⟩ := forall₂_of_mem hparts hw
  have hsd := hfailed.sound hp (hv.steps.sound hp hse)
  have hlast := hfilled.frame (.trivial p) hsd h.later fun z f hz hdom => ?_
  · have hwcls := hfailed.frame.class? (hv.steps.frame.class? (hcls w hw))
    exact hlast.whole hp hno h.sound (h.later.class? hwcls)
  · rcases hz with ⟨v, hv, hz⟩ | hz
    · exact hdom (h.domain hfront.any (hin (List.mem_cons_of_mem _ hv)) (.inl hz))
    · exact hdom (.inr (.inl (Nat.le_trans hfront.size_le hz.1)))

theorem Breaks.unvisited_view (ho : p.Sound o) (h : p.Breaks o k d x i before a e d' t)
    {visited : List Nat} (hvisited : visited ⊆ i.inside a) {z : Nat} (hz : z ∈ i.inside a)
    (hnot : z ∉ visited) (hlt : z < o.size)
    (hf : Store.Frame (fun z _ => (∃ w ∈ visited, e.store.Owns w z) ∨ e.store.size ≤ z)
      e.store d'.store) (depth : Nat) :
    t.viewTo p.registry depth z = o.viewTo p.registry depth z := by
  rcases (h.origin_inside ho hvisited hz hnot hf).place with ⟨-, -, hspared⟩ | hnew
  · have hlast : o.Spared t z := Store.Frame.trans hspared (h.later.mono fun w f hw hr =>
      hw (h.domain (.refl anyField d.store) hz (.inr (.inr hr))))
    exact hlast.viewTo ho hlt p.registry depth
  · exact absurd hlt (Nat.not_lt.mpr (hnew z .refl))

end

theorem Breaks.inside (hp : p.Planned) (hno : p.registry.NoRedeclaration) (ho : p.Sound o)
    (ih : p.Stopping o k) (h : p.Breaks o (k + 1) d x i before a e d' t) {name : String}
    (hcls : ∀ y ∈ i.inside a, e.store.class? y = some name)
    (hrefs : ∀ j : Instance, j.refsAt a = j.inside a) (hblames : error.Blames a.name cause)
    (hroot : cause.root ≠ .endless)
    (herr : (i.inside a).forM (fun y => visit (p.decodeInto k) (some y)) e = .error cause d') :
    p.Stopped o t x error := by
  obtain ⟨read, y, rest, e₁, hl, hok, hbad⟩ := forM_error herr
  have hnd := h.start.inside_nodup h.object a
  rw [hl] at hnd
  obtain ⟨hndr, hndy, hapart⟩ := List.nodup_append.mp hnd
  have hin : y :: read ⊆ i.inside a := fun w hw => by
    rw [hl]
    rcases List.mem_cons.mp hw with rfl | hw <;> simp [*]
  have hy : y ∈ i.inside a := hin List.mem_cons_self
  have hread : read ⊆ i.inside a := fun w hw => hin (List.mem_cons_of_mem _ hw)
  have hnot : y ∉ read := fun hyr => hapart y hyr y List.mem_cons_self rfl
  have hfront := h.reached.steps.frame
  have hse := h.reached.steps.sound hp h.start
  have hv := visits_filled hp (.trivial p) (decodeInto_moves hp k) (decodeInto_fills hp hno k) hse
    (fun w hw => (hfront.embeds (Store.get?_lt h.object)).mpr (h.embeds (hread hw))) hndr
    (fun w hw => hcls w (hread hw)) (fun w _ _ _ _ _ _ _ _ => trivial) hok
  have hse₁ := hv.steps.sound hp hse
  have hycls := hv.steps.frame.class? (hcls y hy)
  rw [visit_eq hycls] at hbad
  have hfailed := ((decodeInto_moves hp k).walks hse₁ hycls).steps_of_error hbad
  obtain ⟨j', j, hj', hj, hjc, hk, hjin⟩ := h.outcome
  refine .within hblames (h.halted hp hno ho hj hjc) ((hrefs j).trans ((hjin a).trans hl))
    (h.visited_whole hp hno hin hnot (fun w hw => hcls w (hread hw)) hv hfailed)
    (fun z hz hlt depth => ?_) ?_
  · have hframe : Store.Frame (fun z _ => (∃ w ∈ y :: read, e.store.Owns w z) ∨ e.store.size ≤ z)
        e.store d'.store := by
      refine (hv.steps.frame.mono fun z f hz => ?_).trans (hfailed.frame.mono fun z f hz => ?_)
      · refine hz.imp_left ?_
        rintro ⟨w, hw, hwz⟩
        exact ⟨w, List.mem_cons_of_mem _ hw, hwz⟩
      · refine hz.imp (fun hz => ⟨y, List.mem_cons_self, ?_⟩) (Nat.le_trans hv.steps.frame.size_le)
        exact hv.steps.frame.owns hse (Store.class?_lt (hcls y hy)) hz
    refine h.unvisited_view ho hin (hl ▸ by simp [hz]) (fun hzy => ?_) hlt hframe depth
    rcases List.mem_cons.mp hzy with rfl | hzr
    · exact (List.nodup_cons.mp hndy).1 hz
    · exact hapart z hzr z (List.mem_cons_of_mem _ hz) rfl
  · refine ih.object hp hse₁ hycls (h.origin_inside ho hread hy hnot hv.steps.frame) hroot hbad
      h.sound (h.later.mono fun z f hz hz' => hz (h.domain ?_ hy hz'))
    exact hfront.any.trans hv.steps.frame.any

theorem Breaks.here (hp : p.Planned) (hno : p.registry.NoRedeclaration) (ho : p.Sound o)
    (h : p.Breaks o k d x i before a e d' t) (hblames : error.Blames a.name cause)
    (hown : i.inside a = []) (hread : o.Unchanged p.registry t x a ∨
      ∀ j, t.get? x = some j → ∀ y ∈ j.refsAt a, p.Whole t y) : p.Stopped o t x error := by
  obtain ⟨-, j, -, hj, hjc, -, hjin⟩ := h.outcome
  exact .here hblames (h.halted hp hno ho hj hjc) ((hjin a).trans hown)
    (hread.imp_right fun hwhole => hwhole j hj)

section

variable {e₁ d₂ : Decoding} {read refs : List Nat}

/-- The elements that were read before the failing one have nothing written after them. -/
theorem Breaks.elements_whole (hp : p.Planned) (hno : p.registry.NoRedeclaration)
    (h : p.Breaks o (k + 1) d x i before a e d' t) {name : String} {n : Nat}
    (hel : elements (p.make name) (p.decodeInto k · name) n e = .ok (read, none) e₁)
    (hf : Store.Frame (fun z _ => e₁.store.size ≤ z) e₁.store d₂.store)
    (hset : Store.Frame (fun z _ => z = x) d₂.store d'.store) : ∀ y ∈ read, p.Whole t y := by
  intro y hy
  have hx := Store.get?_lt h.object
  have hle := h.reached.steps.frame.size_le
  have hse := h.reached.steps.sound hp h.start
  obtain ⟨-, hsteps, parts, -, hparts⟩ :=
    elements_filled hp (.trivial p) (decodeInto_moves hp k) (decodeInto_fills hp hno k) hse hel
  obtain ⟨part, -, hcls, hfilled⟩ := forall₂_of_mem hparts hy
  have hlater : Store.Frame (fun z _ => e₁.store.size ≤ z ∨ z = x ∨ ¬ Domain o d.store x z)
      e₁.store t :=
    ((hf.mono fun z _ hz => .inl hz).trans (hset.mono fun z _ hz => .inr (.inl hz))).trans
      (h.later.mono fun z _ hz => .inr (.inr hz))
  refine (hfilled.frame (.trivial p) (hsteps.sound hp hse) hlater fun z f hz hw => ?_).whole hp hno
    h.sound (hlater.class? hcls)
  rcases hw with hw | hw | hw
  · omega
  · omega
  · exact hw (.inr (.inl (Nat.le_trans hle hz.1)))

theorem Breaks.refsAt_list (h : p.Breaks o k d x i before a e d' t) {field : String} {el : Element}
    (hq : a.kind = some (.dynamicList field el)) (he : el.isObject = true) {j₂ j : Instance}
    (hj₂ : d₂.store.get? x = some j₂)
    (hset : d'.store = d₂.store.modify x fun j => { j with lists := j.lists.set a.name refs })
    (hj : t.get? x = some j) : j.refsAt a = refs := by
  have hd' : d'.store.get? x = some { j₂ with lists := j₂.lists.set a.name refs } := by
    simp [hset, Store.modify, hj₂, Store.get?_set]
  obtain ⟨j', j₁, hj', hj₁, -, hk, -⟩ := h.outcome
  cases Option.some.inj (hj.symm.trans hj₁)
  cases Option.some.inj (hd'.symm.trans hj')
  rw [Instance.refsAt_of_agree (hk.agree a.name id a.slot)]
  simp [Instance.refsAt, hq, he, Instance.list, Table.get?_set]

theorem domain_of_new {s' : Store} (hg : p.Grown s s') (hle : o.size ≤ s.size) (hy : s.size ≤ y)
    {z : Nat} (hz : Domain o s' y z) : s.size ≤ z := by
  rcases hz with hz | hz | hz
  · exact hz.of_grown hg hy
  · exact Nat.le_trans hg.size_le hz
  · exact (Store.Reaches.eq_of_ge (Nat.le_trans hle hy) hz) ▸ hy

theorem Breaks.element (hp : p.Planned) (hno : p.registry.NoRedeclaration) (ho : p.Sound o)
    (ih : p.Stopping o k) (h : p.Breaks o (k + 1) d x i before a e d' t) {name : String} {n : Nat}
    {objects : Array Instance}
    (hel : elements (p.make name) (p.decodeInto k · name) n e = .ok (read, none) e₁)
    (hbuild : p.build e₁.store.size name = .ok (objects, y))
    (hfill : p.decodeInto k y name { e₁ with store := e₁.store.append objects } = .error cause d₂)
    (hset : Store.Frame (fun z _ => z = x) d₂.store d'.store)
    (hrefs : ∀ j, t.get? x = some j → j.refsAt a = read ++ [y])
    (hblames : error.Blames a.name cause) (hroot : cause.root ≠ .endless) :
    p.Stopped o t x error := by
  have hx := Store.get?_lt h.object
  have hle := h.reached.steps.frame.size_le
  have hse := h.reached.steps.sound hp h.start
  obtain ⟨-, hsteps, -⟩ :=
    elements_filled hp (.trivial p) (decodeInto_moves hp k) (decodeInto_fills hp hno k) hse hel
  have hle₁ := hsteps.frame.size_le
  have hlt : o.size ≤ e₁.store.size := Nat.le_trans h.origin.size_le (Nat.le_trans hle hle₁)
  obtain ⟨hg, hge, hcls, -⟩ := build_grown hp (hsteps.sound hp hse) hbuild
  have hnew : ∀ z, Domain o (e₁.store.append objects) y z → e₁.store.size ≤ z :=
    fun z hz => domain_of_new hg hlt hge hz
  have hgrow : p.Steps (fun z _ => e₁.store.size ≤ z) e₁.store (e₁.store.append objects) :=
    .single (.grow hbuild)
  have hfailed := ((decodeInto_moves hp k).walks hg.sound hcls).steps_of_error hfill
  have hf : Store.Frame (fun z _ => e₁.store.size ≤ z) e₁.store d₂.store :=
    hgrow.frame.trans (hfailed.frame.mono fun z _ hz => hnew z (hz.imp_right .inl))
  have horigin : o.Origin (e₁.store.append objects) y :=
    ⟨Nat.le_trans hlt hg.size_le, .inr fun z hz => Nat.le_trans hlt (hnew z (.inl hz))⟩
  obtain ⟨-, j, -, hj, hjc, -, -⟩ := h.outcome
  refine .within hblames (h.halted hp hno ho hj hjc) (hrefs j hj)
    (h.elements_whole hp hno hel hf hset) (by simp)
    (ih.object hp hg.sound hcls horigin hroot hfill h.sound ?_)
  refine (hset.mono fun z _ hz hdom => ?_).trans (h.later.mono fun z _ hz hdom => hz ?_)
  · have hge := hnew z hdom
    omega
  · exact .inr (.inl (Nat.le_trans (Nat.le_trans hle hle₁) (hnew z hdom)))

theorem Breaks.list (hp : p.Planned) (hno : p.registry.NoRedeclaration) (ho : p.Sound o)
    (ih : p.Stopping o k) (h : p.Breaks o (k + 1) d x i before a e d' t) {i' : Instance}
    (hi' : e.store.get? x = some i') (ha : a ∈ p.registry.allAttributes i'.className)
    {field : String} {el : Element} (hq : a.kind = some (.dynamicList field el))
    (he : el.isObject = true) (hblames : error.Blames a.name cause) (hroot : cause.root ≠ .endless)
    (herr : p.decodeAction (p.decodeInto k) x i' (Plan.wire a).unmarshal e = .error cause d') :
    p.Stopped o t x error := by
  have hown : i.inside a = [] := by simp [Instance.inside, hq]
  by_cases hc : maxListCount < (i'.uint field).toNat
  · rw [decodeAction_tooMany p _ x i' e hq hc] at herr
    cases herr
    exact h.here hp hno ho hblames hown (.inl (h.unread ho rfl))
  have hse := h.reached.steps.sound hp h.start
  obtain ⟨refs, failed, d₂, hel, hsteps, hlt⟩ := elements_walks hp
    (decodeInto_moves hp k fun z _ => e.store.size ≤ z) el.className (i'.uint field).toNat e hse
    fun _ _ hz => hz
  rw [decodeAction_list p _ x i' e hq he (Nat.not_lt.mp hc) hel] at herr
  obtain ⟨rfl, rfl⟩ := failWith_error herr
  obtain ⟨j₂, hj₂, hk₂⟩ := hsteps.frame.object x i' hi'
  have hset := (setList_steps hj₂ (hk₂.className ▸ ha) hq he hlt).frame.mono fun z _ hz => hz.1
  have hrefs : ∀ j, t.get? x = some j → j.refsAt a = refs := fun j hj =>
    h.refsAt_list hq he hj₂ rfl hj
  obtain ⟨m, read, e₁, hok, hcases⟩ := elements_some hel
  rcases hcases with ⟨rfl, hmake⟩ | ⟨y, d₃, rfl, hmake, hfill⟩
  · obtain ⟨-, rfl⟩ := make_eq_error hmake
    have hwhole := h.elements_whole hp hno hok (.refl _ _) hset
    exact h.here hp hno ho hblames hown (.inr fun j hj y hy => hwhole y (hrefs j hj ▸ hy))
  · obtain ⟨objects, hbuild, rfl⟩ := make_eq_ok hmake
    exact h.element hp hno ho ih hok hbuild hfill hset hrefs hblames hroot

end

theorem Breaks.stopped (hp : p.Planned) (hno : p.registry.NoRedeclaration) (ho : p.Sound o)
    (ih : p.Stopping o k) (h : p.Breaks o (k + 1) d x i before a e d' t) {i' : Instance}
    (hi' : e.store.get? x = some i') (ha : a ∈ p.registry.allAttributes i'.className)
    (hkind : a.kind ≠ none) (hblames : error.Blames a.name cause) (hroot : cause.root ≠ .endless)
    (herr : p.decodeAction (p.decodeInto k) x i' (Plan.wire a).unmarshal e = .error cause d') :
    p.Stopped o t x error := by
  have hse := h.reached.steps.sound hp h.start
  have hholds := hse.holds hp hno hi' ha
  obtain ⟨i₁, hi₁, hk₁⟩ := h.reached.steps.frame.object x i h.object
  cases Option.some.inj (hi'.symm.trans hi₁)
  cases Attribute.form hkind with
  | word q hq =>
    exact h.here hp hno ho hblames (by simp [Instance.inside, hq])
      (.inr fun j _ => by simp [Instance.refsAt, hq])
  | array n el hq he =>
    exact h.here hp hno ho hblames (by simp [Instance.inside, hq, he])
      (.inr fun j _ => by simp [Instance.refsAt, hq, he])
  | words field el hq he =>
    exact h.here hp hno ho hblames (by simp [Instance.inside, hq])
      (.inr fun j _ => by simp [Instance.refsAt, hq, he])
  | list field el hq he => exact h.list hp hno ho ih hi' ha hq he hblames hroot herr
  | object name hq =>
    simp only [Instance.Holds, hq] at hholds
    obtain ⟨y, hy, hcls⟩ := hholds
    have hin : i.inside a = [y] := by
      rw [← hk₁.inside]
      simp [Instance.inside, hq, hy]
    refine h.inside hp hno ho ih (by simpa [hin] using hcls) (fun j => by
      simp [Instance.refsAt, Instance.inside, hq]) hblames hroot ?_
    rw [decodeAction_object p _ x i' e hq, hy] at herr
    rw [hin]
    show (visit (p.decodeInto k) (some y) >>= fun _ => pure ()) e = _
    rw [bind_apply, herr]
  | objects n el hq he =>
    simp only [Instance.Holds, hq, he, if_true] at hholds
    have hin : i.inside a = i'.objectArray a.name := by
      rw [← hk₁.inside]
      simp [Instance.inside, hq, he]
    rw [decodeAction_objects p _ x i' e hq he, ← hin] at herr
    exact h.inside hp hno ho ih (hin ▸ hholds.2) (fun j => by
      simp [Instance.refsAt, Instance.inside, hq, he]) hblames hroot herr

end

theorem wire_attr {a : Attribute} (hk : a.kind ≠ none) : (Plan.wire a).unmarshal.attr = a.name := by
  cases Attribute.form hk with
  | word q hq | object name hq => simp [Plan.wire, Plan.wireActions, hq, Except.toOption]
  | array n e hq he | objects n e hq he | words field e hq he | list field e hq he =>
    simp [Plan.wire, Plan.wireActions, hq, he, Except.toOption]

theorem Stopping.inherited (hp : p.Planned) {depth : Nat} (h : p.Stopping o depth)
    {c : ClassDescription} {i : Instance} {d d' : Decoding} {error : MachineError}
    (hc : c ∈ p.registry.classes) (hs : p.Sound d.store) (hi : d.store.get? x = some i)
    (hwire : p.registry.serialised c.name <+: p.registry.serialised i.className)
    (horigin : o.Origin d.store x) (hroot : error.root ≠ .endless)
    (hd : (if c.hasParent then p.decodeStep (p.decodeInto depth) x c.name
      { op := .super, className := c.parent } else pure ()) d = .error error d')
    (ht : p.Sound t) (hlater : Store.Frame (fun z _ => ¬ Domain o d.store x z) d'.store t) :
    p.Stopped o t x error := by
  by_cases hpar : c.hasParent = true
  · rw [if_pos hpar] at hd
    obtain ⟨q, hq, hqn, -, -⟩ := hp.parent hc hpar
    have hser := hp.serialised_eq hc
    rw [Plan.inherited, if_pos hpar, ← hqn] at hser
    rcases decodeStep_eq_error hd with ⟨hnone, -⟩ | ⟨i', cause, hi', hact, rfl⟩
    · simp [hi] at hnone
    · have hsuper : p.decodeInto depth x q.name d = .error cause d' := hqn ▸ hact
      have hprefix : p.registry.serialised q.name <+: p.registry.serialised i.className :=
        (hser ▸ List.prefix_append _ _).trans hwire
      have hcause : cause.root ≠ .endless := hroot
      exact (h hq hs hi hprefix horigin hcause hsuper ht hlater).inherited c.name
  · rw [if_neg hpar] at hd
    cases hd

theorem decodeInto_stopping (hp : p.Planned) (hno : p.registry.NoRedeclaration) (ho : p.Sound o)
    (depth : Nat) : p.Stopping o depth := by
  induction depth with
  | zero =>
    intro x c i d d' t error _ _ _ _ _ hroot h _ _
    cases h
    exact (hroot rfl).elim
  | succ depth ih =>
    intro x c i d d' t error hc hs hi hwire horigin hroot h ht hlater
    rw [decodeInto_class hp hc, bind_apply] at h
    generalize hfront : (if c.hasParent then p.decodeStep (p.decodeInto depth) x c.name
      { op := .super, className := c.parent } else pure ()) d = front at h
    cases front with
    | error err d₁ =>
      cases h
      exact ih.inherited hp hc hs hi hwire horigin hroot hfront ht hlater
    | ok u d₁ =>
      obtain ⟨before, a, rest, e, hl, hok, hbad⟩ := forM_error h
      have ha : a ∈ c.serialised := by simp [hl]
      have hall := serialised_sub _ _ a (hwire.subset (hp.serialised_own hc ha))
      have hkind := hp.kind_ne_none hc (List.mem_filter.mp ha).1
      have hreaching : p.Reaching (fun _ _ _ => True) depth :=
        decodeInto_reached hp hno (.trivial p) depth
      have hr := (hreaching.inherited hp hc hs hi hwire.subset (fun _ _ _ _ _ _ _ => trivial)
        hfront).attributes hp hno (.trivial p) hreaching hc hs hi hwire.subset
        (fun _ _ _ _ _ _ _ => trivial) hl hok
      obtain ⟨i', hi', hkept⟩ := hr.steps.frame.object x i hi
      rw [← hkept.className] at hall
      rcases decodeStep_eq_error hbad with ⟨hnone, -⟩ | ⟨i₁, cause, hi₁, hact, rfl⟩
      · simp [hi'] at hnone
      cases Option.some.inj (hi'.symm.trans hi₁)
      have hse := hr.steps.sound hp hs
      have hbreaks : p.Breaks o (depth + 1) d x i (Plan.inherited c p.registry.serialised ++ before)
          a e d' t :=
        { origin := horigin
          start := hs
          object := hi
          wire := by
            refine List.IsPrefix.trans ?_ hwire
            rw [hp.serialised_eq hc, hl]
            exact ⟨rest, by simp⟩
          names := hs.names_apart hp hno hi hc hwire.subset hl
          reached := hr
          steps := decodeAction_zone hp hc ha hse hi' hall (by rw [after, hact])
          later := hlater
          sound := ht }
      rw [wire_attr hkind]
      exact hbreaks.stopped hp hno ho ih hi' hall hkind (.step c.name a.name cause) hroot hact

theorem unmarshal_eq_error {i : Instance} (hi : s.get? x = some i) {data : List UInt8} {n : Nat}
    {error : MachineError} (h : p.unmarshal s x data = (t, n, some error)) :
    ∃ d, p.decodeInto (p.decodeDepth s data) x i.className ⟨s, data, 0⟩ = .error error d ∧
      d.store = t := by
  obtain ⟨d, hd⟩ := unmarshal_error hi (show error ∈ (p.unmarshal s x data).2.2 by simp [h])
  refine ⟨d, hd, ?_⟩
  simp only [unmarshal, hi, hd] at h
  exact congrArg Prod.fst h

theorem Faulty.root_ne_endless {error : MachineError} (h : p.Faulty error) :
    error.root ≠ .endless := by
  intro hroot
  rw [Faulty, hroot] at h
  cases h

/-- Decoding that fails has read the attributes before the one that the error names and left alone
those after it, and so on inside an object in which it failed; the object stays well formed. -/
theorem unmarshal_stopped {source : Registry} {options : PlanOptions}
    (h : p.Compiled source options) (hno : p.registry.NoRedeclaration) (ops : List Operation)
    {i : Instance} (hi : (p.run ops).get? x = some i) (htree : (p.run ops).Tree x)
    {data : List UInt8} {n : Nat} {error : MachineError}
    (hun : p.unmarshal (p.run ops) x data = (t, n, some error)) :
    p.Stopped (p.run ops) t x error ∧ t.class? x = some i.className ∧
      ∀ y, t.Reaches x y → ∃ j, t.get? y = some j ∧
        ∀ a ∈ p.registry.allAttributes j.className, j.Holds t a := by
  have hp := h.toPlanned
  have hs := run_sound hp ops
  have hcls : (p.run ops).class? x = some i.className := by simp [Store.class?, hi]
  have hsteps := unmarshal_steps hp hs x data
  rw [hun] at hsteps
  have ht := hsteps.sound hp hs
  obtain ⟨d, hd, rfl⟩ := unmarshal_eq_error hi hun
  have hroot := (decodeInto_faulty hp (h.built.grounded h.isSealed) hs hi data 0 _ _ hd)
    |>.root_ne_endless
  have horigin : (p.run ops).Origin (p.run ops) x :=
    ⟨Nat.le_refl _, .inl ⟨Store.get?_lt hi, htree, .refl _ _⟩⟩
  have hstopping : p.Stopping (p.run ops) (p.decodeDepth (p.run ops) data) :=
    decodeInto_stopping hp hno hs _
  refine ⟨hstopping.object hp hs hcls horigin hroot hd ht (.refl _ _),
    hsteps.frame.class? hcls, fun y hy => ?_⟩
  have hx := Store.class?_lt (hsteps.frame.class? hcls)
  obtain ⟨j, hj⟩ := Store.get?_of_lt (hy.lt_size ht hx)
  exact ⟨j, hj, fun a ha => ht.holds hp hno hj ha⟩

end Program

namespace Survey

def staked : List Operation := [
  .new "Point", .new "Route", .append 2 "points" 0, .setUint 0 "x" 258, .setUint 1 "label" 4,
  .setArray 2 "codes" 1 6, .appendUint 2 "marks" 5]

def cutOff : List UInt8 := [5, 1, 0, 7, 9]

theorem staked_evaluated : 2 < (program.run staked).size ∧
    (program.run staked).isRanked id = true ∧
    ((program.run staked).objects.toList.flatMap fun i => i.embedded ++ i.elements).Nodup ∧
    (program.unmarshal (program.run staked) 2 cutOff).2 =
      (4, some (.within "Route" "origin" (.within "Point" "x" (.shortBuffer 2 4 1)))) := by
  decide +kernel

theorem staked_tree : (program.run staked).Tree 2 :=
  Store.tree_of_nodup (Store.acyclic_of_isRanked staked_evaluated.2.1 2) staked_evaluated.2.2.1

end Survey

theorem unmarshal_stopped_staked : ∃ i t,
    (Survey.program.run Survey.staked).get? 2 = some i ∧ (Survey.program.run Survey.staked).Tree 2 ∧
    Survey.program.unmarshal (Survey.program.run Survey.staked) 2 Survey.cutOff =
      (t, 4, some (.within "Route" "origin" (.within "Point" "x" (.shortBuffer 2 4 1)))) ∧
    Survey.program.Stopped (Survey.program.run Survey.staked) t 2
      (.within "Route" "origin" (.within "Point" "x" (.shortBuffer 2 4 1))) ∧
    t.class? 2 = some i.className ∧ ∀ y, t.Reaches 2 y → ∃ j, t.get? y = some j ∧
      ∀ a ∈ Survey.program.registry.allAttributes j.className, j.Holds t a := by
  obtain ⟨i, hi⟩ := Store.get?_of_lt Survey.staked_evaluated.1
  have hun : Survey.program.unmarshal (Survey.program.run Survey.staked) 2 Survey.cutOff =
      (_, 4, some (.within "Route" "origin" (.within "Point" "x" (.shortBuffer 2 4 1)))) :=
    Prod.ext rfl Survey.staked_evaluated.2.2.2
  exact ⟨i, _, hi, Survey.staked_tree, hun, Program.unmarshal_stopped Survey.program_compiled
    Survey.program_noRedeclaration Survey.staked hi Survey.staked_tree hun⟩

end PduCompiler
