import PduCompiler.Proofs.Consuming
import PduCompiler.Proofs.Ownership

/-! What successful decoding leaves behind. The object then holds, attribute by attribute and down
through the objects inside it and in its lists, exactly what the bytes say, and later steps that
stay clear of it keep it so. -/

namespace PduCompiler

open Decode

structure Decoding.Took (d : Decoding) (bytes : List UInt8) (d' : Decoding) : Prop where
  rest : d.rest = bytes ++ d'.rest
  offset : d'.offset = d.offset + bytes.length

theorem Decoding.Took.refl (d : Decoding) : d.Took [] d := ⟨rfl, rfl⟩

theorem Decoding.Took.trans {d e f : Decoding} {b b' : List UInt8} (h : d.Took b e)
    (h' : e.Took b' f) : d.Took (b ++ b') f := by
  refine ⟨?_, ?_⟩
  · rw [h.rest, h'.rest, List.append_assoc]
  · rw [h'.offset, h.offset, List.length_append, Nat.add_assoc]

def Blocks (width : Nat) (words : List Word) (bytes : List UInt8) : Prop :=
  ∃ blocks : List (List UInt8), (∀ b ∈ blocks, b.length = width) ∧ words = blocks.map wordOf ∧
    bytes = blocks.flatten

theorem Blocks.nil (width : Nat) : Blocks width [] [] := ⟨[], by simp, rfl, rfl⟩

theorem Blocks.cons {width : Nat} {words : List Word} {b bytes : List UInt8}
    (hb : b.length = width) (h : Blocks width words bytes) :
    Blocks width (wordOf b :: words) (b ++ bytes) := by
  obtain ⟨blocks, hw, rfl, rfl⟩ := h
  exact ⟨b :: blocks, List.forall_mem_cons.mpr ⟨hb, hw⟩, rfl, rfl⟩

namespace Decode

theorem scalar_ok {type : TypeName} (hc : type.isCanonical = true) {d d' : Decoding} {w : Word}
    (h : scalar type d = .ok w d') :
    ∃ b, b.length = type.width ∧ w = wordOf b ∧ d.Took b d' ∧ d'.store = d.store := by
  obtain ⟨sc, hsc⟩ := Option.isSome_iff_exists.mp hc
  have hw : type.width = sc.width := by rw [TypeName.width, hsc, Option.elim_some]
  simp only [scalar, hsc] at h
  split at h
  · cases h
  · next hlen =>
    cases h
    have hb : (d.rest.take sc.width).length = sc.width := by
      simp only [List.length_take] at hlen ⊢
      omega
    exact ⟨d.rest.take sc.width, by rw [hb, hw], rfl,
      ⟨(List.take_append_drop _ _).symm, by rw [hb]⟩, rfl⟩

theorem scalars_ok {type : TypeName} (hc : type.isCanonical = true) {n : Nat} {d d' : Decoding}
    {ws : List Word} (h : scalars type n d = .ok (ws, none) d') :
    ws.length = n ∧ d'.store = d.store ∧
      ∃ bytes, Blocks type.width ws bytes ∧ d.Took bytes d' := by
  induction n generalizing d ws with
  | zero =>
    cases h
    exact ⟨rfl, rfl, [], .nil _, .refl d'⟩
  | succ n ih =>
    simp only [scalars, bind_apply, outcome_apply] at h
    cases hw : scalar type d with
    | error e d₁ =>
      simp only [hw] at h
      cases h
    | ok w d₁ =>
      obtain ⟨ws', error, d₂, hd₂, -, -⟩ := scalars_apply type n d₁
      simp only [hw, bind_apply, hd₂] at h
      cases h
      obtain ⟨b, hb, rfl, htook, hst⟩ := scalar_ok hc hw
      obtain ⟨hn, hst', bytes, hbs, htook'⟩ := ih hd₂
      exact ⟨by simp [hn], hst'.trans hst, b ++ bytes, hbs.cons hb, htook.trans htook'⟩

theorem failWith_ok {error : Option MachineError} {d d' : Decoding}
    (h : failWith error d = .ok () d') : error = none ∧ d' = d := by
  rw [failWith_apply] at h
  cases error with
  | none =>
    cases h
    exact ⟨rfl, rfl⟩
  | some e => cases h

theorem forM_ok {β : Type} {step : β → Decode Unit} (Inv : List β → Decoding → Prop)
    (l : List β) (hstep : ∀ before b after, l = before ++ b :: after → ∀ d d', Inv before d →
      step b d = .ok () d' → Inv (before ++ [b]) d') {d d' : Decoding} (hd : Inv [] d)
    (h : l.forM step d = .ok () d') : Inv l d' := by
  induction l generalizing Inv d with
  | nil =>
    cases h
    exact hd
  | cons b l ih =>
    rw [show (b :: l).forM step = (step b >>= fun _ => l.forM step) from rfl, bind_apply] at h
    cases hb : step b d with
    | error e e' =>
      rw [hb] at h
      cases h
    | ok u e =>
      rw [hb] at h
      exact ih (fun before => Inv (b :: before))
        (fun before c after he => hstep (b :: before) c after (by rw [he, List.cons_append]))
        (hstep [] b l rfl d e hd hb) h

end Decode

/-- What some bytes make of an attribute of an object. `below` says what they make of an object of a
class that it holds there. -/
def Instance.Part (below : String → Nat → List UInt8 → Prop) (i : Instance) (a : Attribute)
    (part : List UInt8) : Prop :=
  match a.kind with
  | none => False
  | some (.primitive q) => part.length = q.type.width ∧ i.uint a.name = wordOf part
  | some (.object name) => ∃ y, i.object? a.name = some y ∧ below name y part
  | some (.fixedList n e) =>
    if e.isObject then ∃ parts, List.Forall₂ (below e.className) (i.objectArray a.name) parts ∧
      part = parts.flatten
    else (i.array a.name).length = n.toNat ∧ Blocks e.type.width (i.array a.name) part
  | some (.dynamicList field e) =>
    if e.isObject then (i.uint field).toNat = (i.list a.name).length ∧
      ∃ parts, List.Forall₂ (below e.className) (i.list a.name) parts ∧ part = parts.flatten
    else (i.uint field).toNat = (i.primList a.name).length ∧
      Blocks e.type.width (i.primList a.name) part

namespace Instance

theorem Part.imp {below below' : String → Nat → List UInt8 → Prop} {i j : Instance}
    {writes : String → Prop} (hk : i.Kept writes j) {a : Attribute} (ha : ¬ writes a.name)
    (hc : ∀ field, a.CountedBy field → ¬ writes field)
    (hb : ∀ name y part, below name y part → below' name y part) {part : List UInt8}
    (h : i.Part below a part) : j.Part below' a part := by
  have hagree := hk.agree a.name ha
  unfold Part at h ⊢
  cases hkind : a.kind with
  | none => simp [hkind] at h
  | some kind =>
    cases kind with
    | primitive q =>
      have hw : j.prims.get? a.name = i.prims.get? a.name := hagree .word
      simpa only [hkind, uint, hw] using h
    | object name =>
      simp only [hkind, object?, hk.objects] at h ⊢
      obtain ⟨y, hy, hp⟩ := h
      exact ⟨y, hy, hb _ _ _ hp⟩
    | fixedList n e =>
      have hw : j.arrays.get? a.name = i.arrays.get? a.name := hagree .array
      simp only [hkind, array, objectArray, hk.objectArrays, hw] at h ⊢
      split at h
      · next he =>
        rw [if_pos he]
        obtain ⟨parts, hp, rfl⟩ := h
        exact ⟨parts, hp.imp fun y part => hb _ y part, rfl⟩
      · next he =>
        rw [if_neg he]
        exact h
    | dynamicList field e =>
      have hf : j.prims.get? field = i.prims.get? field :=
        hk.agree field (hc field ⟨e, hkind⟩) .word
      have hl : j.lists.get? a.name = i.lists.get? a.name := hagree .list
      have hw : j.primLists.get? a.name = i.primLists.get? a.name := hagree .words
      simp only [hkind, uint, list, primList, hf, hl, hw] at h ⊢
      split at h
      · next he =>
        rw [if_pos he]
        obtain ⟨hlen, parts, hp, rfl⟩ := h
        exact ⟨hlen, parts, hp.imp fun y part => hb _ y part, rfl⟩
      · next he =>
        rw [if_neg he]
        exact h

theorem Part.below {below below' : String → Nat → List UInt8 → Prop} {i : Instance}
    {a : Attribute} (hb : ∀ name y part, below name y part → below' name y part)
    {part : List UInt8} (h : i.Part below a part) : i.Part below' a part :=
  h.imp (Kept.refl i fun _ => False) id (fun _ _ => id) hb

end Instance

namespace Program

/-- A fact about transient attributes that is true of new objects and is not disturbed from
elsewhere. -/
structure Persists (p : Program) (I : Store → Nat → Attribute → Prop) : Prop where
  frame : ∀ {s t : Store} {writes : Nat → String → Prop} {x : Nat} {a : Attribute},
    p.Sound s → x < s.size → Store.Frame writes s t →
    (∀ z f, s.Zone x [a] z f → ¬ writes z f) → I s x a → I t x a
  build : ∀ {s : Store} {name : String} {objects : Array Instance} {ref : Nat},
    p.Sound s → p.build s.size name = .ok (objects, ref) →
    ∀ z o, s.size ≤ z → (s.append objects).get? z = some o →
    ∀ a ∈ p.registry.allAttributes o.className, a.transient = true → I (s.append objects) z a

/-- Some attributes of an object hold what bytes say, down to a depth of objects. All that this
rests on lies in `R`, and `I` is true of the transient attributes on the way. -/
def Filled (p : Program) (I : Store → Nat → Attribute → Prop) (R : Nat → String → Prop)
    (s : Store) : Nat → Nat → List Attribute → List UInt8 → Prop
  | 0, _, _, _ => False
  | k + 1, x, attrs, bytes => ∃ i, s.get? x = some i ∧
      (∀ a ∈ attrs, R x a.name ∧ ∀ field, a.CountedBy field → R x field) ∧
      (∀ a ∈ p.registry.allAttributes i.className, a.transient = true →
        I s x a ∧ ∀ z f, s.Zone x [a] z f → R z f) ∧
      ∃ parts, List.Forall₂ (i.Part fun name y part => s.class? y = some name ∧
        p.Filled I R s k y (p.registry.serialised name) part) attrs parts ∧ bytes = parts.flatten

variable {p : Program} {I : Store → Nat → Attribute → Prop} {R R' : Nat → String → Prop}
  {s t : Store} {k x : Nat} {attrs attrs' : List Attribute} {b b' : List UInt8}

theorem Filled.mono (h : p.Filled I R s k x attrs b) (hR : ∀ z f, R z f → R' z f) :
    p.Filled I R' s k x attrs b := by
  induction k generalizing x attrs b with
  | zero => exact h
  | succ k ih =>
    obtain ⟨i, hi, hfields, htrans, parts, hparts, rfl⟩ := h
    refine ⟨i, hi, fun a ha => ⟨hR _ _ (hfields a ha).1, fun f hf => ?_⟩, fun a ha ht => ?_,
      parts, hparts.imp fun a part => Instance.Part.below fun name y part hy => ?_, rfl⟩
    · exact hR _ _ ((hfields a ha).2 f hf)
    · exact ⟨(htrans a ha ht).1, fun z f hz => hR z f ((htrans a ha ht).2 z f hz)⟩
    · exact ⟨hy.1, ih hy.2⟩

theorem Filled.succ (h : p.Filled I R s k x attrs b) : p.Filled I R s (k + 1) x attrs b := by
  induction k generalizing x attrs b with
  | zero => exact h.elim
  | succ k ih =>
    obtain ⟨i, hi, hfields, htrans, parts, hparts, rfl⟩ := h
    exact ⟨i, hi, hfields, htrans, parts, hparts.imp fun a part =>
      Instance.Part.below fun name y part hy => ⟨hy.1, ih hy.2⟩, rfl⟩

theorem Filled.frame (hI : p.Persists I) (hs : p.Sound s) {writes : Nat → String → Prop}
    (hf : Store.Frame writes s t) (hR : ∀ z f, R z f → ¬ writes z f)
    (h : p.Filled I R s k x attrs b) : p.Filled I R t k x attrs b := by
  induction k generalizing x attrs b with
  | zero => exact h
  | succ k ih =>
    obtain ⟨i, hi, hfields, htrans, parts, hparts, rfl⟩ := h
    obtain ⟨j, hj, hk⟩ := hf.object x i hi
    have hx := Store.get?_lt hi
    refine ⟨j, hj, hfields, fun a ha ht => ?_, parts, ?_, rfl⟩
    · obtain ⟨hia, hz⟩ := htrans a (hk.className ▸ ha) ht
      exact ⟨hI.frame hs hx hf (fun z f hzf => hR z f (hz z f hzf)) hia,
        fun z f hzf => hz z f (hf.zone hs hx hzf)⟩
    · refine ((List.forall₂_and_left _ _).mpr ⟨hfields, hparts⟩).imp fun a part ⟨hfa, hpart⟩ => ?_
      refine hpart.imp hk (hR x _ hfa.1) (fun field hc => hR x _ (hfa.2 field hc)) ?_
      rintro name y part ⟨hc, hy⟩
      exact ⟨hf.class? hc, ih hy⟩

def Idle (p : Program) (I : Store → Nat → Attribute → Prop) (s : Store) (x : Nat) : Prop :=
  ∀ z, s.Owns x z → ∀ o, s.get? z = some o →
    ∀ a ∈ p.registry.allAttributes o.className, a.transient = true → I s z a

theorem Idle.frame (hI : p.Persists I) (hs : p.Sound s) {writes : Nat → String → Prop}
    (hf : Store.Frame writes s t) (hx : x < s.size) (hw : ∀ z f, s.Owns x z → ¬ writes z f)
    (h : p.Idle I s x) : p.Idle I t x := by
  intro z hz o ho a ha ht
  have hz' := hf.owns hs hx hz
  have hlt := Store.Owns.lt_size hs hx hz'
  obtain ⟨i, hi⟩ := Store.get?_of_lt hlt
  obtain ⟨j, hj, hk⟩ := hf.object z i hi
  cases Option.some.inj (ho.symm.trans hj)
  refine hI.frame hs hlt hf (fun w f hwf => hw w f (hz'.trans hwf.owns)) ?_
  exact h z hz' i hi a (hk.className ▸ ha) ht

def Fills (p : Program) (I : Store → Nat → Attribute → Prop) (k : Nat)
    (below : Nat → String → Decode Unit) : Prop :=
  ∀ y name d d', p.Sound d.store → d.store.class? y = some name → p.Idle I d.store y →
    below y name d = .ok () d' → ∃ b, d.Took b d' ∧ p.Filled I
      (fun z _ => d.store.Owns y z ∨ d.store.size ≤ z ∧ z < d'.store.size) d'.store k y
      (p.registry.serialised name) b

/-- Decoding into objects takes small steps within what may be written, whatever that is. -/
def Moves (p : Program) (below : Nat → String → Decode Unit) : Prop :=
  ∀ (writes : Nat → String → Prop) y name d,
    p.Scope writes d.store y (p.registry.serialised name) → p.Walks writes (below y name) d

theorem Walks.steps {writes : Nat → String → Prop} {α : Type} {c : Decode α} {d d' : Decoding}
    {v : α} (h : p.Walks writes c d) (hc : c d = .ok v d') :
    p.Steps writes d.store d'.store := by
  simpa only [Walks, after, hc] using h

theorem Walks.steps_of_error {writes : Nat → String → Prop} {α : Type} {c : Decode α}
    {d d' : Decoding} {e : MachineError} (h : p.Walks writes c d) (hc : c d = .error e d') :
    p.Steps writes d.store d'.store := by
  simpa only [Walks, after, hc] using h

theorem Moves.walks {below : Nat → String → Decode Unit} (hm : p.Moves below) {y : Nat}
    {name : String} {d : Decoding} (hs : p.Sound d.store) (hy : d.store.class? y = some name) :
    p.Walks (fun z _ => d.store.Owns y z ∨ d.store.size ≤ z) (below y name) d := by
  obtain ⟨i, hi, rfl⟩ := Option.map_eq_some_iff.mp hy
  exact hm _ y _ d ⟨hs, ⟨i, hi, serialised_sub _ _⟩, fun z f hz => .inl hz.owns,
    fun z f hz => .inr hz⟩

theorem Moves.steps {below : Nat → String → Decode Unit} (hm : p.Moves below) {y : Nat}
    {name : String} {d d' : Decoding} (hs : p.Sound d.store) (hy : d.store.class? y = some name)
    (h : below y name d = .ok () d') :
    p.Steps (fun z _ => d.store.Owns y z ∨ d.store.size ≤ z) d.store d'.store :=
  (hm.walks hs hy).steps h

end Program

end PduCompiler
