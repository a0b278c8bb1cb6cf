import PduCompiler.Proofs.Bounds
import PduCompiler.Proofs.Consuming

/-! Decoding zeros. Where all bytes are 0 so are all counts, and no elements are made: given enough
zeros, decoding goes through unless it reaches outside a fixed list. -/

namespace PduCompiler

open Decode

def zeros (n : Nat) : List UInt8 := List.replicate n 0

theorem zeros_add (m n : Nat) : zeros (m + n) = zeros m ++ zeros n :=
  List.replicate_add m n 0

theorem ofBigEndian_zeros (n : Nat) : ofBigEndian (zeros n) = 0 := by
  induction n with
  | zero => rfl
  | succ n ih =>
    rw [zeros_add, show zeros 1 = [0] from rfl, ofBigEndian_append, ih]
    rfl

theorem wordOf_zeros (n : Nat) : wordOf (zeros n) = 0 := by
  rw [wordOf, ofBigEndian_zeros]
  rfl

theorem flatten_zeros (n width : Nat) :
    (List.replicate n (zeros width)).flatten = zeros (n * width) := by
  simp [zeros, List.flatten_replicate_replicate]

theorem Instance.length_array_set (i : Instance) (name : String) (ws : List Word)
    (h : ws.length = (i.array name).length) (f : String) :
    (Instance.array { i with arrays := i.arrays.set name ws } f).length = (i.array f).length := by
  by_cases hf : f = name
  · simp [Instance.array, Table.get?_set, hf, h]
  · simp [Instance.array, Table.get?_set, hf]

namespace Store

def Clear (s t : Store) : Prop :=
  ∀ (x : Nat) (i : Instance), s.get? x = some i → ∃ j, t.get? x = some j ∧
    j.className = i.className ∧ (∀ f, i.uint f = 0 → j.uint f = 0) ∧
    ∀ f, (j.array f).length = (i.array f).length

theorem Clear.refl (s : Store) : s.Clear s :=
  fun _ i hi => ⟨i, hi, rfl, fun _ h => h, fun _ => rfl⟩

theorem Clear.trans {s t u : Store} (h : s.Clear t) (h' : t.Clear u) : s.Clear u := by
  intro x i hi
  obtain ⟨j, hj, hc, hz, hl⟩ := h x i hi
  obtain ⟨k, hk, hc', hz', hl'⟩ := h' x j hj
  exact ⟨k, hk, hc'.trans hc, fun f hf => hz' f (hz f hf), fun f => (hl' f).trans (hl f)⟩

theorem Clear.modify {s : Store} {x : Nat} {i : Instance} {change : Instance → Instance}
    (hi : s.get? x = some i) (hc : (change i).className = i.className)
    (hz : ∀ f, i.uint f = 0 → (change i).uint f = 0)
    (hl : ∀ f, ((change i).array f).length = (i.array f).length) :
    s.Clear (s.modify x change) := by
  intro y k hk
  rw [Store.modify, hi]
  by_cases hy : y = x
  · subst hy
    cases Option.some.inj (hi.symm.trans hk)
    exact ⟨change i, by simp [get?_set, hi], hc, hz, hl⟩
  · exact ⟨k, by simp [get?_set, hy, hk], rfl, fun _ h => h, fun _ => rfl⟩

theorem get?_modify {s : Store} {x : Nat} {i : Instance} {change : Instance → Instance}
    (hi : s.get? x = some i) : (s.modify x change).get? x = some (change i) := by
  simp [modify, hi, get?_set]

end Store

namespace Program

/-- Given enough zeros a computation goes through, or it reaches outside a fixed list. How many
zeros are enough does not depend on the depth it is given. -/
def ZeroRun (c : Nat → Decode Unit) (s : Store) (Q : Store → Prop) : Prop :=
  ∃ n, (∀ k, Overruns (c k) s (zeros n)) ∨ ∃ t, Q t ∧ ∀ k, Consumes (c k) s (zeros n) () t

variable {p : Program} {s : Store} {Q R : Store → Prop}

theorem ZeroRun.bind {c c' : Nat → Decode Unit} (h : ZeroRun c s Q)
    (h' : ∀ t, Q t → ZeroRun c' t R) : ZeroRun (fun k => c k >>= fun _ => c' k) s R := by
  obtain ⟨n, hover | ⟨t, hq, hc⟩⟩ := h
  · exact ⟨n, .inl fun k => (hover k).bind _⟩
  · obtain ⟨m, hover | ⟨u, hr, hc'⟩⟩ := h' t hq
    · exact ⟨n + m, .inl fun k => by rw [zeros_add]; exact (hc k).bind_overruns (hover k)⟩
    · exact ⟨n + m, .inr ⟨u, hr, fun k => by rw [zeros_add]; exact (hc k).bind (hc' k)⟩⟩

theorem ZeroRun.forM {β : Type} {step : Nat → β → Decode Unit} (Inv : List β → Store → Prop)
    (l : List β) (h : ∀ before b after, l = before ++ b :: after → ∀ s, Inv before s →
      ZeroRun (step · b) s (Inv (before ++ [b]))) (s : Store) (hs : Inv [] s) :
    ZeroRun (fun k => l.forM (step k)) s (Inv l) := by
  induction l generalizing Inv s with
  | nil => exact ⟨0, .inr ⟨s, hs, fun _ => Consumes.pure () s⟩⟩
  | cons b l ih =>
    refine (h [] b l rfl s hs).bind fun t ht => ?_
    exact ih (fun before => Inv (b :: before))
      (fun before c after he => h (b :: before) c after (by rw [he, List.cons_append])) t ht

theorem ZeroRun.mono {c : Nat → Decode Unit} (h : ZeroRun c s Q) (hqr : ∀ t, Q t → R t) :
    ZeroRun c s R := by
  obtain ⟨n, hover | ⟨t, hq, hc⟩⟩ := h
  · exact ⟨n, .inl hover⟩
  · exact ⟨n, .inr ⟨t, hqr t hq, hc⟩⟩

theorem ZeroRun.steps {c : Nat → Decode Unit} (h : ZeroRun c s Q)
    (hw : ∀ d : Decoding, d.store = s → p.Walks anyField (c 0) d) :
    ZeroRun c s fun t => Q t ∧ p.Steps anyField s t := by
  obtain ⟨n, hover | ⟨t, hq, hc⟩⟩ := h
  · exact ⟨n, .inl hover⟩
  · refine ⟨n, .inr ⟨t, ⟨hq, ?_⟩, hc⟩⟩
    have hh := hw ⟨s, zeros n ++ [], 0⟩ rfl
    simpa only [Walks, after, hc 0 [] 0] using hh

variable {below : Nat → Nat → String → Decode Unit} {x : Nat}

theorem ZeroRun.visit {y : Nat} {name : String} (hy : s.class? y = some name)
    (h : ZeroRun (below · y name) s Q) :
    ZeroRun (fun k => Program.visit (below k) (some y)) s Q := by
  obtain ⟨n, hover | ⟨t, hq, hc⟩⟩ := h
  · exact ⟨n, .inl fun k => overruns_visit hy (hover k)⟩
  · exact ⟨n, .inr ⟨t, hq, fun k => consumes_visit hy (hc k)⟩⟩

theorem ZeroRun.step {i : Instance} {name : String} {act : Action} (hi : s.get? x = some i)
    (h : ZeroRun (fun k => p.decodeAction (below k) x i act) s Q) :
    ZeroRun (fun k => p.decodeStep (below k) x name act) s Q := by
  obtain ⟨n, hover | ⟨t, hq, hc⟩⟩ := h
  · exact ⟨n, .inl fun k => overruns_step hi (hover k)⟩
  · exact ⟨n, .inr ⟨t, hq, fun k => consumes_step hi (hc k)⟩⟩

/-- The words and fixed lists of an object after zeros were decoded into some attributes. -/
def Zeroed (s : Store) (x : Nat) (attrs : List Attribute) : Prop :=
  ∃ i, s.get? x = some i ∧ ∀ a ∈ attrs,
    (∀ q, a.kind = some (.primitive q) → i.uint a.name = 0) ∧ i.Extent (· ≤ ·) a

theorem Zeroed.clear {t : Store} {attrs : List Attribute} (h : Zeroed s x attrs)
    (hc : s.Clear t) : Zeroed t x attrs := by
  obtain ⟨i, hi, ha⟩ := h
  obtain ⟨j, hj, -, hz, hl⟩ := hc x i hi
  refine ⟨j, hj, fun a hm => ⟨fun q hq => hz _ ((ha a hm).1 q hq), fun n e hk he => ?_⟩⟩
  rw [hl]
  exact (ha a hm).2 n e hk he

theorem Zeroed.append {attrs attrs' : List Attribute} (h : Zeroed s x attrs)
    (h' : Zeroed s x attrs') : Zeroed s x (attrs ++ attrs') := by
  obtain ⟨i, hi, ha⟩ := h
  obtain ⟨j, hj, ha'⟩ := h'
  cases Option.some.inj (hi.symm.trans hj)
  exact ⟨i, hi, fun a hm => (List.mem_append.mp hm).elim (ha a) (ha' a)⟩

theorem Zeroed.other {i : Instance} (hi : s.get? x = some i) {a : Attribute}
    (hw : a.slot ≠ .word) (ha : a.slot ≠ .array) : Zeroed s x [a] := by
  refine ⟨i, hi, fun b hb => ?_⟩
  rw [List.mem_singleton.mp hb]
  refine ⟨fun q hq => (hw (by simp [Attribute.slot, hq])).elim, fun n e hq he => ?_⟩
  exact (ha (by simp [Attribute.slot, hq, he])).elim

section

variable {c : ClassDescription} {a : Attribute} {i : Instance}

theorem ZeroRun.word (hk : p.registry.KindSound c a) (hi : s.get? x = some i) {q : Primitive}
    (hq : a.kind = some (.primitive q)) :
    ZeroRun (fun k => p.decodeAction (below k) x i (Plan.wire a).unmarshal) s
      fun t => s.Clear t ∧ Zeroed t x [a] := by
  refine ⟨q.type.width, .inr ⟨_, ?_, fun k => consumes_word hq hk (by simp [zeros])⟩⟩
  rw [wordOf_zeros]
  refine ⟨.modify hi rfl (fun f hf => ?_) fun f => rfl, _, Store.get?_modify hi, fun b hb => ?_⟩
  · by_cases hfa : f = a.name
    · simp [Instance.uint, Instance.setPrim, Table.get?_set, hfa]
    · simpa [Instance.uint, Instance.setPrim, Table.get?_set, hfa] using hf
  · rw [List.mem_singleton.mp hb]
    refine ⟨fun q hq => by simp [Instance.uint, Instance.setPrim, Table.get?_set], ?_⟩
    intro n e hn
    simp [hq] at hn

theorem ZeroRun.array (hk : p.registry.KindSound c a) (hi : s.get? x = some i) {n : Int}
    {e : Element} (hq : a.kind = some (.fixedList n e)) (he : e.isObject = false) :
    ZeroRun (fun k => p.decodeAction (below k) x i (Plan.wire a).unmarshal) s
      fun t => s.Clear t ∧ Zeroed t x [a] := by
  have hb : ∀ b ∈ List.replicate n.toNat (zeros e.type.width), b.length = e.type.width := by
    intro b hb
    rw [List.eq_of_mem_replicate hb]
    simp [zeros]
  refine ⟨n.toNat * e.type.width, ?_⟩
  rw [← flatten_zeros]
  by_cases hlen : (i.array a.name).length < n.toNat
  · exact .inl fun k => overruns_array hq he hk _ hb (by simp) hlen
  · have hle := Nat.not_lt.mp hlen
    refine .inr ⟨_, ?_, fun k => consumes_array hq he hk _ hb (by simp) hle⟩
    have hl := i.length_array_set a.name
      ((List.replicate n.toNat (zeros e.type.width)).map wordOf ++
        (i.array a.name).drop n.toNat) (by simp; omega)
    refine ⟨.modify hi rfl (fun f hf => hf) hl, _, Store.get?_modify hi, fun b hb => ?_⟩
    rw [List.mem_singleton.mp hb]
    refine ⟨fun q hn => by simp [hq] at hn, fun m e' hm he' => ?_⟩
    cases Option.some.inj (hq.symm.trans hm)
    rw [hl]
    exact hle

theorem ZeroRun.words (hk : p.registry.KindSound c a) (hi : s.get? x = some i) {field : String}
    {e : Element} (hq : a.kind = some (.dynamicList field e)) (he : e.isObject = false)
    (hz : i.uint field = 0) :
    ZeroRun (fun k => p.decodeAction (below k) x i (Plan.wire a).unmarshal) s
      fun t => s.Clear t ∧ Zeroed t x [a] := by
  have hcl : s.Clear (s.modify x fun j => { j with
      primLists := j.primLists.set a.name (([] : List (List UInt8)).map wordOf) }) :=
    .modify hi rfl (fun f hf => hf) fun f => rfl
  refine ⟨0, .inr ⟨_, ⟨hcl, ?_⟩, fun k =>
    consumes_words hq he hk [] (by simp) (by simp [hz]) (by simp)⟩⟩
  exact (Zeroed.other hi (by simp [Attribute.slot, hq, he])
    (by simp [Attribute.slot, hq, he])).clear hcl

theorem ZeroRun.list (hi : s.get? x = some i) {field : String} {e : Element}
    (hq : a.kind = some (.dynamicList field e)) (he : e.isObject = true)
    (hz : i.uint field = 0) :
    ZeroRun (fun k => p.decodeAction (below k) x i (Plan.wire a).unmarshal) s
      fun t => s.Clear t ∧ Zeroed t x [a] := by
  have hcl : s.Clear (s.modify x fun j => { j with lists := j.lists.set a.name [] }) :=
    .modify hi rfl (fun f hf => hf) fun f => rfl
  have hel : ∀ k, Consumes (elements (p.make e.className) (below k · e.className)
      (i.uint field).toNat) s [] ([], none) s := by
    intro k
    rw [hz]
    exact Consumes.pure _ s
  refine ⟨0, .inr ⟨_, ⟨hcl, ?_⟩, fun k => consumes_list hq he (by simp [hz]) (hel k)⟩⟩
  exact (Zeroed.other hi (by simp [Attribute.slot, hq, he])
    (by simp [Attribute.slot, hq, he])).clear hcl

theorem decodeAction_zeros (hp : p.Planned) (hk : p.registry.KindSound c a)
    (hwalk : ∀ y name d, p.Scope anyField d.store y (p.registry.serialised name) →
      p.Walks anyField (below 0 y name) d)
    (hbelow : ∀ y < x, ∀ s obj, s.get? y = some obj →
      p.Scope anyField s y (p.registry.serialised obj.className) →
      ZeroRun (below · y obj.className) s s.Clear)
    (hs : p.Scope anyField s x [a]) (hi : s.get? x = some i)
    (hcount : ∀ field, a.CountedBy field → i.uint field = 0) :
    ZeroRun (fun k => p.decodeAction (below k) x i (Plan.wire a).unmarshal) s
      fun t => s.Clear t ∧ Zeroed t x [a] := by
  have hdecl : a ∈ p.registry.allAttributes i.className := by
    obtain ⟨j, hj, ha⟩ := hs.declared
    cases Option.some.inj (hi.symm.trans hj)
    exact ha a List.mem_cons_self
  have hinside : ∀ y ∈ i.inside a, y < x ∧ ∃ obj, s.get? y = some obj := by
    intro y hy
    have hlt := (hs.sound.object x i hi).below y (Instance.inside_embedded hy)
    exact ⟨hlt, Store.get?_of_lt (Nat.lt_trans hlt (Store.get?_lt hi))⟩
  -- objects inside come earlier in the store, so they are within reach of `hbelow`
  have hvisit : ∀ t, s.Clear t → p.Opened anyField t x a (i.inside a) → ∀ y ∈ i.inside a,
      ZeroRun (fun k => visit (below k) (some y)) t t.Clear := by
    intro t ht hopen y hy
    obtain ⟨hlt, obj, hobj⟩ := hinside y hy
    obtain ⟨obj', hobj', hcls, -, -⟩ := ht y obj hobj
    exact .visit (by simp [Store.class?, hobj']) (hbelow y hlt t obj' hobj' (hopen.object hy hobj'))
  cases Attribute.form hk.ne_none with
  | word q hq => exact .word hk hi hq
  | object cls hq =>
    obtain ⟨y, hy, -⟩ := hs.sound.object? hi hdecl hq
    have hin : y ∈ i.inside a := by simp [Instance.inside, hq, hy]
    have heq : (fun k => p.decodeAction (below k) x i (Plan.wire a).unmarshal) =
        fun k => visit (below k) (some y) := by
      funext k d
      rw [decodeAction_object p (below k) x i d hq, hy]
    rw [heq]
    refine (hvisit s (.refl s) ⟨hs, i, hi, rfl⟩ y hin).mono fun t ht => ⟨ht, ?_⟩
    exact (Zeroed.other hi (by simp [Attribute.slot, hq]) (by simp [Attribute.slot, hq])).clear ht
  | array n e hq he => exact .array hk hi hq he
  | objects n e hq he =>
    have hin : i.inside a = i.objectArray a.name := by simp [Instance.inside, hq, he]
    have heq : (fun k => p.decodeAction (below k) x i (Plan.wire a).unmarshal) =
        fun k => (i.objectArray a.name).forM fun y => visit (below k) (some y) := by
      funext k d
      rw [decodeAction_objects p (below k) x i d hq he]
    rw [heq, ← hin]
    refine (ZeroRun.forM (fun _ t => s.Clear t ∧ p.Opened anyField t x a (i.inside a))
      (i.inside a) ?_ s ⟨.refl s, hs, i, hi, rfl⟩).mono fun t ht => ⟨ht.1, ?_⟩
    · rintro before y after hl t ⟨hclear, hopen⟩
      have hy : y ∈ i.inside a := by simp [hl]
      refine ((hvisit t hclear hopen y hy).steps fun d hd => ?_).mono
        fun u hu => ⟨hclear.trans hu.1, hopen.steps hp hu.2⟩
      refine visit_walks hwalk (hd.symm ▸ hopen) fun z hz => ?_
      cases hz
      exact hy
    · exact (Zeroed.other hi (by simp [Attribute.slot, hq, he])
        (by simp [Attribute.slot, hq, he])).clear ht.1
  | words field e hq he => exact .words hk hi hq he (hcount field ⟨e, hq⟩)
  | list field e hq he => exact .list hi hq he (hcount field ⟨e, hq⟩)

end

theorem decodeInto_zeros (hp : p.Planned) (depth x : Nat) (c : ClassDescription)
    (hc : c ∈ p.registry.classes) (s : Store)
    (hs : p.Scope anyField s x (p.registry.serialised c.name))
    (hd : x * (p.plans.length + 1) + p.registry.level c.name < depth) :
    ZeroRun (fun k => p.decodeInto (depth + k) x c.name) s
      fun t => s.Clear t ∧ Zeroed t x (p.registry.serialised c.name) := by
  induction depth generalizing x c s with
  | zero => omega
  | succ depth ih =>
    have hn := hp.consistent.names_nodup
    have hwalk : ∀ y name d, p.Scope anyField d.store y (p.registry.serialised name) →
      p.Walks anyField (p.decodeInto depth y name) d := decodeInto_walks hp depth
    obtain ⟨i, hi, -⟩ := hs.declared
    have hsucc : ∀ k, depth + 1 + k = depth + k + 1 := fun k => by omega
    simp only [hsucc, decodeInto_class hp hc, hp.serialised_eq hc]
    refine ZeroRun.bind (Q := fun t => (s.Clear t ∧
      Zeroed t x (Plan.inherited c p.registry.serialised)) ∧ p.Steps anyField s t) ?_ ?_
    · by_cases hpar : c.hasParent = true
      · obtain ⟨q, hq, hqn, hin, hlevel⟩ := hp.parent hc hpar
        have hsup := hs.sub hin
        have hh := ih x q hq s hsup (by omega)
        rw [hqn] at hh hsup
        have hact : ZeroRun (fun k => p.decodeAction (p.decodeInto (depth + k)) x i
            { op := .super, className := c.parent }) s
            fun t => s.Clear t ∧ Zeroed t x (p.registry.serialised c.parent) := hh
        simp only [Plan.inherited, if_pos hpar]
        refine (ZeroRun.step hi hact).steps fun d hdec => decodeStep_walks fun j hj => ?_
        exact hwalk x c.parent d (hdec.symm ▸ hsup)
      · simp only [Plan.inherited, if_neg hpar]
        exact ⟨0, .inr ⟨s, ⟨⟨.refl s, i, hi, by simp⟩, .refl⟩,
          fun k => Consumes.pure () s⟩⟩
    · rintro t ⟨⟨hclear, hzero⟩, hsteps⟩
      refine (ZeroRun.forM (fun before u => (s.Clear u ∧
        Zeroed u x (Plan.inherited c p.registry.serialised ++ before)) ∧ p.Steps anyField s u)
        c.serialised ?_ t ⟨⟨hclear, by simpa using hzero⟩, hsteps⟩).mono fun u hu => hu.1
      rintro before a after hl u ⟨⟨hclear, hzero⟩, hsteps⟩
      have ha : a ∈ c.serialised := by simp [hl]
      have hscope : p.Scope anyField u x [a] :=
        (hs.steps hp hsteps).sub (by simpa using hp.serialised_own hc ha)
      obtain ⟨j, hj, hread⟩ := hzero
      have hbelow : ∀ y < x, ∀ s obj, s.get? y = some obj →
          p.Scope anyField s y (p.registry.serialised obj.className) →
          ZeroRun (fun k => p.decodeInto (depth + k) y obj.className) s s.Clear := by
        intro y hy s obj hobj hsc
        obtain ⟨k, hk, hkn⟩ := (hsc.sound.object y obj hobj).ready.class hp
        have hlevel := hp.rooted.level_lt hn hk
        have hle := hp.classes_le
        have hmul := Nat.mul_le_mul_right (p.plans.length + 1) hy
        rw [Nat.succ_mul] at hmul
        rw [← hkn] at hsc ⊢
        exact (ih y k hk s hsc (by omega)).mono fun v hv => hv.1
      have hcount : ∀ field, a.CountedBy field → j.uint field = 0 := by
        intro field hf
        obtain ⟨b, hb, q, rfl, hbq, -⟩ := hp.count_before hc hl hf
        exact (hread b (List.mem_append_right _ hb)).1 q hbq
      have hrun : ZeroRun (fun k => p.decodeAction (p.decodeInto (depth + k)) x j
          (Plan.wire a).unmarshal) u fun t => u.Clear t ∧ Zeroed t x [a] :=
        decodeAction_zeros hp (hp.consistent.kinds c hc a (List.mem_filter.mp ha).1) hwalk hbelow
          hscope hj hcount
      refine ((ZeroRun.step hj hrun).steps fun d hdec => decodeStep_walks fun k hk => ?_).mono ?_
      · exact decodeAction_walks hp hwalk (hp.kind_ne_none hc (List.mem_filter.mp ha).1)
          (hdec.symm ▸ hscope) hk
      · rintro v ⟨⟨hcl, hz⟩, hst⟩
        refine ⟨⟨hclear.trans hcl, ?_⟩, hsteps.trans hst⟩
        rw [← List.append_assoc]
        exact (Zeroed.clear ⟨j, hj, hread⟩ hcl).append hz

end Program

end PduCompiler
