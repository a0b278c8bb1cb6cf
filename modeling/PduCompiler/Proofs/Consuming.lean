import PduCompiler.Proofs.SizeAgreement

/-! Decoding that succeeds on given bytes, whatever follows them. A computation consumes bytes when
it succeeds on every input that begins with them and leaves the rest; so does a plan whose steps
consume bytes one after the other. -/

namespace PduCompiler

def wordOf (bytes : List UInt8) : Word := BitVec.ofNat 64 (ofBigEndian bytes)

theorem ofBigEndian_lt (b : List UInt8) : ofBigEndian b < 256 ^ b.length := by
  induction b using List.reverseRecOn with
  | nil => decide
  | append_singleton b x ih =>
    have hx := x.toNat_lt
    rw [ofBigEndian_append, List.length_append, List.length_singleton, Nat.pow_succ]
    omega

theorem bigEndian_ofBigEndian (b : List UInt8) : bigEndian b.length (ofBigEndian b) = b := by
  induction b using List.reverseRecOn with
  | nil => rfl
  | append_singleton b x ih =>
    have hx := x.toNat_lt
    have hdiv : (ofBigEndian b * 256 + x.toNat) / 256 = ofBigEndian b := by omega
    have hmod : UInt8.ofNat (ofBigEndian b * 256 + x.toNat) = x := by
      refine UInt8.toNat_inj.mp ?_
      rw [UInt8.toNat_ofNat']
      omega
    rw [ofBigEndian_append, List.length_append, List.length_singleton, bigEndian, hdiv, hmod, ih]

theorem TypeName.encode_wordOf {t : TypeName} (h : t.isCanonical = true) {b : List UInt8}
    (hb : b.length = t.width) : t.encode (wordOf b) = b := by
  obtain ⟨sc, hsc⟩ := Option.isSome_iff_exists.mp h
  have hw := (TypeName.width_pos h).2
  have hlt : ofBigEndian b < 2 ^ 64 := by
    refine Nat.lt_of_lt_of_le (ofBigEndian_lt b) ?_
    rw [show (2 : Nat) ^ 64 = 256 ^ 8 by decide]
    exact Nat.pow_le_pow_right (by decide) (hb ▸ hw)
  have hwidth : t.scalar?.elim 8 Scalar.width = b.length := by
    rw [hb, TypeName.width, hsc, Option.elim_some, Option.elim_some]
  rw [TypeName.encode, hwidth, wordOf, BitVec.toNat_ofNat, Nat.mod_eq_of_lt hlt,
    bigEndian_ofBigEndian]

theorem TypeName.wordOf_encode {t : TypeName} (h : t.isCanonical = true) (w : Word) :
    wordOf (t.encode w) = t.truncate w := by
  obtain ⟨sc, hsc⟩ := Option.isSome_iff_exists.mp h
  have hpow : Nat.pow 256 sc.width = Nat.pow 2 sc.bits := by
    rw [Scalar.bits, Nat.pow_eq, Nat.pow_eq, Nat.pow_mul]
  rw [TypeName.encode, hsc, Option.elim_some, wordOf, ofBigEndian_bigEndian, hpow,
    TypeName.truncate, hsc]
  rfl

namespace Decode

/-- A computation reads exactly some bytes, to a result and a store. -/
def Consumes {α : Type} (c : Decode α) (s : Store) (bytes : List UInt8) (v : α) (t : Store) :
    Prop :=
  ∀ rest offset, c ⟨s, bytes ++ rest, offset⟩ = .ok v ⟨t, rest, offset + bytes.length⟩

def Overruns {α : Type} (c : Decode α) (s : Store) (bytes : List UInt8) : Prop :=
  ∀ rest offset, ∃ e d, c ⟨s, bytes ++ rest, offset⟩ = .error e d ∧ e.root = .outOfBounds

variable {s t u : Store}

theorem Consumes.pure {α : Type} (v : α) (s : Store) : Consumes (pure v) s [] v s :=
  fun _ _ => rfl

theorem Consumes.bind {α β : Type} {c : Decode α} {f : α → Decode β} {b b' : List UInt8} {v : α}
    {w : β} (h : Consumes c s b v t) (h' : Consumes (f v) t b' w u) :
    Consumes (c >>= f) s (b ++ b') w u := by
  intro rest offset
  rw [bind_apply, List.append_assoc, h]
  simp only [h' rest, List.length_append, Nat.add_assoc]

theorem Overruns.bind {α β : Type} {c : Decode α} (f : α → Decode β) {b : List UInt8}
    (h : Overruns c s b) : Overruns (c >>= f) s b := by
  intro rest offset
  obtain ⟨e, d, he, hr⟩ := h rest offset
  exact ⟨e, d, by rw [bind_apply, he], hr⟩

theorem Consumes.bind_overruns {α β : Type} {c : Decode α} {f : α → Decode β} {b b' : List UInt8}
    {v : α} (h : Consumes c s b v t) (h' : Overruns (f v) t b') :
    Overruns (c >>= f) s (b ++ b') := by
  intro rest offset
  obtain ⟨e, d, he, hr⟩ := h' rest (offset + b.length)
  refine ⟨e, d, ?_, hr⟩
  rw [bind_apply, List.append_assoc, h]
  exact he

theorem Consumes.outcome {α : Type} {c : Decode α} {b : List UInt8} {v : α}
    (h : Consumes c s b v t) : Consumes (outcome c) s b (.ok v) t := by
  intro rest offset
  rw [outcome_apply, h]

theorem Consumes.nil_forM {β : Type} {step : β → Decode Unit} (s : Store) :
    Consumes (List.forM [] step) s [] () s := Consumes.pure () s

theorem consumes_scalar {type : TypeName} (h : type.isCanonical = true) {b : List UInt8}
    (hb : b.length = type.width) (s : Store) : Consumes (scalar type) s b (wordOf b) s := by
  obtain ⟨sc, hsc⟩ := Option.isSome_iff_exists.mp h
  have hw : b.length = sc.width := by rw [hb, TypeName.width, hsc, Option.elim_some]
  intro rest offset
  simp [scalar, hsc, ← hw, wordOf]

theorem consumes_scalars {type : TypeName} (h : type.isCanonical = true)
    {blocks : List (List UInt8)} (hb : ∀ b ∈ blocks, b.length = type.width) (s : Store) :
    Consumes (scalars type blocks.length) s blocks.flatten (blocks.map wordOf, none) s := by
  induction blocks with
  | nil => exact Consumes.pure _ s
  | cons b blocks ih =>
    have hh := ih fun c hc => hb c (List.mem_cons_of_mem _ hc)
    have hfirst := (consumes_scalar h (hb b List.mem_cons_self) s).outcome
    have hrest := hh.bind (f := fun r => Pure.pure (wordOf b :: r.1, r.2)) (Consumes.pure _ s)
    rw [List.append_nil] at hrest
    exact hfirst.bind hrest

theorem Consumes.elements_cons {make : Decode Nat} {fill : Nat → Decode Unit} {v : Store}
    {n ref : Nat} {refs : List Nat} {b b' : List UInt8} (hm : Consumes make s [] ref t)
    (hf : Consumes (fill ref) t b () u) (h : Consumes (elements make fill n) u b' (refs, none) v) :
    Consumes (elements make fill (n + 1)) s (b ++ b') (ref :: refs, none) v := by
  have hrest := h.bind (f := fun r => Pure.pure (ref :: r.1, r.2)) (Consumes.pure _ v)
  rw [List.append_nil] at hrest
  exact hm.outcome.bind (hf.outcome.bind hrest)

end Decode

namespace Program

open Decode

variable {p : Program} {s t : Store} {below : Nat → String → Decode Unit} {x : Nat}
  {i : Instance} {c : ClassDescription} {a : Attribute}

theorem consumes_word {q : Primitive} (hq : a.kind = some (.primitive q))
    (hk : p.registry.KindSound c a) {b : List UInt8} (hb : b.length = q.type.width) :
    Consumes (p.decodeAction below x i (Plan.wire a).unmarshal) s b ()
      (s.modify x (·.setPrim a.name (wordOf b))) := by
  simp only [Registry.KindSound, hq] at hk
  intro rest offset
  rw [decodeAction_word p below x i _ hq, consumes_scalar hk hb s]

theorem consumes_array {n : Int} {e : Element} (hq : a.kind = some (.fixedList n e))
    (he : e.isObject = false) (hk : p.registry.KindSound c a) (blocks : List (List UInt8))
    (hb : ∀ b ∈ blocks, b.length = e.type.width) (hn : blocks.length = n.toNat)
    (hlen : n.toNat ≤ (i.array a.name).length) :
    Consumes (p.decodeAction below x i (Plan.wire a).unmarshal) s blocks.flatten ()
      (s.modify x fun j => { j with
        arrays := j.arrays.set a.name (blocks.map wordOf ++ (i.array a.name).drop n.toNat) }) := by
  simp only [Registry.KindSound, hq, Registry.ElementSound, he, if_neg Bool.false_ne_true] at hk
  intro rest offset
  have hsc := consumes_scalars hk.2 hb s rest offset
  rw [hn] at hsc
  rw [decodeAction_array p below x i _ hq he hsc, List.length_map, hn,
    if_neg (Nat.not_lt.mpr hlen), if_neg (by omega)]
  rfl

theorem overruns_array {n : Int} {e : Element} (hq : a.kind = some (.fixedList n e))
    (he : e.isObject = false) (hk : p.registry.KindSound c a) (blocks : List (List UInt8))
    (hb : ∀ b ∈ blocks, b.length = e.type.width) (hn : blocks.length = n.toNat)
    (hlen : (i.array a.name).length < n.toNat) :
    Overruns (p.decodeAction below x i (Plan.wire a).unmarshal) s blocks.flatten := by
  simp only [Registry.KindSound, hq, Registry.ElementSound, he, if_neg Bool.false_ne_true] at hk
  intro rest offset
  have hsc := consumes_scalars hk.2 hb s rest offset
  rw [hn] at hsc
  have heq := decodeAction_array p below x i _ hq he hsc
  rw [List.length_map, hn, if_pos hlen] at heq
  exact ⟨_, _, heq, rfl⟩

theorem consumes_words {field : String} {e : Element} (hq : a.kind = some (.dynamicList field e))
    (he : e.isObject = false) (hk : p.registry.KindSound c a) (blocks : List (List UInt8))
    (hb : ∀ b ∈ blocks, b.length = e.type.width) (hn : (i.uint field).toNat = blocks.length)
    (hmax : blocks.length ≤ maxListCount) :
    Consumes (p.decodeAction below x i (Plan.wire a).unmarshal) s blocks.flatten ()
      (s.modify x fun j => { j with primLists := j.primLists.set a.name (blocks.map wordOf) }) := by
  simp only [Registry.KindSound, hq, Registry.ElementSound, he, if_neg Bool.false_ne_true] at hk
  intro rest offset
  have hsc := consumes_scalars hk.1 hb s rest offset
  rw [← hn] at hsc
  rw [decodeAction_words p below x i _ hq he (by omega) hsc]
  rfl

theorem consumes_list {field : String} {e : Element} (hq : a.kind = some (.dynamicList field e))
    (he : e.isObject = true) {refs : List Nat} {b : List UInt8}
    (hmax : (i.uint field).toNat ≤ maxListCount)
    (h : Consumes (elements (p.make e.className) (below · e.className) (i.uint field).toNat) s b
      (refs, none) t) :
    Consumes (p.decodeAction below x i (Plan.wire a).unmarshal) s b ()
      (t.modify x fun j => { j with lists := j.lists.set a.name refs }) := by
  intro rest offset
  rw [decodeAction_list p below x i _ hq he hmax (h rest offset)]
  rfl

theorem consumes_visit {y : Nat} {name : String} (hy : s.class? y = some name) {b : List UInt8}
    (h : Consumes (below y name) s b () t) : Consumes (visit below (some y)) s b () t := by
  obtain ⟨obj, hobj, rfl⟩ := Option.map_eq_some_iff.mp hy
  intro rest offset
  simp only [visit, hobj, h rest]

theorem overruns_visit {y : Nat} {name : String} (hy : s.class? y = some name) {b : List UInt8}
    (h : Overruns (below y name) s b) : Overruns (visit below (some y)) s b := by
  obtain ⟨obj, hobj, rfl⟩ := Option.map_eq_some_iff.mp hy
  intro rest offset
  simpa only [visit, hobj] using h rest offset

theorem consumes_step {name : String} {act : Action} {b : List UInt8} (hi : s.get? x = some i)
    (h : Consumes (p.decodeAction below x i act) s b () t) :
    Consumes (p.decodeStep below x name act) s b () t := by
  intro rest offset
  simp only [decodeStep, hi, h rest]

theorem overruns_step {name : String} {act : Action} {b : List UInt8} (hi : s.get? x = some i)
    (h : Overruns (p.decodeAction below x i act) s b) :
    Overruns (p.decodeStep below x name act) s b := by
  intro rest offset
  obtain ⟨e, d, he, hr⟩ := h rest offset
  exact ⟨.within name act.attr e, d, by simp only [decodeStep, hi, he], hr⟩

end Program

end PduCompiler
