import PduCompiler.Proofs.Decoded

/-! Decoding accepts encodings. An encoding of an object is consumed to its last byte by any object
of the same class, as long as the counts in it are the lengths of the lists that follow. -/

namespace PduCompiler

open Decode Relation

theorem TypeName.truncate_ofNat {t : TypeName} (h : t.isCanonical = true) {n : Nat}
    (hn : n < 2 ^ (8 * t.width)) : t.truncate (BitVec.ofNat 64 n) = BitVec.ofNat 64 n := by
  obtain ⟨sc, hsc⟩ := Option.isSome_iff_exists.mp h
  have hbits : Nat.pow 2 sc.bits = 2 ^ (8 * t.width) := by
    rw [Scalar.bits, TypeName.width, hsc, Option.elim_some, Nat.pow_eq]
  have hle : (BitVec.ofNat 64 n).toNat ≤ n := by
    rw [BitVec.toNat_ofNat]
    exact Nat.mod_le _ _
  rw [TypeName.truncate, hsc]
  simp only [Word.truncate, hbits]
  rw [Nat.mod_eq_of_lt (Nat.lt_of_le_of_lt hle hn), BitVec.ofNat_toNat, BitVec.setWidth_eq]

/-- The primitive attributes of an object hold what another has written for them. -/
def Instance.Received (i j : Instance) (attrs : List Attribute) : Prop :=
  ∀ b ∈ attrs, ∀ q, b.kind = some (.primitive q) →
    j.uint b.name = q.type.truncate (i.written b.name q)

namespace Program

/-- An object whose lists can be read back: the counts have room for their lengths, and the elements
are of the class that was declared for them. -/
structure Regular (p : Program) (s : Store) (i : Instance) : Prop where
  counts : ∀ b ∈ p.registry.serialised i.className, ∀ q, b.kind = some (.primitive q) →
    q.countFor ≠ "" → i.listLength q.countFor < 2 ^ (8 * q.type.width) ∧
      i.listLength q.countFor ≤ maxListCount
  elements : ∀ a ∈ p.registry.serialised i.className, ∀ field e,
    a.kind = some (.dynamicList field e) → e.isObject = true →
    ∀ y ∈ i.list a.name, s.class? y = some e.className

/-- Whether all objects are regular. -/
def isRegular (p : Program) (s : Store) : Bool :=
  s.objects.all fun i => (p.registry.serialised i.className).all fun a => match a.kind with
    | some (.primitive q) => q.countFor == "" ||
      decide (i.listLength q.countFor < 2 ^ (8 * q.type.width) ∧
        i.listLength q.countFor ≤ maxListCount)
    | some (.dynamicList _ e) => !e.isObject ||
      (i.list a.name).all fun y => s.class? y == some e.className
    | _ => true

theorem regular_of_isRegular {p : Program} {s : Store} (h : p.isRegular s = true) {x : Nat}
    {i : Instance} (hi : s.get? x = some i) : p.Regular s i := by
  have hall := List.all_eq_true.mp (Array.all_eq_true_iff_forall_mem.mp h i (Array.mem_of_getElem? hi))
  refine ⟨fun b hb q hq hne => ?_, fun a ha field e hk he y hy => ?_⟩
  · have hb := hall b hb
    rw [hq] at hb
    simpa [hne] using hb
  · have ha := hall a ha
    rw [hk] at ha
    simp only [he, Bool.not_true, Bool.false_or, List.all_eq_true, beq_iff_eq] at ha
    exact ha y hy

def Readable (p : Program) (s : Store) (i : Instance) (a : Attribute) : Prop :=
  ∀ field e, a.kind = some (.dynamicList field e) → i.listLength a.name ≤ maxListCount ∧
    (∀ b ∈ p.registry.serialised i.className, ∀ q, b.kind = some (.primitive q) →
      q.countFor = a.name → i.listLength a.name < 2 ^ (8 * q.type.width)) ∧
    (e.isObject = true → ∀ y ∈ i.list a.name, s.class? y = some e.className)

/-- All lists in the encoding of an attribute can be read back, at any depth. -/
structure Legible (p : Program) (s : Store) (i : Instance) (a : Attribute) : Prop where
  own : p.Readable s i a
  below : ∀ y ∈ i.refsAt a, ∀ z obj, ReflTransGen (s.WireRefers p.registry) y z →
    s.get? z = some obj → ∀ b ∈ p.registry.serialised obj.className, p.Readable s obj b

/-- An object of a sound store has the class of another, and what that has written for some
attributes. -/
structure Receives (p : Program) (u : Store) (z : Nat) (i : Instance) (attrs : List Attribute) :
    Prop where
  sound : p.Sound u
  object : ∃ k, u.get? z = some k ∧ k.className = i.className ∧ i.Received k attrs

def Accepts (p : Program) (s : Store) (refs : Nat → Prop)
    (encode : Instance → String → Except MachineError (List UInt8))
    (below : Nat → String → Decode Unit) : Prop :=
  ∀ u y z obj part, refs y → p.Sound u → s.get? y = some obj →
    u.class? z = some obj.className → encode obj obj.className = .ok part →
    ∃ v, Consumes (below z obj.className) u part () v

variable {p : Program} {s u v : Store} {refs : Nat → Prop}
  {encode : Instance → String → Except MachineError (List UInt8)}
  {below : Nat → String → Decode Unit}

theorem Moves.consumes (hm : p.Moves below) (hu : p.Sound u) {z : Nat} {name : String}
    (hz : u.class? z = some name) {b : List UInt8} (h : Consumes (below z name) u b () v) :
    p.Steps (fun w _ => u.Owns z w ∨ u.size ≤ w) u v :=
  hm.steps (d := ⟨u, b ++ [], 0⟩) hu hz (h [] 0)

theorem consumes_make {name : String} {objects : Array Instance} {ref : Nat}
    (h : p.build u.size name = .ok (objects, ref)) :
    Consumes (p.make name) u [] ref (u.append objects) := by
  intro rest offset
  simp [make, h]

theorem Accepts.ref (ha : p.Accepts s refs encode below) {name : String} {y z : Nat}
    {part : List UInt8} (hy : refs y ∧ s.class? y = some name) (hu : p.Sound u)
    (hz : u.class? z = some name) (h : encodeRef s encode (some y) = .ok part) :
    ∃ v, Consumes (below z name) u part () v := by
  obtain ⟨obj, hobj, henc⟩ := encodeRef_eq_ok.mp h
  obtain rfl : obj.className = name := by simpa [Store.class?, hobj] using hy.2
  exact ha u y z obj part hy.1 hu hobj hz henc

theorem Accepts.visits (hp : p.Planned) (hm : p.Moves below) (ha : p.Accepts s refs encode below)
    {name : String} {l : List Nat} {parts : List (List UInt8)}
    (h : List.Forall₂ (fun y part => encodeRef s encode (some y) = .ok part) l parts)
    (hl : ∀ y ∈ l, refs y ∧ s.class? y = some name) {targets : List Nat}
    (hlen : targets.length = l.length) (hu : p.Sound u)
    (ht : ∀ z ∈ targets, u.class? z = some name) :
    ∃ v, Consumes (targets.forM fun z => visit below (some z)) u parts.flatten () v := by
  induction h generalizing targets u with
  | nil =>
    rw [List.length_eq_zero_iff.mp hlen]
    exact ⟨u, .nil_forM u⟩
  | @cons y part l parts hy _ ih =>
    obtain ⟨z, targets, rfl⟩ := List.exists_cons_of_length_eq_add_one hlen
    have hz := ht z List.mem_cons_self
    obtain ⟨v, hv⟩ := ha.ref (hl y List.mem_cons_self) hu hz hy
    have hsteps := hm.consumes hu hz hv
    obtain ⟨w, hw⟩ := ih (fun y hy => hl y (List.mem_cons_of_mem _ hy))
      (Nat.succ.inj hlen) (hsteps.sound hp hu)
      fun z' hz' => hsteps.frame.class? (ht z' (List.mem_cons_of_mem _ hz'))
    exact ⟨w, (consumes_visit hz hv).bind (f := fun _ => targets.forM _) hw⟩

theorem Accepts.elements (hp : p.Planned) (hs : p.Sound s) (hm : p.Moves below)
    (ha : p.Accepts s refs encode below) {name : String} {l : List Nat}
    {parts : List (List UInt8)}
    (h : List.Forall₂ (fun y part => encodeRef s encode (some y) = .ok part) l parts)
    (hl : ∀ y ∈ l, refs y ∧ s.class? y = some name) (hu : p.Sound u) :
    ∃ made v, Consumes (elements (p.make name) (below · name) l.length) u parts.flatten
      (made, none) v := by
  induction h generalizing u with
  | nil => exact ⟨[], u, .pure _ u⟩
  | @cons y part l parts hy _ ih =>
    obtain ⟨obj, hobj, hname⟩ := Option.map_eq_some_iff.mp (hl y List.mem_cons_self).2
    obtain ⟨objects, z, hb⟩ := (hname ▸ (hs.object y obj hobj).ready : p.Ready name).build u.size
    obtain ⟨hg, -, hz, -⟩ := build_grown hp hu hb
    obtain ⟨v, hv⟩ := ha.ref (hl y List.mem_cons_self) hg.sound hz hy
    have hsteps := hm.consumes hg.sound hz hv
    obtain ⟨made, w, hw⟩ := ih (fun y hy => hl y (List.mem_cons_of_mem _ hy))
      (hsteps.sound hp hg.sound)
    exact ⟨z :: made, w, (consumes_make hb).elements_cons hv hw⟩

section

variable {c : ClassDescription} {a : Attribute} {x z : Nat} {i j : Instance}

theorem Regular.readable (hp : p.Planned) (hreg : p.Regular s i) (hc : c ∈ p.registry.classes)
    (hsub : c.serialised ⊆ p.registry.serialised i.className) (ha : a ∈ c.serialised) :
    p.Readable s i a := by
  intro field e hk
  have hattr := (List.mem_filter.mp ha).1
  have hne : a.name ≠ "" := hp.consistent.named c hc a hattr
  obtain ⟨b, hb, htr, q, -, hq, hqa⟩ := hp.count_serialised hc hattr ⟨e, hk⟩
  have hbs : b ∈ c.serialised := List.mem_filter.mpr ⟨hb, by simp [htr]⟩
  have hmax := (hreg.counts b (hsub hbs) q hq (hqa ▸ hne)).2
  refine ⟨hqa ▸ hmax, fun b' hb' q' hq' hqa' => ?_, hreg.elements a (hsub ha) field e hk⟩
  exact hqa' ▸ (hreg.counts b' hb' q' hq' (hqa' ▸ hne)).1

theorem Readable.count (hp : p.Planned) (hread : p.Readable s i a) (hc : c ∈ p.registry.classes)
    (hsub : c.serialised ⊆ p.registry.serialised i.className) {pre post : List Attribute}
    (hl : c.serialised = pre ++ a :: post) (hrec : i.Received j pre) {field : String}
    (hf : a.CountedBy field) :
    (j.uint field).toNat = i.listLength a.name ∧ i.listLength a.name ≤ maxListCount := by
  obtain ⟨b, hb, q, rfl, hq, hqa⟩ := hp.count_before hc hl hf
  have hbs : b ∈ c.serialised := by simp [hl, hb]
  have has : a ∈ c.serialised := by simp [hl]
  have hne : a.name ≠ "" := hp.consistent.named c hc a (List.mem_filter.mp has).1
  obtain ⟨e, hk⟩ := hf
  obtain ⟨hmax, hfits, -⟩ := hread _ e hk
  have hfit := hfits b (hsub hbs) q hq hqa
  have hcanon := hp.consistent.kinds c hc b (List.mem_filter.mp hbs).1
  simp only [Registry.KindSound, hq] at hcanon
  refine ⟨?_, hmax⟩
  rw [hrec b hb q hq, Instance.written, if_neg (by simpa [hqa] using hne), hqa,
    TypeName.truncate_ofNat hcanon hfit, BitVec.toNat_ofNat]
  refine Nat.mod_eq_of_lt (Nat.lt_of_le_of_lt hmax ?_)
  decide

theorem Regular.count (hp : p.Planned) (hreg : p.Regular s i) (hc : c ∈ p.registry.classes)
    (hsub : c.serialised ⊆ p.registry.serialised i.className) {pre post : List Attribute}
    (hl : c.serialised = pre ++ a :: post) (hrec : i.Received j pre) {field : String}
    (hf : a.CountedBy field) :
    (j.uint field).toNat = i.listLength a.name ∧ i.listLength a.name ≤ maxListCount :=
  (hreg.readable hp hc hsub (by simp [hl])).count hp hc hsub hl hrec hf

theorem word_of_consumes (hk : p.registry.KindSound c a) {q : Primitive}
    (hq : a.kind = some (.primitive q)) (hj : u.get? z = some j) {w : Word}
    (h : Consumes (p.decodeAction below z j (Plan.wire a).unmarshal) u (q.type.encode w) () v) :
    ∃ k, v.get? z = some k ∧ k.uint a.name = q.type.truncate w := by
  have hc := hk
  simp only [Registry.KindSound, hq] at hc
  have hword : Consumes (p.decodeAction below z j (Plan.wire a).unmarshal) u (q.type.encode w) ()
      (u.modify z (·.setPrim a.name (wordOf (q.type.encode w)))) :=
    consumes_word hq hk (TypeName.length_encode hc w)
  have heq := (h [] 0).symm.trans (hword [] 0)
  simp only [EStateM.Result.ok.injEq, Decoding.mk.injEq, true_and, and_true] at heq
  refine ⟨j.setPrim a.name (wordOf (q.type.encode w)), ?_, ?_⟩
  · simp [heq, Store.modify, hj, Store.get?_set]
  · simp [Instance.uint, Instance.setPrim, Table.get?_set, TypeName.wordOf_encode hc]

theorem Accepts.action (hp : p.Planned) (hno : p.registry.NoRedeclaration) (hs : p.Sound s)
    (hi : s.get? x = some i) (ha : a ∈ p.registry.allAttributes i.className)
    (hk : p.registry.KindSound c a) (hm : p.Moves below)
    (hacc : p.Accepts s (· ∈ i.refsAt a) encode below) (hu : p.Sound u) (hj : u.get? z = some j)
    (hcls : j.className = i.className)
    (hcount : ∀ field, a.CountedBy field → (j.uint field).toNat = i.listLength a.name ∧
      i.listLength a.name ≤ maxListCount)
    (hel : ∀ field e, a.kind = some (.dynamicList field e) → e.isObject = true →
      ∀ y ∈ i.list a.name, s.class? y = some e.className) {name : String} {part : List UInt8}
    (h : encodeAction s encode name i (Plan.wire a).marshal = .ok part) :
    ∃ v, Consumes (p.decodeAction below z j (Plan.wire a).unmarshal) u part () v := by
  have hold := hs.holds hp hno hi ha
  have hold' := hu.holds hp hno hj (hcls ▸ ha)
  have hkind := hk
  cases Attribute.form hk.ne_none with
  | word q hq =>
    simp only [Registry.KindSound, hq] at hk
    rw [encodeAction_word hq, Except.ok.injEq] at h
    exact ⟨_, consumes_word hq hkind (h ▸ TypeName.length_encode hk _)⟩
  | object cls hq =>
    simp only [Instance.Holds, hq] at hold hold'
    obtain ⟨y, hy, hyc⟩ := hold
    obtain ⟨y', hy', hyc'⟩ := hold'
    rw [encodeAction_object hq, hy] at h
    obtain ⟨v, hv⟩ := hacc.ref ⟨by simp [Instance.refsAt, hq, hy], hyc⟩ hu hyc' h
    refine ⟨v, fun rest offset => ?_⟩
    rw [decodeAction_object p below z j _ hq, hy']
    exact consumes_visit hyc' hv rest offset
  | array n e hq he =>
    simp only [Registry.KindSound, Registry.ElementSound, Instance.Holds, hq, he,
      if_neg Bool.false_ne_true] at hk hold hold'
    rw [encodeAction_array hq he, Except.ok.injEq] at h
    have hblocks : ((i.array a.name).map e.type.encode).flatten = part := h
    rw [← hblocks]
    refine ⟨_, consumes_array hq he hkind _ ?_ (by simpa using hold) (by omega)⟩
    simpa using fun w _ => TypeName.length_encode hk.2 w
  | objects n e hq he =>
    simp only [Instance.Holds, hq, he, if_true] at hold hold'
    rw [encodeAction_objects hq he, encodeRefs_eq_ok] at h
    obtain ⟨parts, hparts, rfl⟩ := h
    obtain ⟨v, hv⟩ := hacc.visits hp hm hparts
      (fun y hy => ⟨by simpa [Instance.refsAt, hq, he] using hy, hold.2 y hy⟩)
      (hold'.1.trans hold.1.symm) hu hold'.2
    refine ⟨v, fun rest offset => ?_⟩
    rw [decodeAction_objects p below z j _ hq he]
    exact hv rest offset
  | words field e hq he =>
    obtain ⟨hn, hmax⟩ := hcount field ⟨e, hq⟩
    rw [hs.listLength hp hno hi ha hq, if_neg (by simp [he])] at hn hmax
    simp only [Registry.KindSound, Registry.ElementSound, hq, he, if_neg Bool.false_ne_true] at hk
    rw [encodeAction_words hq he, Except.ok.injEq] at h
    have hblocks : ((i.primList a.name).map e.type.encode).flatten = part := h
    rw [← hblocks]
    refine ⟨_, consumes_words hq he hkind _ ?_ (by simpa using hn) (by simpa using hmax)⟩
    simpa using fun w _ => TypeName.length_encode hk.1 w
  | list field e hq he =>
    obtain ⟨hn, hmax⟩ := hcount field ⟨e, hq⟩
    rw [hs.listLength hp hno hi ha hq, if_pos he] at hn hmax
    rw [encodeAction_list hq he, encodeRefs_eq_ok] at h
    obtain ⟨parts, hparts, rfl⟩ := h
    obtain ⟨made, v, hv⟩ := hacc.elements hp hs hm hparts
      (fun y hy => ⟨by simpa [Instance.refsAt, hq, he] using hy, hel field e hq he y hy⟩) hu
    rw [← hn] at hv
    exact ⟨_, consumes_list hq he (hn ▸ hmax) hv⟩

theorem attributes_walks (hp : p.Planned) (hc : c ∈ p.registry.classes) (hm : p.Moves below)
    {attrs : List Attribute} (hsub : attrs ⊆ c.serialised) {writes : Nat → String → Prop}
    {d : Decoding} (hd : p.Scope writes d.store z attrs) :
    p.Walks writes (attrs.forM fun a => p.decodeStep below z c.name (Plan.wire a).unmarshal) d := by
  refine Walks.forM (fun s => p.Scope writes s z attrs) (fun s t h ht => h.steps hp ht) _
    (fun a ha d hd => decodeStep_walks fun i hi => ?_) d hd
  exact decodeAction_walks hp (hm writes) (hp.kind_ne_none hc (List.mem_filter.mp (hsub ha)).1)
    (hd.sub (by simpa using ha)) hi

section

variable {attrs others : List Attribute} (h : p.Receives u z i attrs)

include h

theorem Receives.mono (hsub : others ⊆ attrs) : p.Receives u z i others := by
  obtain ⟨k, hk, hcls, hrec⟩ := h.object
  exact ⟨h.sound, k, hk, hcls, fun b hb => hrec b (hsub hb)⟩

theorem Receives.scope (hall : others ⊆ p.registry.allAttributes i.className) :
    p.Scope (fun w f => u.Zone z others w f ∨ u.size ≤ w) u z others := by
  obtain ⟨j, hj, hcls, -⟩ := h.object
  exact ⟨h.sound, ⟨j, hj, fun b hb => hcls ▸ hall hb⟩, fun w f hw => .inl (hw.zone ⟨j, hj⟩),
    fun w f hw => .inr hw⟩

theorem Receives.steps (hp : p.Planned) (hne : ∀ a ∈ others, ∀ b ∈ attrs, a.name ≠ b.name)
    (hsteps : p.Steps (fun w f => u.Zone z others w f ∨ u.size ≤ w) u v) :
    p.Receives v z i attrs := by
  obtain ⟨hu, j, hj, hcls, hrec⟩ := h
  obtain ⟨k, hk, hkept⟩ := hsteps.frame.object z j hj
  refine ⟨hsteps.sound hp hu, k, hk, hkept.className.trans hcls, fun b hb q hq => ?_⟩
  have hclear : ¬ (u.Zone z others z b.name ∨ u.size ≤ z) := by
    rintro (hw | hw)
    · have hb' : u.Zone z [b] z b.name := ⟨j, hj, b, List.mem_singleton_self b, .inl ⟨rfl, rfl⟩⟩
      exact Store.Zone.disjoint hu (fun a ha => by simpa using hne a ha b hb) hw hb'
    · exact absurd (Store.get?_lt hj) (Nat.not_lt.mpr hw)
  rw [← hrec b hb q hq, Instance.uint, hkept.agree b.name hclear .word, Instance.uint]

end

theorem Receives.attributes (hp : p.Planned) (hc : c ∈ p.registry.classes) (hm : p.Moves below)
    {attrs others : List Attribute} (hsub : others ⊆ c.serialised)
    (hall : others ⊆ p.registry.allAttributes i.className)
    (hne : ∀ a ∈ others, ∀ b ∈ attrs, a.name ≠ b.name) {d : Decoding}
    (h : p.Receives d.store z i attrs) :
    p.Receives (after (others.forM fun a =>
      p.decodeStep below z c.name (Plan.wire a).unmarshal) d).store z i attrs :=
  h.steps hp hne (attributes_walks hp hc hm hsub (h.scope hall))

theorem Accepts.attributes (hp : p.Planned) (hno : p.registry.NoRedeclaration) (hs : p.Sound s)
    (hi : s.get? x = some i) (hc : c ∈ p.registry.classes)
    (hsub : c.serialised ⊆ p.registry.serialised i.className) (hm : p.Moves below)
    {pre attrs post : List Attribute} (hl : c.serialised = pre ++ attrs ++ post)
    (hread : ∀ a ∈ attrs, p.Readable s i a)
    (hacc : ∀ a ∈ attrs, p.Accepts s (· ∈ i.refsAt a) encode below) {parts : List (List UInt8)}
    (hparts : List.Forall₂ (fun a part =>
      encodeAction s encode c.name i (Plan.wire a).marshal = .ok part) attrs parts)
    (hu : p.Receives u z i pre) :
    ∃ v, Consumes (attrs.forM fun a => p.decodeStep below z c.name (Plan.wire a).unmarshal) u
      parts.flatten () v ∧ p.Receives v z i (pre ++ attrs) := by
  induction hparts generalizing pre u with
  | nil => exact ⟨u, .nil_forM u, by simpa using hu⟩
  | @cons a part attrs parts hpart _ ih =>
    have hsplit : c.serialised = pre ++ a :: (attrs ++ post) := by simp [hl]
    have ha : a ∈ c.serialised := by simp [hl]
    have hall := serialised_sub _ _ a (hsub ha)
    have hkind := hp.consistent.kinds c hc a (List.mem_filter.mp ha).1
    have hread' := hread a List.mem_cons_self
    obtain ⟨j, hj, hcls, hrec⟩ := hu.object
    -- if this is a list, its count is among the attributes received
    obtain ⟨v, hv⟩ := (hacc a List.mem_cons_self).action hp hno hs hi hall hkind hm hu.sound hj hcls
      (fun field hf => hread'.count hp hc hsub hsplit hrec hf)
      (fun field e hk => (hread' field e hk).2.2) hpart
    have hsteps : p.Steps (fun w f => u.Zone z [a] w f ∨ u.size ≤ w) u v :=
      (decodeAction_walks (d := ⟨u, part ++ [], 0⟩) hp (hm _)
        (hp.kind_ne_none hc (List.mem_filter.mp ha).1) (hu.scope (by simpa using hall)) hj).steps
        (hv [] 0)
    have hne : ∀ b ∈ pre, a.name ≠ b.name := by
      intro b hb heq
      have hnd : (c.serialised.map (·.name)).Nodup :=
        (hp.consistent.attributes_nodup c hc).sublist (List.filter_sublist.map _)
      rw [hsplit, List.map_append] at hnd
      exact (List.nodup_append.mp hnd).2.2 _ (List.mem_map_of_mem hb) _ List.mem_cons_self heq.symm
    have hpre := hu.steps hp (by simpa using hne) hsteps
    obtain ⟨k, hk, hkc, hreck⟩ := hpre.object
    have hrec' : i.Received k (pre ++ [a]) := by
      intro b hb q hq
      rcases List.mem_append.mp hb with hb | hb
      · exact hreck b hb q hq
      · rw [List.mem_singleton.mp hb] at hq ⊢
        rw [encodeAction_word hq, Except.ok.injEq] at hpart
        obtain ⟨k', hk', hw⟩ := word_of_consumes hkind hq hj (hpart ▸ hv)
        cases Option.some.inj (hk.symm.trans hk')
        exact hw
    obtain ⟨w, hw, hrw⟩ := ih (by simpa using hl) (fun b hb => hread b (List.mem_cons_of_mem _ hb))
      (fun b hb => hacc b (List.mem_cons_of_mem _ hb)) ⟨hpre.sound, k, hk, hkc, hrec'⟩
    refine ⟨w, (consumes_step hj hv).bind (f := fun _ => attrs.forM _) hw, ?_⟩
    simpa using hrw

end

/-- Decoding by the plan of a class consumes what encoding by that plan gives, if all lists in it can
be read back. -/
def TakesIn (p : Program) (s : Store) (depth more : Nat) : Prop :=
  ∀ c ∈ p.registry.classes, ∀ x i, s.get? x = some i →
    (∀ a ∈ p.registry.serialised c.name, p.Legible s i a) →
    p.registry.serialised c.name ⊆ p.registry.serialised i.className →
    ∀ u z, p.Receives u z i [] → ∀ bytes, p.encode s depth i c.name = .ok bytes →
    ∃ v, Consumes (p.decodeInto more z c.name) u bytes () v

section

variable {c : ClassDescription} {a : Attribute} {depth more x z : Nat} {i j : Instance}

theorem TakesIn.accepts (hp : p.Planned) (hs : p.Sound s) (h : p.TakesIn s depth more)
    (hread : p.Legible s i a) :
    p.Accepts s (· ∈ i.refsAt a) (p.encode s depth) (p.decodeInto more) := by
  intro u y z obj part hy hu hobj hz henc
  obtain ⟨k, hk, hkc⟩ := Option.map_eq_some_iff.mp hz
  obtain ⟨q, hq, hqn⟩ := (hs.object y obj hobj).ready.class hp
  rw [← hqn] at henc ⊢
  refine h q hq y obj hobj (fun b hb => ?_) (hqn ▸ List.Subset.refl _) u z
    ⟨hu, k, hk, hkc, by simp [Instance.Received]⟩ part henc
  rw [hqn] at hb
  refine ⟨hread.below y hy y obj .refl hobj b hb, fun w hw z' obj' hz' => ?_⟩
  exact hread.below y hy z' obj' (.head ⟨obj, hobj, b, hb, hw⟩ hz')

theorem TakesIn.parent (hp : p.Planned) (h : p.TakesIn s depth more)
    (hc : c ∈ p.registry.classes) (hi : s.get? x = some i)
    (hread : ∀ a ∈ Plan.inherited c p.registry.serialised, p.Legible s i a)
    (hsub : p.registry.serialised c.name ⊆ p.registry.serialised i.className)
    (hu : p.Receives u z i []) {front : List UInt8}
    (hfront : if c.hasParent then p.encode s depth i c.parent = .ok front else front = []) :
    ∃ v, Consumes (if c.hasParent then
        p.decodeStep (p.decodeInto more) z c.name { op := .super, className := c.parent }
        else pure ()) u front () v ∧ p.Receives v z i [] := by
  obtain ⟨j, hj, hcls, -⟩ := hu.object
  by_cases hpar : c.hasParent = true
  · rw [if_pos hpar] at hfront ⊢
    rw [Plan.inherited, if_pos hpar] at hread
    obtain ⟨q, hq, hqn, hin, -⟩ := hp.parent hc hpar
    have hparent := List.Subset.trans hin hsub
    rw [← hqn] at hfront hread ⊢
    obtain ⟨v, hv⟩ := h q hq x i hi hread hparent u z hu front hfront
    have hdeclared : ∀ a ∈ p.registry.serialised q.name,
        a ∈ p.registry.allAttributes j.className :=
      fun a ha => hcls ▸ serialised_sub _ _ a (hparent ha)
    have hsteps : p.Steps anyField u v :=
      (decodeInto_walks hp more z q.name ⟨u, front ++ [], 0⟩ ⟨hu.sound, ⟨j, hj, hdeclared⟩,
        fun _ _ _ => trivial, fun _ _ _ => trivial⟩).steps (hv [] 0)
    obtain ⟨k, hk, hkept⟩ := hsteps.frame.object z j hj
    exact ⟨v, consumes_step hj hv, hsteps.sound hp hu.sound, k, hk, hkept.className.trans hcls,
      by simp [Instance.Received]⟩
  · rw [if_neg hpar] at hfront ⊢
    rw [hfront]
    exact ⟨u, .pure () u, hu⟩

theorem takesIn (hp : p.Planned) (hno : p.registry.NoRedeclaration) (hs : p.Sound s)
    (hd : depth ≤ more) : p.TakesIn s depth more := by
  induction depth generalizing more with
  | zero =>
    intro c _ x i _ _ _ u z _ bytes h
    simp [Program.encode] at h
  | succ depth ih =>
    intro c hc x i hi hread hsub u z hu bytes h
    obtain ⟨more, rfl⟩ : ∃ m, more = m + 1 := ⟨more - 1, by omega⟩
    have hbelow := ih (Nat.le_of_succ_le_succ hd)
    obtain ⟨front, parts, hfront, hparts, rfl⟩ := (encode_succ_eq_ok hp hc).mp h
    have hser := hp.serialised_eq hc
    have hown := List.Subset.trans (hp.serialised_own hc) hsub
    obtain ⟨v, hv, hrv⟩ := hbelow.parent hp hc hi
      (fun a ha => hread a (hser ▸ List.mem_append_left _ ha)) hsub hu hfront
    have hreadown : ∀ a ∈ c.serialised, p.Legible s i a :=
      fun a ha => hread a (hp.serialised_own hc ha)
    have hwhole : c.serialised = [] ++ c.serialised ++ [] := by simp
    obtain ⟨w, hw, -⟩ := Accepts.attributes hp hno hs hi hc hown (decodeInto_moves hp more) hwhole
      (fun a ha => (hreadown a ha).own) (fun a ha => hbelow.accepts hp hs (hreadown a ha)) hparts hrv
    rw [decodeInto_class hp hc]
    exact ⟨w, hv.bind hw⟩

theorem Regular.readable_all (hp : p.Planned) (hs : p.Sound s) (hi : s.get? x = some i)
    (hreg : p.Regular s i) : ∀ a ∈ p.registry.serialised i.className, p.Readable s i a := by
  intro a ha
  obtain ⟨c, hc, hcn⟩ := (hs.object x i hi).ready.class hp
  obtain ⟨d, hd, had, hsub⟩ := hp.declaring hc (hcn ▸ serialised_sub _ _ a ha)
  have htr := (List.mem_filter.mp ha).2
  refine hreg.readable hp hd (fun b hb => ?_) (List.mem_filter.mpr ⟨had, htr⟩)
  obtain ⟨hb, hbt⟩ := List.mem_filter.mp hb
  exact List.mem_filter.mpr ⟨hcn ▸ hsub hb, hbt⟩

theorem legible_of_regular (hp : p.Planned) (hs : p.Sound s) (hi : s.get? x = some i)
    (hreg : ∀ y obj, ReflTransGen (s.WireRefers p.registry) x y → s.get? y = some obj →
      p.Regular s obj) (ha : a ∈ p.registry.serialised i.className) : p.Legible s i a := by
  refine ⟨(hreg x i .refl hi).readable_all hp hs hi a ha, fun y hy z obj hz hobj => ?_⟩
  exact (hreg z obj (.head ⟨i, hi, a, ha, hy⟩ hz) hobj).readable_all hp hs hobj

theorem decodeInto_consumes (hp : p.Planned) (hno : p.registry.NoRedeclaration) (hs : p.Sound s)
    (depth : Nat) {more : Nat} (hd : depth ≤ more) (hc : c ∈ p.registry.classes)
    (hi : s.get? x = some i)
    (hreg : ∀ y obj, ReflTransGen (s.WireRefers p.registry) x y → s.get? y = some obj →
      p.Regular s obj)
    (hsub : p.registry.serialised c.name ⊆ p.registry.serialised i.className) (hu : p.Sound u)
    (hj : u.get? z = some j) (hcls : j.className = i.className) {bytes : List UInt8}
    (h : p.encode s depth i c.name = .ok bytes) :
    ∃ v, Consumes (p.decodeInto more z c.name) u bytes () v :=
  takesIn hp hno hs hd c hc x i hi (fun _ ha => legible_of_regular hp hs hi hreg (hsub ha)) hsub u z
    ⟨hu, j, hj, hcls, by simp [Instance.Received]⟩ bytes h

end

end Program

end PduCompiler
