import PduCompiler.Proofs.Acceptance
import PduCompiler.Proofs.DecodedCounts
import PduCompiler.Proofs.Defaults

/-! Decoding undoes encoding. What an object shows after it went over the wire is what it shows
before, with values cut to their widths, counts that are the lengths of the lists, and transient
attributes as in a new object. So the count of a transient list is not the length that the list has
then. -/

namespace PduCompiler

open Decode Relation

/-- What an object shows for a serialised attribute after it went over the wire. A count shows the
length that the list had before. -/
def Instance.echoField (i : Instance) (objectView : Nat → View) (a : Attribute) : View :=
  match a.kind with
  | none => .missing
  | some (.primitive q) =>
    .word (if q.countFor == "" then q.type.truncate (i.uint a.name)
      else BitVec.ofNat 64 (i.listLength q.countFor))
  | some (.object _) => (i.object? a.name).elim .missing objectView
  | some (.fixedList _ e) =>
    if e.isObject then .list ((i.objectArray a.name).map objectView)
    else .list ((i.array a.name).map fun w => .word (e.type.truncate w))
  | some (.dynamicList _ e) =>
    if e.isObject then .list ((i.list a.name).map objectView)
    else .list ((i.primList a.name).map fun w => .word (e.type.truncate w))

/-- What an object shows after it went over the wire, down to a depth. -/
def Program.echo (p : Program) (s : Store) : (depth : Nat) → Nat → View
  | 0, _ => .missing
  | depth + 1, x =>
    match s.get? x with
    | none => .missing
    | some i => .object i.className ((p.registry.allAttributes i.className).map fun a =>
        (a.name, if a.transient then p.newField i.className depth a
          else i.echoField (p.echo s depth) a))

theorem Blocks.echo {t : TypeName} (h : t.isCanonical = true) {ws us : List Word}
    {part r r' : List UInt8} (hb : Blocks t.width ws part) (hlen : ws.length = us.length)
    (hr : part ++ r = us.flatMap t.encode ++ r') :
    part = us.flatMap t.encode ∧ ws = us.map t.truncate := by
  obtain ⟨blocks, hw, rfl, rfl⟩ := hb
  induction us generalizing blocks with
  | nil =>
    have hnil : blocks = [] := by simpa using hlen
    simp [hnil]
  | cons w us ih =>
    obtain ⟨b, blocks, rfl⟩ := List.exists_cons_of_length_eq_add_one (by simpa using hlen)
    obtain ⟨hb, hrest⟩ := List.forall_mem_cons.mp hw
    simp only [List.flatten_cons, List.flatMap_cons, List.append_assoc] at hr
    obtain ⟨rfl, hr'⟩ := List.append_inj hr (by rw [hb, TypeName.length_encode h])
    obtain ⟨h1, h2⟩ := ih blocks hrest (by simpa using hlen) hr'
    simp [h1, h2, TypeName.wordOf_encode h]

namespace Program

variable {p : Program} {s t : Store}
  {encode : Instance → String → Except MachineError (List UInt8)}
  {below : String → Nat → List UInt8 → Prop} {refs : Nat → Prop}

/-- Bytes that fill an object begin with the encoding of another only if they are its encoding, and
then the object shows what the other shows after it went over the wire. -/
def Echoes (p : Program) (s t : Store) (refs : Nat → Prop)
    (encode : Instance → String → Except MachineError (List UInt8))
    (below : String → Nat → List UInt8 → Prop) : Prop :=
  ∀ y z obj part part' r r', refs y → s.get? y = some obj → below obj.className z part →
    encode obj obj.className = .ok part' → part ++ r = part' ++ r' →
    part = part' ∧ ∀ depth, t.viewTo p.registry depth z = p.echo s depth y

theorem Echoes.all (he : p.Echoes s t refs encode below) {name : String} {l l' : List Nat}
    {parts parts' : List (List UInt8)} (hl : ∀ y ∈ l, refs y ∧ s.class? y = some name)
    (h : List.Forall₂ (below name) l' parts)
    (h' : List.Forall₂ (fun y part => encodeRef s encode (some y) = .ok part) l parts')
    (hlen : l'.length = l.length) {r r' : List UInt8}
    (hr : parts.flatten ++ r = parts'.flatten ++ r') :
    parts.flatten = parts'.flatten ∧
      ∀ depth, l'.map (t.viewTo p.registry depth) = l.map (p.echo s depth) := by
  induction h generalizing l parts' with
  | nil =>
    obtain rfl : l = [] := List.length_eq_zero_iff.mp hlen.symm
    cases h'
    exact ⟨rfl, fun _ => rfl⟩
  | @cons z part l' parts hz _ ih =>
    obtain ⟨y, l, rfl⟩ := List.exists_cons_of_length_eq_add_one hlen.symm
    cases h' with
    | @cons _ part' _ parts' hy h' =>
      obtain ⟨obj, hobj, henc⟩ := encodeRef_eq_ok.mp hy
      obtain ⟨hry, hcls⟩ := hl y List.mem_cons_self
      obtain rfl : obj.className = name := by simpa [Store.class?, hobj] using hcls
      simp only [List.flatten_cons, List.append_assoc] at hr
      obtain ⟨rfl, hview⟩ := he y z obj _ _ _ _ hry hobj hz henc hr
      obtain ⟨h1, h2⟩ := ih (fun w hw => hl w (List.mem_cons_of_mem _ hw)) h'
        (Nat.succ.inj hlen) (List.append_cancel_left hr)
      exact ⟨by simp [h1], fun depth => by simp [hview depth, h2 depth]⟩

section

variable {c : ClassDescription} {a : Attribute} {x z : Nat} {i j : Instance}

theorem Echoes.part (hp : p.Planned) (hno : p.registry.NoRedeclaration) (hs : p.Sound s)
    (hi : s.get? x = some i) (hreg : p.Regular s i)
    (ha : a ∈ p.registry.serialised i.className) (hk : p.registry.KindSound c a)
    (he : p.Echoes s t (· ∈ i.refsAt a) encode below) (ht : p.Sound t) (hj : t.get? z = some j)
    (hcls : j.className = i.className)
    (hcount : ∀ field, a.CountedBy field → (j.uint field).toNat = i.listLength a.name)
    {name : String} {part part' r r' : List UInt8} (hpart : j.Part below a part)
    (h : encodeAction s encode name i (Plan.wire a).marshal = .ok part')
    (hr : part ++ r = part' ++ r') :
    part = part' ∧ ∀ depth,
      j.viewField (t.viewTo p.registry depth) a = i.echoField (p.echo s depth) a := by
  have hall := serialised_sub _ _ a ha
  have hold := hs.holds hp hno hi hall
  have hold' := ht.holds hp hno hj (hcls ▸ hall)
  unfold Instance.Part at hpart
  cases Attribute.form hk.ne_none with
  | word q hq =>
    simp only [Registry.KindSound, hq] at hk hpart
    rw [encodeAction_word hq, Except.ok.injEq] at h
    subst h
    obtain ⟨rfl, -⟩ := List.append_inj hr (by rw [hpart.1, TypeName.length_encode hk])
    refine ⟨rfl, fun depth => ?_⟩
    simp only [Instance.viewField, Instance.echoField, hq, View.word.injEq]
    rw [hpart.2, TypeName.wordOf_encode hk, Instance.written]
    by_cases hc : q.countFor = ""
    · simp [hc]
    · rw [if_neg (by simpa using hc), if_neg (by simpa using hc)]
      exact TypeName.truncate_ofNat hk (hreg.counts a ha q hq hc).1
  | object cls hq =>
    simp only [Instance.Holds, hq] at hold hpart
    obtain ⟨y, hy, hyc⟩ := hold
    obtain ⟨z', hz', hb⟩ := hpart
    rw [encodeAction_object hq, hy] at h
    obtain ⟨obj, hobj, henc⟩ := encodeRef_eq_ok.mp h
    obtain rfl : obj.className = cls := by simpa [Store.class?, hobj] using hyc
    obtain ⟨rfl, hview⟩ := he y z' obj _ _ _ _ (by simp [Instance.refsAt, hq, hy]) hobj hb henc hr
    refine ⟨rfl, fun depth => ?_⟩
    simp only [Instance.viewField, Instance.echoField, hq, hy, hz', Option.elim_some]
    exact hview depth
  | array n e hq he' =>
    simp only [Registry.KindSound, Registry.ElementSound, Instance.Holds, hq, he',
      if_neg Bool.false_ne_true] at hk hold hpart
    rw [encodeAction_array hq he', Except.ok.injEq] at h
    subst h
    obtain ⟨h1, h2⟩ := hpart.2.echo hk.2 (hpart.1.trans hold.symm) hr
    refine ⟨h1, fun depth => ?_⟩
    simp [Instance.viewField, Instance.echoField, hq, he', h2]
  | objects n e hq he' =>
    simp only [Instance.Holds, hq, he', if_true] at hold hold' hpart
    obtain ⟨parts, hparts, rfl⟩ := hpart
    rw [encodeAction_objects hq he', encodeRefs_eq_ok] at h
    obtain ⟨parts', hparts', rfl⟩ := h
    obtain ⟨h1, h2⟩ := he.all
      (fun y hy => ⟨by simpa [Instance.refsAt, hq, he'] using hy, hold.2 y hy⟩) hparts hparts'
      (hold'.1.trans hold.1.symm) hr
    refine ⟨h1, fun depth => ?_⟩
    simp [Instance.viewField, Instance.echoField, hq, he', h2]
  | words field e hq he' =>
    have hn := hcount field ⟨e, hq⟩
    rw [hs.listLength hp hno hi hall hq, if_neg (by simp [he'])] at hn
    simp only [Registry.KindSound, Registry.ElementSound, hq, he', if_neg Bool.false_ne_true]
      at hk hpart
    rw [encodeAction_words hq he', Except.ok.injEq] at h
    subst h
    obtain ⟨h1, h2⟩ := hpart.2.echo hk.1 (hpart.1.symm.trans hn) hr
    refine ⟨h1, fun depth => ?_⟩
    simp [Instance.viewField, Instance.echoField, hq, he', h2]
  | list field e hq he' =>
    have hn := hcount field ⟨e, hq⟩
    rw [hs.listLength hp hno hi hall hq, if_pos he'] at hn
    simp only [hq, he', if_true] at hpart
    obtain ⟨hlen, parts, hparts, rfl⟩ := hpart
    rw [encodeAction_list hq he', encodeRefs_eq_ok] at h
    obtain ⟨parts', hparts', rfl⟩ := h
    obtain ⟨h1, h2⟩ := he.all (fun y hy => ⟨by simpa [Instance.refsAt, hq, he'] using hy,
      hreg.elements a ha field e hq he' y hy⟩) hparts hparts' (hlen.symm.trans hn) hr
    refine ⟨h1, fun depth => ?_⟩
    simp [Instance.viewField, Instance.echoField, hq, he', h2]

theorem Echoes.attributes (hp : p.Planned) (hno : p.registry.NoRedeclaration) (hs : p.Sound s)
    (hi : s.get? x = some i) (hreg : p.Regular s i) (hc : c ∈ p.registry.classes)
    (hsub : c.serialised ⊆ p.registry.serialised i.className)
    (he : ∀ a ∈ c.serialised, p.Echoes s t (· ∈ i.refsAt a) encode below) (ht : p.Sound t)
    (hj : t.get? z = some j) (hcls : j.className = i.className) {pre post : List Attribute}
    (hl : c.serialised = pre ++ post) (hrec : i.Received j pre)
    {parts parts' : List (List UInt8)} (h : List.Forall₂ (j.Part below) post parts)
    (h' : List.Forall₂ (fun a part =>
      encodeAction s encode c.name i (Plan.wire a).marshal = .ok part) post parts')
    {r r' : List UInt8} (hr : parts.flatten ++ r = parts'.flatten ++ r') :
    parts.flatten = parts'.flatten ∧ ∀ a ∈ post, ∀ depth,
      j.viewField (t.viewTo p.registry depth) a = i.echoField (p.echo s depth) a := by
  induction h generalizing pre parts' with
  | nil =>
    cases h'
    exact ⟨rfl, by simp⟩
  | @cons a part post parts hpart _ ih =>
    cases h' with
    | @cons _ part' _ parts' hpart' h' =>
      have ha : a ∈ c.serialised := by simp [hl]
      have hkind := hp.consistent.kinds c hc a (List.mem_filter.mp ha).1
      simp only [List.flatten_cons, List.append_assoc] at hr
      obtain ⟨rfl, hview⟩ := (he a ha).part hp hno hs hi hreg (hsub ha) hkind ht hj hcls
        (fun field hf => (hreg.count hp hc hsub hl hrec hf).1) hpart hpart' hr
      have hrec' : i.Received j (pre ++ [a]) := by
        intro b hb q hq
        rcases List.mem_append.mp hb with hb | hb
        · exact hrec b hb q hq
        · rw [List.mem_singleton.mp hb] at hq ⊢
          simp only [Registry.KindSound, hq] at hkind
          simp only [Instance.Part, hq] at hpart
          rw [encodeAction_word hq, Except.ok.injEq] at hpart'
          rw [hpart.2, ← hpart', TypeName.wordOf_encode hkind]
      obtain ⟨h1, h2⟩ := ih (by simpa using hl) hrec' h' (List.append_cancel_left hr)
      exact ⟨by simp [h1], fun b hb => (List.mem_cons.mp hb).elim (fun hb => hb ▸ hview) (h2 b)⟩

theorem Filled.transients {I : Store → Nat → Attribute → Prop} {R : Nat → String → Prop} {k : Nat}
    {attrs : List Attribute} {b : List UInt8} (h : p.Filled I R t k z attrs b)
    (hj : t.get? z = some j) :
    ∀ a ∈ p.registry.allAttributes j.className, a.transient = true → I t z a := by
  cases k with
  | zero => exact h.elim
  | succ k =>
    obtain ⟨j', hj', -, htrans, -⟩ := h
    cases Option.some.inj (hj.symm.trans hj')
    exact fun a ha ht => (htrans a ha ht).1

theorem viewTo_eq_echo (hi : s.get? x = some i) (hj : t.get? z = some j)
    (hcls : j.className = i.className)
    (hnew : ∀ a ∈ p.registry.allAttributes j.className, a.transient = true → p.Untouched t z a)
    (hser : ∀ a ∈ p.registry.serialised i.className, ∀ depth,
      j.viewField (t.viewTo p.registry depth) a = i.echoField (p.echo s depth) a) (depth : Nat) :
    t.viewTo p.registry depth z = p.echo s depth x := by
  cases depth with
  | zero => rfl
  | succ depth =>
    simp only [Store.viewTo, echo, hi, hj, hcls]
    congr 1
    refine List.map_congr_left fun a ha => congrArg _ ?_
    cases htr : a.transient with
    | true =>
      obtain ⟨j', hj', hview, -⟩ := hnew a (hcls ▸ ha) htr
      cases Option.some.inj (hj.symm.trans hj')
      rw [if_pos rfl, hview, hcls]
    | false =>
      rw [if_neg Bool.false_ne_true]
      exact hser a (List.mem_filter.mpr ⟨ha, by simp [htr]⟩) depth

theorem Filled.echoes (hp : p.Planned) (hno : p.registry.NoRedeclaration) (hs : p.Sound s)
    (ht : p.Sound t) (depth : Nat) {k : Nat} {R : Nat → String → Prop}
    (hc : c ∈ p.registry.classes) (hi : s.get? x = some i)
    (hreg : ∀ y obj, ReflTransGen (s.WireRefers p.registry) x y → s.get? y = some obj →
      p.Regular s obj)
    (hsub : p.registry.serialised c.name ⊆ p.registry.serialised i.className)
    (hj : t.get? z = some j) (hcls : j.className = i.className) {b b' r r' : List UInt8}
    (hfill : p.Filled p.Untouched R t k z (p.registry.serialised c.name) b)
    (h : p.encode s depth i c.name = .ok b') (hr : b ++ r = b' ++ r') :
    b = b' ∧ ∀ a ∈ p.registry.serialised c.name, ∀ depth,
      j.viewField (t.viewTo p.registry depth) a = i.echoField (p.echo s depth) a := by
  -- the bytes after the encoding are not fixed: inside an object other parts follow
  induction depth generalizing k x z c i j b b' r r' with
  | zero => simp [Program.encode] at h
  | succ depth ih =>
    obtain ⟨front, parts', hfront, hparts', rfl⟩ := (encode_succ_eq_ok hp hc).mp h
    have hser := hp.serialised_eq hc
    have hown := List.Subset.trans (hp.serialised_own hc) hsub
    rw [hser] at hfill
    obtain ⟨b₁, b₂, rfl, hfill₁, hfill₂⟩ := hfill.split
    rw [List.append_assoc, List.append_assoc] at hr
    obtain ⟨rfl, hview₁⟩ : b₁ = front ∧ ∀ a ∈ Plan.inherited c p.registry.serialised, ∀ depth,
        j.viewField (t.viewTo p.registry depth) a = i.echoField (p.echo s depth) a := by
      by_cases hpar : c.hasParent = true
      · rw [if_pos hpar] at hfront
        rw [Plan.inherited, if_pos hpar] at hfill₁ ⊢
        obtain ⟨q, hq, hqn, hin, -⟩ := hp.parent hc hpar
        rw [← hqn] at hfront hfill₁ ⊢
        exact ih hq hi hreg (List.Subset.trans hin hsub) hj hcls hfill₁ hfront hr
      · rw [if_neg hpar] at hfront
        rw [Plan.inherited, if_neg hpar] at hfill₁ ⊢
        cases k with
        | zero => exact hfill₁.elim
        | succ k =>
          obtain ⟨_, _, _, _, _, hnil, rfl⟩ := hfill₁
          cases hnil
          exact ⟨hfront.symm, by simp⟩
    cases k with
    | zero => exact hfill₂.elim
    | succ k =>
      obtain ⟨j', hj', -, -, parts, hparts, rfl⟩ := hfill₂
      cases Option.some.inj (hj.symm.trans hj')
      have hechoes : ∀ a ∈ c.serialised, p.Echoes s t (· ∈ i.refsAt a) (p.encode s depth)
          fun name y part => t.class? y = some name ∧
            p.Filled p.Untouched R t k y (p.registry.serialised name) part := by
        rintro a ha y w obj part part' r r' hy hobj ⟨hw, hfill⟩ henc hr
        obtain ⟨o, ho, hoc⟩ := Option.map_eq_some_iff.mp hw
        obtain ⟨q, hq, hqn⟩ := (hs.object y obj hobj).ready.class hp
        have hxy : s.WireRefers p.registry x y := ⟨i, hi, a, hown ha, hy⟩
        rw [← hqn] at henc
        have hfillq := hfill
        rw [← hqn] at hfillq
        obtain ⟨rfl, hview⟩ := ih hq hobj (fun w o hw => hreg w o (.head hxy hw))
          (hqn ▸ List.Subset.refl _) ho hoc hfillq henc hr
        refine ⟨rfl, viewTo_eq_echo hobj ho hoc ?_ (hqn ▸ hview)⟩
        exact hfill.transients ho
      obtain ⟨h1, h2⟩ := Echoes.attributes hp hno hs hi (hreg x i .refl hi) hc hown hechoes ht hj
        hcls (List.nil_append _).symm (by simp [Instance.Received]) hparts hparts'
        (List.append_cancel_left hr)
      refine ⟨by rw [h1], fun a ha => ?_⟩
      rw [hser] at ha
      exact (List.mem_append.mp ha).elim (hview₁ a) (h2 a)

end

section

variable {x : Nat} {i : Instance} {a : Attribute} {field : String}

theorem new_empty (hp : p.Planned) {name : String} (h : p.new {} name = .ok (s, x))
    (hi : s.get? x = some i) (attr : String) : i.list attr = [] ∧ i.primList attr = [] := by
  obtain ⟨objects, hb, rfl⟩ := new_eq_ok h
  obtain ⟨n, o, hcon, ho⟩ := build_object hp hb
  obtain rfl : o = i := by
    rw [Store.get?_append_right (Nat.zero_le _)] at hi
    exact Option.some.inj (ho.symm.trans hi)
  refine construct_keeps (P := fun i => i.list attr = [] ∧ i.primList attr = [])
    (N := fun _ => True) (fun _ _ _ _ _ _ _ => trivial) (fun _ _ act i j _ _ _ hij hi => ?_) _
    trivial hcon ⟨rfl, rfl⟩
  cases hij with
  | words _ _ =>
    refine ⟨hi.1, ?_⟩
    rw [Instance.primList, Table.get?_set]
    split
    · rfl
    · exact hi.2
  | list _ _ =>
    refine ⟨?_, hi.2⟩
    rw [Instance.list, Table.get?_set]
    split
    · rfl
    · exact hi.1
  | _ => exact hi

theorem Untouched.listLength (hp : p.Planned) (hno : p.registry.NoRedeclaration) (hs : p.Sound s)
    (h : p.Untouched s x a) (hi : s.get? x = some i)
    (ha : a ∈ p.registry.allAttributes i.className) (hf : a.CountedBy field) :
    i.listLength a.name = 0 := by
  obtain ⟨j, hj, hview, -⟩ := h
  cases Option.some.inj (hi.symm.trans hj)
  obtain ⟨e, hk⟩ := hf
  have hview := hview 0
  have hlist : ∀ s ref, p.new {} i.className = .ok (s, ref) → ∀ o, s.get? ref = some o →
      o.viewField (s.viewTo p.registry 0) a = .list [] := by
    intro s ref hnew o ho
    simp [Instance.viewField, hk, new_empty hp hnew ho]
  rw [hs.listLength hp hno hi ha hk]
  unfold newField at hview
  split at hview
  · next s ref hnew =>
    cases ho : s.get? ref with
    | none => cases he : e.isObject <;> simp [Instance.viewField, hk, ho, he] at hview
    | some o =>
      rw [ho, Option.elim_some, hlist s ref hnew o ho] at hview
      cases he : e.isObject <;> simpa [Instance.viewField, hk, he] using hview
  · cases he : e.isObject <;> simp [Instance.viewField, hk, he] at hview

/-- A list on the wire is as long as its count says. A transient one is empty, whatever its count
says. -/
theorem Filled.counts (hp : p.Planned) (hno : p.registry.NoRedeclaration) (hs : p.Sound s)
    {R : Nat → String → Prop} {k : Nat} {b : List UInt8} (hi : s.get? x = some i)
    (h : p.Filled p.Untouched R s k x (p.registry.serialised i.className) b)
    (ha : a ∈ p.registry.allAttributes i.className) (hf : a.CountedBy field) :
    i.listLength a.name = if a.transient then 0 else (i.uint field).toNat := by
  split
  · next ht => exact (h.transients hi a ha ht).listLength hp hno hs hi ha hf
  · next ht =>
    have hser : a ∈ p.registry.serialised i.className := List.mem_filter.mpr ⟨ha, by simpa using ht⟩
    exact h.listLength hp hs hno hi hser ha hf

end

theorem depthOver_le_decodeDepth (hsize : s.size ≤ t.size) (bytes : List UInt8) :
    p.depthOver s ≤ p.decodeDepth t bytes := by
  rw [depthOver, decodeDepth]
  exact Nat.mul_le_mul_right _ (by omega)

/-- An encoding is decoded by a new object of the same class, whatever follows it. All of it is
read, and the new object then shows what the other shows after it went over the wire. Its counts,
and those of all objects in it, are then the lengths of the lists that are on the wire. -/
theorem unmarshal_of_marshal {source : Registry} {options : PlanOptions}
    (h : p.Compiled source options) (hno : p.registry.NoRedeclaration) (ops : List Operation)
    {x : Nat} {i : Instance} (hi : (p.run ops).get? x = some i)
    (hacyclic : (p.run ops).Acyclic x)
    (hreg : ∀ y obj, ReflTransGen ((p.run ops).WireRefers p.registry) x y →
      (p.run ops).get? y = some obj → p.Regular (p.run ops) obj) :
    ∃ bytes t out, p.marshal (p.run ops) i = .ok bytes ∧
      p.new (p.run ops) i.className = .ok (t, out) ∧
      ∀ suffix, ∃ u, p.unmarshal t out (bytes ++ suffix) = (u, bytes.length, none) ∧
        (∀ depth, u.viewTo p.registry depth out = p.echo (p.run ops) depth x) ∧
        ∀ y obj, ReflTransGen (u.WireRefers p.registry) out y → u.get? y = some obj →
          ∀ a ∈ p.registry.allAttributes obj.className, ∀ field, a.CountedBy field →
            obj.listLength a.name = if a.transient then 0 else (obj.uint field).toNat := by
  have hp := h.toPlanned
  have hs := run_sound hp ops
  generalize p.run ops = s at hi hacyclic hreg hs ⊢
  have hready := (hs.object x i hi).ready
  obtain ⟨bytes, hbytes⟩ := marshal_ok hp hs hi (hacyclic.height hs (Store.get?_lt hi))
  obtain ⟨objects, out, hb⟩ := hready.build s.size
  obtain ⟨hg, -, hout, -⟩ := build_grown hp hs hb
  obtain ⟨j, hj, hcls⟩ := Option.map_eq_some_iff.mp hout
  obtain ⟨c, hc, hcn⟩ := hready.class hp
  refine ⟨bytes, s.append objects, out, hbytes, bind_eq_ok.mpr ⟨_, hb, rfl⟩, fun suffix => ?_⟩
  rw [marshal, ← hcn] at hbytes
  have hsub : p.registry.serialised c.name ⊆ p.registry.serialised i.className :=
    hcn ▸ List.Subset.refl _
  obtain ⟨u, hu⟩ := decodeInto_consumes hp hno hs _
    (depthOver_le_decodeDepth hg.size_le (bytes ++ suffix)) hc hi hreg hsub hg.sound hj hcls hbytes
  have hun : p.unmarshal (s.append objects) out (bytes ++ suffix) = (u, bytes.length, none) := by
    have hrun := hu suffix 0
    rw [Nat.zero_add, hcn] at hrun
    simp only [unmarshal, hj, hcls, hrun]
  refine ⟨u, hun, ?_⟩
  obtain ⟨hsu, houtu, b, rest, hdata, hlen, R, k, hfill⟩ := unmarshal_filled hp hno
    (.untouched hp) hg.sound hj (.of_build hp (.untouched hp) hs hb) hun
  obtain ⟨rfl, -⟩ := List.append_inj hdata hlen
  obtain ⟨o, ho, hoc⟩ := Option.map_eq_some_iff.mp houtu
  refine ⟨fun depth => ?_, fun y obj hy hobj a ha field hf => ?_⟩
  · rw [hcls, ← hcn] at hfill
    obtain ⟨-, hview⟩ := hfill.echoes (r := []) (s := s) hp hno hs hsu _ hc hi hreg hsub ho
      (hoc.trans hcls) hbytes rfl
    exact viewTo_eq_echo hi ho (hoc.trans hcls) (hfill.transients ho) (hcn ▸ hview) depth
  · obtain ⟨m, name, part, hyc, hfilly⟩ := hfill.reaches houtu hy
    obtain rfl : obj.className = name := by simpa [Store.class?, hobj] using hyc
    exact hfilly.counts hp hno hsu hobj ha hf

end Program

namespace Survey

def plotted : List Operation := [
  .new "Point", .new "Route", .append 2 "points" 0, .append 2 "points" 0, .setUint 0 "x" 258,
  .setUint 0 "label" 9, .setArray 2 "codes" 1 511, .appendUint 2 "marks" 5]

theorem plotted_evaluated : 2 < (program.run plotted).size ∧
    (program.run plotted).isRanked id = true ∧ program.isRegular (program.run plotted) = true := by
  decide +kernel

theorem plotted_acyclic : (program.run plotted).Acyclic 2 :=
  Store.acyclic_of_isRanked plotted_evaluated.2.1 2

end Survey

/-- The route is read back from its encoding and one more byte. -/
theorem unmarshal_of_marshal_plotted : ∃ i bytes t out u,
    (Survey.program.run Survey.plotted).get? 2 = some i ∧
    Survey.program.marshal (Survey.program.run Survey.plotted) i = .ok bytes ∧
    Survey.program.new (Survey.program.run Survey.plotted) i.className = .ok (t, out) ∧
    Survey.program.unmarshal t out (bytes ++ [255]) = (u, bytes.length, none) ∧
    ∀ depth, u.viewTo Survey.program.registry depth out =
      Survey.program.echo (Survey.program.run Survey.plotted) depth 2 := by
  obtain ⟨hlt, -, hreg⟩ := Survey.plotted_evaluated
  obtain ⟨i, hi⟩ := Store.get?_of_lt hlt
  obtain ⟨bytes, t, out, hbytes, hnew, hall⟩ := Program.unmarshal_of_marshal
    Survey.program_compiled Survey.program_noRedeclaration Survey.plotted hi
    Survey.plotted_acyclic fun _ _ _ hy => Program.regular_of_isRegular hreg hy
  obtain ⟨u, hu, hview, -⟩ := hall [255]
  exact ⟨i, bytes, t, out, u, hi, hbytes, hnew, hu, hview⟩

namespace Unsettled

def filled : List Operation := [.new "Cache", .appendUint 0 "items" 7, .appendUint 0 "items" 8]

theorem filled_evaluated : (program.run filled).isRanked id = true ∧
    program.isRegular (program.run filled) = true ∧
    ((program.run filled).get? 0).bind
      (fun i => (program.marshal (program.run filled) i).toOption) = some [2] ∧
    (program.new (program.run filled) "Cache").toOption.bind (fun made =>
      let read := program.unmarshal made.1 made.2 [2]
      (read.1.get? made.2).map fun j =>
        (read.2, (j.uint "count").toNat, j.listLength "items")) = some ((1, none), 2, 0) := by
  decide +kernel

end Unsettled

/-- The items stay behind, but their number does not. -/
theorem unsettled_not_echoed : Unsettled.program.Compiled Unsettled.source {} ∧
    Unsettled.program.registry.NoRedeclaration ∧
    Unsettled.items ∈ Unsettled.program.registry.allAttributes "Cache" ∧
    (Unsettled.program.run Unsettled.filled).Acyclic 0 ∧
    (∀ y obj, (Unsettled.program.run Unsettled.filled).get? y = some obj →
      Unsettled.program.Regular (Unsettled.program.run Unsettled.filled) obj) ∧
    ∃ i t out u j, (Unsettled.program.run Unsettled.filled).get? 0 = some i ∧
      Unsettled.program.marshal (Unsettled.program.run Unsettled.filled) i = .ok [2] ∧
      Unsettled.program.new (Unsettled.program.run Unsettled.filled) "Cache" = .ok (t, out) ∧
      Unsettled.program.unmarshal t out [2] = (u, 1, none) ∧ u.get? out = some j ∧
      (j.uint "count").toNat ≠ j.listLength "items" := by
  obtain ⟨hno, -, hitems⟩ := Unsettled.program_evaluated
  obtain ⟨hrank, hreg, hwritten, hread⟩ := Unsettled.filled_evaluated
  obtain ⟨i, hi, hbytes⟩ := Option.bind_eq_some_iff.mp hwritten
  obtain ⟨⟨t, out⟩, hnew, hread⟩ := Option.bind_eq_some_iff.mp hread
  obtain ⟨j, hj, hshown⟩ := Option.map_eq_some_iff.mp hread
  simp only [Prod.mk.injEq] at hshown
  obtain ⟨hdone, hcount, hlength⟩ := hshown
  refine ⟨Unsettled.program_compiled, hno, hitems, Store.acyclic_of_isRanked hrank 0,
    fun _ _ hy => Program.regular_of_isRegular hreg hy, i, t, out, _, j, hi,
    eq_ok_of_toOption hbytes, eq_ok_of_toOption hnew, Prod.ext rfl hdone, hj, ?_⟩
  rw [hcount, hlength]
  decide

end PduCompiler
