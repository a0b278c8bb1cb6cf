import PduCompiler.Proofs.Decoded

/-! Encoding what was decoded. An object filled from some bytes is encoded as those bytes: every
count is the length of the list that was read by it. -/

namespace PduCompiler

open Decode Relation

/-- What a field is said to count is a list of its class that has the field for its count. Sealing
sees to that, but keeps what a field that counts no list was said to count before. -/
def Registry.Linked (r : Registry) : Prop :=
  ∀ c ∈ r.classes, ∀ b ∈ c.attributes, ∀ q, b.kind = some (.primitive q) → q.countFor ≠ "" →
    ∃ l ∈ c.attributes, l.CountedBy b.name ∧ l.name = q.countFor

def Registry.NoTransientList (r : Registry) : Prop :=
  ∀ c ∈ r.classes, ∀ a ∈ c.attributes, ∀ field, a.CountedBy field → a.transient = false

theorem Blocks.encode {t : TypeName} (h : t.isCanonical = true) {words : List Word}
    {bytes : List UInt8} (hb : Blocks t.width words bytes) : words.flatMap t.encode = bytes := by
  obtain ⟨blocks, hw, rfl, rfl⟩ := hb
  induction blocks with
  | nil => rfl
  | cons b blocks ih =>
    obtain ⟨hb, hw⟩ := List.forall_mem_cons.mp hw
    rw [List.map_cons, List.flatMap_cons, TypeName.encode_wordOf h hb, ih hw, List.flatten_cons]

theorem Instance.Part.refs {below : String → Nat → List UInt8 → Prop} {i : Instance}
    {a : Attribute} {part : List UInt8} (h : i.Part below a part) {y : Nat}
    (hy : y ∈ i.refsAt a) : ∃ name part', below name y part' := by
  unfold Part at h
  unfold refsAt at hy
  cases hk : a.kind with
  | none => simp [hk] at h
  | some kind =>
    cases kind with
    | primitive q => simp [hk] at hy
    | object name =>
      simp only [hk, Option.mem_toList] at h hy
      obtain ⟨z, hz, hb⟩ := h
      cases Option.some.inj (hz.symm.trans hy)
      exact ⟨name, part, hb⟩
    | fixedList n e =>
      simp only [hk] at h hy
      split at hy
      · next he =>
        rw [if_pos he] at h
        obtain ⟨parts, hf, -⟩ := h
        obtain ⟨part', -, hp⟩ := forall₂_of_mem hf hy
        exact ⟨e.className, part', hp⟩
      · simp at hy
    | dynamicList field e =>
      simp only [hk] at h hy
      split at hy
      · next he =>
        rw [if_pos he] at h
        obtain ⟨-, parts, hf, -⟩ := h
        obtain ⟨part', -, hp⟩ := forall₂_of_mem hf hy
        exact ⟨e.className, part', hp⟩
      · simp at hy

def Instance.Counted (i : Instance) (attrs : List Attribute) : Prop :=
  ∀ b ∈ attrs, ∀ q, b.kind = some (.primitive q) → q.countFor ≠ "" →
    i.listLength q.countFor = (i.uint b.name).toNat

namespace Program

variable {p : Program} {I : Store → Nat → Attribute → Prop} {R : Nat → String → Prop}
  {s : Store} {k x : Nat}

theorem Filled.refers {name : String} {b : List UInt8} (hx : s.class? x = some name)
    (h : p.Filled I R s (k + 1) x (p.registry.serialised name) b) {y : Nat}
    (hy : s.WireRefers p.registry x y) : ∃ name' part, s.class? y = some name' ∧
      p.Filled I R s k y (p.registry.serialised name') part := by
  obtain ⟨i, hi, -, -, parts, hparts, -⟩ := h
  obtain ⟨j, hj, a, ha, hy⟩ := hy
  cases Option.some.inj (hi.symm.trans hj)
  obtain rfl : i.className = name := by simpa [Store.class?, hi] using hx
  obtain ⟨part, -, hpart⟩ := forall₂_of_mem hparts ha
  exact hpart.refs hy

theorem Filled.height {name : String} {b : List UInt8} (hx : s.class? x = some name)
    (h : p.Filled I R s k x (p.registry.serialised name) b) :
    Height (s.WireRefers p.registry) k x := by
  induction k generalizing x name b with
  | zero => exact h
  | succ k ih =>
    intro y hy
    obtain ⟨name', part, hcls, hfill⟩ := h.refers hx hy
    exact ih hcls hfill

theorem Filled.reaches {name : String} {b : List UInt8} (hx : s.class? x = some name)
    (h : p.Filled I R s k x (p.registry.serialised name) b) {y : Nat}
    (hr : ReflTransGen (s.WireRefers p.registry) x y) : ∃ m name' part,
      s.class? y = some name' ∧ p.Filled I R s m y (p.registry.serialised name') part := by
  induction hr using ReflTransGen.head_induction_on generalizing k name b with
  | refl => exact ⟨k, name, b, hx, h⟩
  | head hxz _ ih =>
    cases k with
    | zero => exact h.elim
    | succ k =>
      obtain ⟨name', part, hcls, hfill⟩ := h.refers hx hxz
      exact ih hcls hfill

theorem Filled.split {attrs attrs' : List Attribute} {b : List UInt8}
    (h : p.Filled I R s k x (attrs ++ attrs') b) :
    ∃ front back, b = front ++ back ∧ p.Filled I R s k x attrs front ∧
      p.Filled I R s k x attrs' back := by
  cases k with
  | zero => exact h.elim
  | succ k =>
    obtain ⟨i, hi, hfields, htrans, parts, hparts, rfl⟩ := h
    obtain ⟨v, v', rfl, hv, hv'⟩ := forall₂_append_left hparts
    refine ⟨v.flatten, v'.flatten, List.flatten_append, ⟨i, hi, fun a ha => ?_, htrans, v, hv, rfl⟩,
      i, hi, fun a ha => ?_, htrans, v', hv', rfl⟩
    · exact hfields a (List.mem_append_left _ ha)
    · exact hfields a (List.mem_append_right _ ha)

theorem encodeAction_part {c : ClassDescription} {a : Attribute} {i : Instance}
    (hk : p.registry.KindSound c a) (hcount : i.Counted [a])
    {below : String → Nat → List UInt8 → Prop}
    {encode : Instance → String → Except MachineError (List UInt8)}
    (hbelow : ∀ name y part obj part', below name y part → s.get? y = some obj →
      encode obj obj.className = .ok part' → part' = part) {name : String}
    {part part' : List UInt8} (hpart : i.Part below a part)
    (h : encodeAction s encode name i (Plan.wire a).marshal = .ok part') : part' = part := by
  have hrefs : ∀ {cls : String} {refs : List Nat} {parts parts' : List (List UInt8)},
      List.Forall₂ (below cls) refs parts →
      List.Forall₂ (fun y part => encodeRef s encode (some y) = .ok part) refs parts' →
      parts' = parts := by
    intro cls refs parts parts' hf hf'
    refine forall₂_unique (fun y _ part' part he hb => ?_) hf' hf
    obtain ⟨obj, hobj, hpart⟩ := encodeRef_eq_ok.mp he
    exact hbelow _ _ _ obj _ hb hobj hpart
  unfold Instance.Part at hpart
  cases Attribute.form hk.ne_none with
  | word q hq =>
    simp only [Registry.KindSound, hq] at hk hpart
    rw [encodeAction_word hq, Except.ok.injEq] at h
    -- a count field holds the length that was read, which is now the live length
    have hw : i.written a.name q = wordOf part := by
      rw [← hpart.2, Instance.written]
      by_cases hc : q.countFor = ""
      · simp [hc]
      · rw [if_neg (by simpa using hc), hcount a List.mem_cons_self q hq hc, BitVec.ofNat_toNat]
        simp
    rw [← h, hw, TypeName.encode_wordOf hk hpart.1]
  | object cls hq =>
    simp only [hq] at hpart
    obtain ⟨y, hy, hb⟩ := hpart
    rw [encodeAction_object hq, hy] at h
    obtain ⟨obj, hobj, hpart⟩ := encodeRef_eq_ok.mp h
    exact hbelow _ _ _ obj _ hb hobj hpart
  | array n e hq he =>
    simp only [Registry.KindSound, Registry.ElementSound, hq, he, if_neg Bool.false_ne_true]
      at hk hpart
    rw [encodeAction_array hq he, Except.ok.injEq] at h
    rw [← h, hpart.2.encode hk.2]
  | objects n e hq he =>
    simp only [hq, he, if_true] at hpart
    obtain ⟨parts, hf, rfl⟩ := hpart
    rw [encodeAction_objects hq he, encodeRefs_eq_ok] at h
    obtain ⟨parts', hf', rfl⟩ := h
    rw [hrefs hf hf']
  | words field e hq he =>
    simp only [Registry.KindSound, Registry.ElementSound, hq, he, if_neg Bool.false_ne_true]
      at hk hpart
    rw [encodeAction_words hq he, Except.ok.injEq] at h
    rw [← h, hpart.2.encode hk.1]
  | list field e hq he =>
    simp only [hq, he, if_true] at hpart
    obtain ⟨-, parts, hf, rfl⟩ := hpart
    rw [encodeAction_list hq he, encodeRefs_eq_ok] at h
    obtain ⟨parts', hf', rfl⟩ := h
    rw [hrefs hf hf']

theorem Filled.listLength (hp : p.Planned) (hs : p.Sound s) (hno : p.registry.NoRedeclaration)
    {i : Instance} (hi : s.get? x = some i) {attrs : List Attribute} {b : List UInt8}
    (h : p.Filled I R s k x attrs b) {l : Attribute} (hl : l ∈ attrs)
    (hall : l ∈ p.registry.allAttributes i.className) {field : String} (hf : l.CountedBy field) :
    i.listLength l.name = (i.uint field).toNat := by
  cases k with
  | zero => exact h.elim
  | succ k =>
    obtain ⟨j, hj, -, -, parts, hparts, -⟩ := h
    cases Option.some.inj (hi.symm.trans hj)
    obtain ⟨part, -, hpart⟩ := forall₂_of_mem hparts hl
    obtain ⟨e, hle⟩ := hf
    simp only [Instance.Part, hle] at hpart
    rw [hs.listLength hp hno hi hall hle]
    split
    · next he =>
      rw [if_pos he] at hpart
      exact hpart.1.symm
    · next he =>
      rw [if_neg he] at hpart
      exact hpart.1.symm

theorem Filled.counted (hp : p.Planned) (hl : p.registry.Linked)
    (hnt : p.registry.NoTransientList) (hs : p.Sound s) (hno : p.registry.NoRedeclaration)
    {i : Instance} (hi : s.get? x = some i) {b : List UInt8}
    (h : p.Filled I R s k x (p.registry.serialised i.className) b) :
    i.Counted (p.registry.serialised i.className) := by
  intro b hb q hq hne
  have hbm := serialised_sub _ _ b hb
  obtain ⟨d, hd, hdn⟩ := (hs.object x i hi).ready.class hp
  obtain ⟨c, hc, hbc, hsub⟩ := hp.declaring hd (hdn ▸ hbm)
  rw [hdn] at hsub
  obtain ⟨l, hlc, hcount, hln⟩ := hl c hc b hbc q hq hne
  have hser : l ∈ p.registry.serialised i.className :=
    List.mem_filter.mpr ⟨hsub hlc, by simp [hnt c hc l hlc b.name hcount]⟩
  rw [← hln]
  exact h.listLength hp hs hno hi hser (hsub hlc) hcount

theorem encode_filled (hp : p.Planned) (hl : p.registry.Linked)
    (hnt : p.registry.NoTransientList) (hs : p.Sound s) (hno : p.registry.NoRedeclaration)
    (depth : Nat) {c : ClassDescription} {i : Instance} {b bytes : List UInt8}
    (hc : c ∈ p.registry.classes) (hi : s.get? x = some i)
    (hcount : i.Counted (p.registry.serialised c.name))
    (hfill : p.Filled I R s k x (p.registry.serialised c.name) b)
    (h : p.encode s depth i c.name = .ok bytes) : bytes = b := by
  induction depth generalizing k x c i b bytes with
  | zero => simp [encode] at h
  | succ depth ih =>
    obtain ⟨front, parts, hfront, hparts, rfl⟩ := (encode_succ_eq_ok hp hc).mp h
    rw [hp.serialised_eq hc] at hfill
    obtain ⟨b₁, b₂, rfl, hfill₁, hfill₂⟩ := hfill.split
    have hfrontb : front = b₁ := by
      by_cases hpar : c.hasParent = true
      · rw [if_pos hpar] at hfront
        rw [Plan.inherited, if_pos hpar] at hfill₁
        obtain ⟨q, hq, hqn, hin, -⟩ := hp.parent hc hpar
        rw [← hqn] at hfront hfill₁
        exact ih hq hi (fun b hb => hcount b (hin hb)) hfill₁ hfront
      · rw [if_neg hpar] at hfront
        rw [Plan.inherited, if_neg hpar] at hfill₁
        cases k with
        | zero => exact hfill₁.elim
        | succ k =>
          obtain ⟨_, _, _, _, _, hnil, rfl⟩ := hfill₁
          cases hnil
          exact hfront
    cases k with
    | zero => exact hfill₂.elim
    | succ k =>
      obtain ⟨j, hj, -, -, parts', hparts', rfl⟩ := hfill₂
      cases Option.some.inj (hi.symm.trans hj)
      rw [hfrontb]
      refine congrArg (fun parts => b₁ ++ List.flatten parts) (forall₂_unique ?_ hparts hparts')
      intro a ha part part' henc hpart
      have hser := hp.serialised_own hc ha
      refine encodeAction_part (hp.consistent.kinds c hc a (List.mem_filter.mp ha).1)
        (fun b hb => hcount b (List.mem_singleton.mp hb ▸ hser)) ?_ hpart henc
      rintro name y part obj part' ⟨hcls, hy⟩ hobj hpart'
      obtain rfl : obj.className = name := by simpa [Store.class?, hobj] using hcls
      have hcounted := hy.counted hp hl hnt hs hno hobj
      obtain ⟨d, hd, hdn⟩ := (hs.object y obj hobj).ready.class hp
      rw [← hdn] at hy hpart' hcounted
      exact ih hd hobj hcounted hy hpart'

theorem Persists.trivial (p : Program) : p.Persists fun _ _ _ => True :=
  ⟨fun _ _ _ _ _ => True.intro, fun _ _ _ _ _ _ _ _ _ => True.intro⟩

theorem Compiled.linked {source : Registry} {options : PlanOptions}
    (h : p.Compiled source options) (hu : source.Unlinked) : p.registry.Linked :=
  fun _ hc _ hb _ hq hne => h.built.links hu h.isSealed hc hb hq hne

/-- Whatever an object held before, where decoding into it succeeds its encoding is then the bytes
that were read, and its size is their number. -/
theorem marshal_of_unmarshal {source : Registry} {options : PlanOptions}
    (h : p.Compiled source options) (hl : p.registry.Linked) (hno : p.registry.NoRedeclaration)
    (hnt : p.registry.NoTransientList) (ops : List Operation) {x n : Nat} {data : List UInt8}
    {t : Store} (hun : p.unmarshal (p.run ops) x data = (t, n, none)) :
    n ≤ data.length ∧ ∃ i, t.get? x = some i ∧ p.marshal t i = .ok (data.take n) ∧
      p.size t i = .ok (wrap n) := by
  have hp := h.toPlanned
  have hs := run_sound hp ops
  cases hi : (p.run ops).get? x with
  | none => simp [unmarshal, hi] at hun
  | some i =>
    obtain ⟨ht, hcls, b, rest, rfl, rfl, R, k, hfill⟩ := unmarshal_filled hp hno (.trivial p) hs hi
      (fun _ _ _ _ _ _ _ => True.intro) hun
    obtain ⟨j, hj, hjn⟩ := Option.map_eq_some_iff.mp hcls
    have hheight := Store.height_le_size ht (Store.get?_lt hj) (hfill.height hcls)
    obtain ⟨bytes, hb⟩ := marshal_ok hp ht hj hheight
    obtain ⟨c, hc, hcn⟩ := (ht.object x j hj).ready.class hp
    have heq : bytes = b := by
      rw [← hjn] at hfill
      have hcount := hfill.counted hp hl hnt ht hno hj
      rw [marshal, ← hcn] at hb
      rw [← hcn] at hfill hcount
      exact encode_filled hp hl hnt ht hno _ hc hj hcount hfill hb
    subst heq
    refine ⟨by simp, j, hj, by simpa using hb, ?_⟩
    exact size_eq_wrap_length hp ht hno hj hb

end Program

namespace Survey

def routeBytes : List UInt8 := [9, 1, 0, 5, 1, 2, 3, 4, 1, 0, 7, 255]

theorem routeBytes_evaluated :
    (source.classes.all fun c => c.attributes.all fun a => match a.kind with
      | some (.primitive q) => q.countFor == ""
      | _ => true) = true ∧
    (program.registry.classes.all fun c => c.attributes.all fun a => match a.kind with
      | some (.dynamicList _ _) => !a.transient
      | _ => true) = true ∧
    (program.unmarshal (program.run mixed) 4 routeBytes).2 = (11, none) := by
  decide +kernel

theorem source_unlinked : source.Unlinked := by
  intro c hc a ha q hq
  have hh := List.all_eq_true.mp (List.all_eq_true.mp routeBytes_evaluated.1 c hc) a ha
  simpa [hq] using hh

theorem program_noTransientList : program.registry.NoTransientList := by
  rintro c hc a ha field ⟨e, he⟩
  have hh := List.all_eq_true.mp (List.all_eq_true.mp routeBytes_evaluated.2.1 c hc) a ha
  simpa [he] using hh

theorem unmarshal_routeBytes :
    ∃ t, program.unmarshal (program.run mixed) 4 routeBytes = (t, 11, none) :=
  ⟨_, Prod.ext rfl routeBytes_evaluated.2.2⟩

end Survey

/-- A route with lists and codes of its own is decoded into. -/
theorem marshal_of_unmarshal_stale : ∃ t i,
    Survey.program.unmarshal (Survey.program.run Survey.mixed) 4 Survey.routeBytes =
      (t, 11, none) ∧ t.get? 4 = some i ∧
    Survey.program.marshal t i = .ok (Survey.routeBytes.take 11) ∧
    Survey.program.size t i = .ok (wrap 11) := by
  obtain ⟨t, hun⟩ := Survey.unmarshal_routeBytes
  obtain ⟨-, i, hi, hm, hsize⟩ := Program.marshal_of_unmarshal Survey.program_compiled
    (Survey.program_compiled.linked Survey.source_unlinked) Survey.program_noRedeclaration
    Survey.program_noTransientList Survey.mixed hun
  exact ⟨t, i, hun, hi, hm, hsize⟩

/-! A field that was said to count a list which its class does not have. -/

namespace Stray

def source : Registry := .gather [
  { name := "Tag", attributes := [
      { name := "code", kind := some (.primitive { type := "uint8", countFor := "ghosts" }) }] }]

def program : Program := (Program.compile? source {}).get (by decide +kernel)

theorem program_compiled : program.Compiled source {} :=
  Program.compiled_get (Registry.gather_built _) _

theorem program_evaluated : program.registry.NoRedeclaration ∧
    (program.registry.classes.all fun c => c.attributes.all fun a => match a.kind with
      | some (.dynamicList _ _) => false
      | _ => true) = true ∧
    (program.run [.new "Tag"]).isRanked id = true ∧
    (program.unmarshal (program.run [.new "Tag"]) 0 [5]).2 = (1, none) ∧
    ((program.unmarshal (program.run [.new "Tag"]) 0 [5]).1.get? 0).bind (fun i =>
      (program.marshal (program.unmarshal (program.run [.new "Tag"]) 0 [5]).1 i).toOption) =
        some [0] := by
  decide +kernel

theorem program_noTransientList : program.registry.NoTransientList := by
  rintro c hc a ha field ⟨e, he⟩
  have hh := List.all_eq_true.mp (List.all_eq_true.mp program_evaluated.2.1 c hc) a ha
  simp [he] at hh

end Stray

/-- The code 5 is read, and then written as the length of no list. -/
theorem stray_not_rewritten : Stray.program.Compiled Stray.source {} ∧
    Stray.program.registry.NoRedeclaration ∧ Stray.program.registry.NoTransientList ∧
    (Stray.program.run [.new "Tag"]).Acyclic 0 ∧ ∃ t i,
      Stray.program.unmarshal (Stray.program.run [.new "Tag"]) 0 [5] = (t, 1, none) ∧
      t.get? 0 = some i ∧ Stray.program.marshal t i = .ok [0] := by
  obtain ⟨hno, -, hrank, hread, hwritten⟩ := Stray.program_evaluated
  obtain ⟨i, hi, hbytes⟩ := Option.bind_eq_some_iff.mp hwritten
  exact ⟨Stray.program_compiled, hno, Stray.program_noTransientList,
    Store.acyclic_of_isRanked hrank 0, _, i, Prod.ext rfl hread, hi, eq_ok_of_toOption hbytes⟩

end PduCompiler
