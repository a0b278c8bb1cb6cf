import PduCompiler.Proofs.Consuming

/-! Counts on the wire. The encoding of an object consists of one part for each serialised attribute
of its class chain, and the encoding of every object that it refers to lies inside. A count field is
written as the length of its list cut to the width of the field, so the counts are true exactly where
all lengths fit. -/

namespace PduCompiler

open Relation Decode

/-- In objects of a class the field `b` carries the length of the list `l`, and both are on the
wire. -/
def Registry.Counts (r : Registry) (name : String) (b : Attribute) (q : Primitive)
    (l : Attribute) : Prop :=
  b ∈ r.serialised name ∧ l ∈ r.serialised name ∧ l.CountedBy b.name ∧ b.kind = some (.primitive q)

theorem TypeName.toNat_truncate_ofNat {t : TypeName} (h : t.isCanonical = true) (n : Nat) :
    (t.truncate (BitVec.ofNat 64 n)).toNat = n % 2 ^ t.bits := by
  obtain ⟨sc, hsc⟩ := Option.isSome_iff_exists.mp h
  have hbits : t.bits = sc.bits := by rw [TypeName.bits, TypeName.width, hsc]; rfl
  have hdvd : 2 ^ sc.bits ∣ 2 ^ 64 := Nat.pow_dvd_pow 2 (by cases sc <;> decide)
  have hlt : n % 2 ^ sc.bits < 2 ^ 64 :=
    Nat.lt_of_lt_of_le (Nat.mod_lt _ (Nat.two_pow_pos _)) (Nat.le_of_dvd (Nat.two_pow_pos _) hdvd)
  rw [TypeName.truncate, hsc, hbits]
  simp only [Word.truncate, BitVec.toNat_ofNat, Nat.pow_eq, Nat.mod_mod_of_dvd _ hdvd]
  exact Nat.mod_eq_of_lt hlt

namespace Program

section

variable {s : Store} {below below' : Instance → String → Except MachineError (List UInt8)}
  {name : String} {i : Instance} {act : Action} {part : List UInt8}

theorem encodeRef_mono (h : ∀ obj c b, below obj c = .ok b → below' obj c = .ok b)
    {ref : Option Nat} (hr : encodeRef s below ref = .ok part) :
    encodeRef s below' ref = .ok part := by
  unfold encodeRef at hr ⊢
  cases hobj : ref.bind s.get? with
  | none => simp [hobj] at hr
  | some obj =>
    simp only [hobj] at hr ⊢
    exact h obj obj.className part hr

theorem encodeRefs_mono (h : ∀ obj c b, below obj c = .ok b → below' obj c = .ok b)
    {refs : List Nat} {parts : List (List UInt8)}
    (hr : refs.mapM (fun y => encodeRef s below (some y)) = .ok parts) :
    refs.mapM (fun y => encodeRef s below' (some y)) = .ok parts :=
  mapM_eq_ok.mpr ((mapM_eq_ok.mp hr).imp fun _ _ hy => encodeRef_mono h hy)

theorem encodeAction_mono (h : ∀ obj c b, below obj c = .ok b → below' obj c = .ok b)
    (name' : String) (hact : encodeAction s below name i act = .ok part) :
    encodeAction s below' name' i act = .ok part := by
  unfold encodeAction at hact ⊢
  cases hop : act.op with
  | super =>
    simp only [hop] at hact ⊢
    exact h i act.className part hact
  | write | writeLength | writeArray | writeList =>
    simp only [hop] at hact ⊢
    exact hact
  | marshal =>
    simp only [hop] at hact ⊢
    exact encodeRef_mono h hact
  | marshalArray | marshalList =>
    simp only [hop, bind_eq_ok] at hact ⊢
    obtain ⟨parts, hparts, he⟩ := hact
    exact ⟨parts, encodeRefs_mono h hparts, he⟩
  | _ => simp [hop] at hact

end

theorem encode_mono {p : Program} {s : Store} {depth depth' : Nat} (hd : depth ≤ depth')
    {i : Instance} {name : String} {bytes : List UInt8} (h : p.encode s depth i name = .ok bytes) :
    p.encode s depth' i name = .ok bytes := by
  induction depth generalizing depth' i name bytes with
  | zero => simp [encode] at h
  | succ depth ih =>
    obtain ⟨m, rfl⟩ : ∃ m, depth' = m + 1 := ⟨depth' - 1, by omega⟩
    unfold encode at h ⊢
    cases hplan : p.plan? name with
    | none => simp [hplan] at h
    | some plan =>
      simp only [hplan, bind_eq_ok, mapM_eq_ok] at h ⊢
      obtain ⟨parts, hparts, he⟩ := h
      have hle : depth ≤ m := by omega
      exact ⟨parts, hparts.imp fun _ _ ha => encodeAction_mono (fun _ _ _ hb => ih hle hb) _ ha, he⟩

def partOf (p : Program) (s : Store) (i : Instance) (a : Attribute) :
    Except MachineError (List UInt8) :=
  encodeAction s (p.encode s (p.depthOver s)) i.className i (Plan.wire a).marshal

def itemsOf (p : Program) (s : Store) (i : Instance) (l : Attribute) :
    Except MachineError (List (List UInt8)) :=
  match l.kind with
  | some (.dynamicList _ e) =>
    if e.isObject then
      (i.list l.name).mapM fun y => encodeRef s (p.encode s (p.depthOver s)) (some y)
    else .ok ((i.primList l.name).map e.type.encode)
  | _ => .ok []

/-- In the encoding of an object every count, as decoding reads it, is the number of elements that
follow, at any depth. -/
def TrueCounts (p : Program) (s : Store) (x : Nat) : Prop :=
  ∀ y, ReflTransGen (s.WireRefers p.registry) x y → ∀ i, s.get? y = some i →
    ∀ b q l, p.registry.Counts i.className b q l → ∃ count items w, p.partOf s i b = .ok count ∧
      p.itemsOf s i l = .ok items ∧ p.partOf s i l = .ok items.flatten ∧
      Consumes (scalar q.type) s count w s ∧ w.toNat = items.length

/-- No list of an encoding is too long for its count, at any depth. -/
def LengthsFit (p : Program) (s : Store) (x : Nat) : Prop :=
  ∀ y, ReflTransGen (s.WireRefers p.registry) x y → ∀ i, s.get? y = some i →
    ∀ b q l, p.registry.Counts i.className b q l → i.listLength l.name < 2 ^ q.type.bits

variable {p : Program} {s : Store}

theorem encode_parts (hp : p.Planned) {depth : Nat} (hd : depth ≤ p.depthOver s) {i : Instance}
    {c : ClassDescription} (hc : c ∈ p.registry.classes) {bytes : List UInt8}
    (h : p.encode s depth i c.name = .ok bytes) :
    ∃ parts, List.Forall₂ (fun a part => p.partOf s i a = .ok part)
      (p.registry.serialised c.name) parts ∧ bytes = parts.flatten := by
  induction depth generalizing c bytes with
  | zero => simp [encode] at h
  | succ depth ih =>
    obtain ⟨front, parts, hfront, hparts, rfl⟩ := (encode_succ_eq_ok hp hc).mp h
    have hown : List.Forall₂ (fun a part => p.partOf s i a = .ok part) c.serialised parts :=
      hparts.imp fun _ _ ha =>
        encodeAction_mono (fun _ _ _ hb => encode_mono (by omega) hb) i.className ha
    rw [hp.serialised_eq hc]
    by_cases hpar : c.hasParent = true
    · rw [if_pos hpar] at hfront
      obtain ⟨q, hq, hqn, -, -⟩ := hp.parent hc hpar
      rw [← hqn] at hfront
      obtain ⟨above, habove, rfl⟩ := ih (by omega) hq hfront
      refine ⟨above ++ parts, List.rel_append ?_ hown, List.flatten_append.symm⟩
      rwa [Plan.inherited, if_pos hpar, ← hqn]
    · rw [if_neg hpar] at hfront
      refine ⟨parts, ?_, by rw [hfront, List.nil_append]⟩
      rwa [Plan.inherited, if_neg hpar]

theorem marshal_parts (hp : p.Planned) (hs : p.Sound s) {x : Nat} {i : Instance}
    (hi : s.get? x = some i) {bytes : List UInt8} (h : p.marshal s i = .ok bytes) :
    ∃ parts, List.Forall₂ (fun a part => p.partOf s i a = .ok part)
      (p.registry.serialised i.className) parts ∧ bytes = parts.flatten := by
  obtain ⟨c, hc, hcn⟩ := (hs.object x i hi).ready.class hp
  rw [marshal, ← hcn] at h
  rw [← hcn]
  exact encode_parts hp (Nat.le_refl _) hc h

theorem infix_of_refs {refs : List Nat} {parts : List (List UInt8)}
    (h : List.Forall₂ (fun y part => encodeRef s (p.encode s (p.depthOver s)) (some y) = .ok part)
      refs parts) {y : Nat} (hy : y ∈ refs) :
    ∃ obj own, s.get? y = some obj ∧ p.marshal s obj = .ok own ∧ own <:+: parts.flatten := by
  obtain ⟨own, hmem, hown⟩ := forall₂_of_mem h hy
  obtain ⟨obj, hobj, hm⟩ := encodeRef_eq_ok.mp hown
  exact ⟨obj, own, hobj, hm, List.infix_of_mem_flatten hmem⟩

theorem partOf_refs {i : Instance} {a : Attribute} (hk : a.kind ≠ none) {part : List UInt8}
    (h : p.partOf s i a = .ok part) {y : Nat} (hy : y ∈ i.refsAt a) :
    ∃ obj own, s.get? y = some obj ∧ p.marshal s obj = .ok own ∧ own <:+: part := by
  unfold partOf at h
  cases Attribute.form hk with
  | word q hk => simp [Instance.refsAt, hk] at hy
  | object cls hk =>
    have hobj : i.object? a.name = some y := by simpa [Instance.refsAt, hk] using hy
    rw [encodeAction_object hk, hobj] at h
    obtain ⟨obj, hget, hm⟩ := encodeRef_eq_ok.mp h
    exact ⟨obj, part, hget, hm, List.infix_rfl⟩
  | array n e hk he => simp [Instance.refsAt, hk, he] at hy
  | objects n e hk he =>
    rw [encodeAction_objects hk he, encodeRefs_eq_ok] at h
    obtain ⟨parts, hparts, rfl⟩ := h
    exact infix_of_refs hparts (by simpa [Instance.refsAt, hk, he] using hy)
  | words field e hk he => simp [Instance.refsAt, hk, he] at hy
  | list field e hk he =>
    rw [encodeAction_list hk he, encodeRefs_eq_ok] at h
    obtain ⟨parts, hparts, rfl⟩ := h
    exact infix_of_refs hparts (by simpa [Instance.refsAt, hk, he] using hy)

theorem marshal_reach (hp : p.Planned) (hs : p.Sound s) {x y : Nat} {i : Instance}
    (hi : s.get? x = some i) {bytes : List UInt8} (h : p.marshal s i = .ok bytes)
    (hr : ReflTransGen (s.WireRefers p.registry) x y) :
    ∃ j own, s.get? y = some j ∧ p.marshal s j = .ok own ∧ own <:+: bytes := by
  induction hr with
  | refl => exact ⟨i, bytes, hi, h, List.infix_rfl⟩
  | @tail y z _ hyz ih =>
    obtain ⟨j, own, hj, hown, hin⟩ := ih
    obtain ⟨j', hj', a, ha, hz⟩ := hyz
    cases Option.some.inj (hj.symm.trans hj')
    obtain ⟨parts, hparts, rfl⟩ := marshal_parts hp hs hj hown
    obtain ⟨part, hmem, hpart⟩ := forall₂_of_mem hparts ha
    obtain ⟨c, hc, hcn⟩ := (hs.object y j hj).ready.class hp
    obtain ⟨d, hd, had, -⟩ := hp.declaring hc (hcn ▸ serialised_sub _ _ a ha)
    obtain ⟨k, own', hk, hown', hin'⟩ := partOf_refs (hp.kind_ne_none hd had) hpart hz
    exact ⟨k, own', hk, hown', (hin'.trans (List.infix_of_mem_flatten hmem)).trans hin⟩

theorem itemsOf_ok {i : Instance} {l : Attribute} {field : String} {e : Element}
    (hk : l.kind = some (.dynamicList field e)) {part : List UInt8}
    (h : p.partOf s i l = .ok part) :
    ∃ items, p.itemsOf s i l = .ok items ∧ part = items.flatten ∧
      items.length = if e.isObject then (i.list l.name).length else (i.primList l.name).length := by
  unfold partOf at h
  cases he : e.isObject with
  | false =>
    rw [encodeAction_words hk he, Except.ok.injEq] at h
    refine ⟨(i.primList l.name).map e.type.encode, by simp [itemsOf, hk, he], ?_, by simp⟩
    rw [← h, List.flatMap_def]
  | true =>
    rw [encodeAction_list hk he, encodeRefs_eq_ok] at h
    obtain ⟨items, hitems, rfl⟩ := h
    refine ⟨items, ?_, rfl, ?_⟩
    · simp only [itemsOf, hk, he, if_true]
      exact mapM_eq_ok.mpr hitems
    · rw [if_pos rfl]
      exact hitems.length_eq.symm

theorem count_tied (hp : p.Planned) (hno : p.registry.NoRedeclaration) {c : ClassDescription}
    (hc : c ∈ p.registry.classes) {b : Attribute} {q : Primitive} {l : Attribute}
    (h : p.registry.Counts c.name b q l) :
    q.type.isCanonical = true ∧ q.countFor = l.name ∧ l.name ≠ "" := by
  obtain ⟨hb, hl, hcount, hbk⟩ := h
  obtain ⟨d, hd, hld, hsub⟩ := hp.declaring hc (serialised_sub _ _ l hl)
  obtain ⟨b', hb', q', hn, hk', hq'⟩ := hp.consistent.counts d hd l hld b.name hcount
  -- without redeclaration the field that counts the list is the only one of its name
  obtain rfl : b' = b := List.inj_on_of_nodup_map (hno.names_nodup hp.rooted hp.consistent c hc)
    (hsub hb') (serialised_sub _ _ b hb) hn
  cases Option.some.inj (hbk.symm.trans hk')
  have hkind := hp.consistent.kinds d hd b' hb'
  simp only [Registry.KindSound, hbk] at hkind
  exact ⟨hkind, hq', hp.consistent.named d hd l hld⟩

theorem count_read (hp : p.Planned) (hs : p.Sound s) (hno : p.registry.NoRedeclaration) {x : Nat}
    {i : Instance} (hi : s.get? x = some i) {own : List UInt8} (hm : p.marshal s i = .ok own)
    {b : Attribute} {q : Primitive} {l : Attribute} (h : p.registry.Counts i.className b q l) :
    ∃ count items w, p.partOf s i b = .ok count ∧ p.itemsOf s i l = .ok items ∧
      p.partOf s i l = .ok items.flatten ∧ Consumes (scalar q.type) s count w s ∧
      items.length = i.listLength l.name ∧ w.toNat = items.length % 2 ^ q.type.bits := by
  obtain ⟨c, hc, hcn⟩ := (hs.object x i hi).ready.class hp
  obtain ⟨htype, hfor, hne⟩ := count_tied hp hno hc (hcn ▸ h)
  obtain ⟨parts, hparts, rfl⟩ := marshal_parts hp hs hi hm
  obtain ⟨part, -, hpart⟩ := forall₂_of_mem hparts h.2.1
  obtain ⟨e, hk⟩ := h.2.2.1
  obtain ⟨items, hitems, rfl, hlen⟩ := itemsOf_ok hk hpart
  rw [← hs.listLength hp hno hi (serialised_sub _ _ l h.2.1) hk] at hlen
  have hwritten : i.written b.name q = BitVec.ofNat 64 items.length := by
    rw [Instance.written, hfor, if_neg (by simpa using hne), hlen]
  refine ⟨q.type.encode (BitVec.ofNat 64 items.length), items,
    q.type.truncate (BitVec.ofNat 64 items.length), ?_, hitems, hpart, ?_, hlen, ?_⟩
  · rw [partOf, encodeAction_word h.2.2.2, hwritten]
  · rw [← TypeName.wordOf_encode htype]
    exact consumes_scalar htype (TypeName.length_encode htype _) s
  · exact TypeName.toNat_truncate_ofNat htype items.length

/-- Whatever operations made a store, an object in it that does not contain itself has an encoding,
with the encodings of all objects below it inside, each in parts by attribute. The counts in it are
true exactly where no list is too long for its count field; a longer list is encoded all the same. -/
theorem marshal_trueCounts_iff {source : Registry} {options : PlanOptions}
    (h : p.Compiled source options) (hno : p.registry.NoRedeclaration) (ops : List Operation)
    {x : Nat} {i : Instance} (hi : (p.run ops).get? x = some i) (hx : (p.run ops).Acyclic x) :
    ∃ bytes, p.marshal (p.run ops) i = .ok bytes ∧
      (∀ y, ReflTransGen ((p.run ops).WireRefers p.registry) x y →
        ∃ j own parts, (p.run ops).get? y = some j ∧ p.marshal (p.run ops) j = .ok own ∧
          own <:+: bytes ∧ own = parts.flatten ∧
          List.Forall₂ (fun a part => p.partOf (p.run ops) j a = .ok part)
            (p.registry.serialised j.className) parts) ∧
      (p.TrueCounts (p.run ops) x ↔ p.LengthsFit (p.run ops) x) := by
  have hp := h.toPlanned
  have hs := run_sound hp ops
  obtain ⟨bytes, hb⟩ := marshal_ok hp hs hi (hx.height hs (Store.get?_lt hi))
  refine ⟨bytes, hb, fun y hy => ?_, fun htrue y hy j hj b q l hc => ?_,
    fun hfit y hy j hj b q l hc => ?_⟩
  · obtain ⟨j, own, hj, hown, hin⟩ := marshal_reach hp hs hi hb hy
    obtain ⟨parts, hparts, hflat⟩ := marshal_parts hp hs hj hown
    exact ⟨j, own, parts, hj, hown, hin, hflat, hparts⟩
  · obtain ⟨j', own, hj', hown, -⟩ := marshal_reach hp hs hi hb hy
    cases Option.some.inj (hj.symm.trans hj')
    obtain ⟨count, items, w, hcount, hitems, -, hread, hlen, hmod⟩ :=
      count_read hp hs hno hj hown hc
    obtain ⟨count', items', w', hcount', hitems', -, hread', heq⟩ := htrue y hy j hj b q l hc
    cases Except.ok.inj (hcount.symm.trans hcount')
    cases Except.ok.inj (hitems.symm.trans hitems')
    obtain rfl : w = w' := by
      have hsame := (hread [] 0).symm.trans (hread' [] 0)
      injection hsame
    rw [← hlen, ← heq, hmod]
    exact Nat.mod_lt _ (Nat.two_pow_pos _)
  · obtain ⟨j', own, hj', hown, -⟩ := marshal_reach hp hs hi hb hy
    cases Option.some.inj (hj.symm.trans hj')
    obtain ⟨count, items, w, hcount, hitems, hpart, hread, hlen, hmod⟩ :=
      count_read hp hs hno hj hown hc
    refine ⟨count, items, w, hcount, hitems, hpart, hread, ?_⟩
    rw [hmod, hlen, Nat.mod_eq_of_lt (hfit y hy j hj b q l hc)]

end Program

/-! A list counted in one byte that holds one element too many. -/

namespace Overlong

def source : Registry := .gather [
  { name := "Batch", attributes := [
      { name := "count", kind := some (.primitive { type := "uint8" }) },
      { name := "items", kind := some (.dynamicList "count" { type := "uint8" }) }] }]

def options : PlanOptions := { primitiveLists := true }

def program : Program := (Program.compile? source options).get (by decide +kernel)

theorem program_compiled : program.Compiled source options :=
  Program.compiled_get (Registry.gather_built _) _

def ops : List Operation := .new "Batch" :: List.replicate 256 (.appendUint 0 "items" 7)

def count : Attribute :=
  { name := "count", kind := some (.primitive { type := "uint8", countFor := "items" }) }

def items : Attribute := { name := "items", kind := some (.dynamicList "count" { type := "uint8" }) }

theorem ops_evaluated : program.registry.NoRedeclaration ∧ (program.run ops).size = 1 ∧
    ((program.run ops).get? 0).any (fun i => i.className == "Batch" &&
      i.listLength "items" == 256 && (i.embedded ++ i.elements).isEmpty) = true ∧
    count ∈ program.registry.serialised "Batch" ∧ items ∈ program.registry.serialised "Batch" := by
  decide +kernel

theorem exists_batch : ∃ i, (program.run ops).get? 0 = some i ∧ i.className = "Batch" ∧
    i.listLength "items" = 256 ∧ i.embedded ++ i.elements = [] := by
  obtain ⟨i, hi, hb⟩ := (Option.any_eq_true _ _).mp ops_evaluated.2.2.1
  simp only [Bool.and_eq_true, beq_iff_eq, List.isEmpty_iff] at hb
  exact ⟨i, hi, hb.1.1, hb.1.2, hb.2⟩

theorem ops_acyclic : (program.run ops).Acyclic 0 := by
  have hsize := ops_evaluated.2.1
  obtain ⟨i, hi, -, -, hnil⟩ := exists_batch
  refine Store.acyclic_of_rank id (fun x hx j hj y hy => ?_) 0
  obtain rfl : x = 0 := by omega
  cases Option.some.inj (hi.symm.trans hj)
  simp [hnil] at hy

theorem counts_items :
    program.registry.Counts "Batch" count { type := "uint8", countFor := "items" } items :=
  ⟨ops_evaluated.2.2.2.1, ops_evaluated.2.2.2.2, ⟨_, rfl⟩, rfl⟩

theorem not_lengthsFit : ¬ program.LengthsFit (program.run ops) 0 := by
  intro h
  obtain ⟨i, hi, hname, hlen, -⟩ := exists_batch
  have hfit := h 0 .refl i hi _ _ _ (hname ▸ counts_items)
  rw [show i.listLength items.name = 256 from hlen] at hfit
  exact absurd hfit (by decide)

end Overlong

/-- A list of 256 elements is encoded under a count of one byte, which is then not true. -/
theorem overlong_not_trueCounts :
    (∃ i bytes, (Overlong.program.run Overlong.ops).get? 0 = some i ∧
      Overlong.program.marshal (Overlong.program.run Overlong.ops) i = .ok bytes) ∧
      ¬ Overlong.program.TrueCounts (Overlong.program.run Overlong.ops) 0 := by
  obtain ⟨i, hi, -⟩ := Overlong.exists_batch
  obtain ⟨bytes, hb, -, hiff⟩ := Program.marshal_trueCounts_iff Overlong.program_compiled
    Overlong.ops_evaluated.1 Overlong.ops hi Overlong.ops_acyclic
  exact ⟨⟨i, bytes, hi, hb⟩, fun h => Overlong.not_lengthsFit (hiff.mp h)⟩

end PduCompiler
