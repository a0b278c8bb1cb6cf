import PduCompiler.Proofs.Acceptance
import PduCompiler.Proofs.Nesting
import PduCompiler.Proofs.StoredWords
import PduCompiler.Proofs.WireCounts

/-! Signed values on the wire. A value that was set in a field is written in two's complement of the
width of the field. Decoding reads it back, also if it fails later on, as long as the lists in front
of the field can be read back. -/

namespace PduCompiler

open Decode

namespace Decode

variable {α β : Type} {c : Decode α} {f : α → Decode β}

theorem after_bind (P : Decoding → Prop) {d : Decoding} (hc : P (after c d))
    (hf : ∀ r d', P d' → P (after (f r) d')) : P (after (c >>= f) d) := by
  unfold after at *
  rw [bind_apply]
  cases h : c d with
  | error e d' => simpa only [h] using hc
  | ok r d' =>
    simp only [h] at hc ⊢
    exact hf r d' hc

theorem Consumes.after_bind {u v : Store} {b : List UInt8} {r : α} (h : Consumes c u b r v)
    (rest : List UInt8) (offset : Nat) :
    after (c >>= f) ⟨u, b ++ rest, offset⟩ = after (f r) ⟨v, rest, offset + b.length⟩ := by
  unfold after
  rw [bind_apply, h]

end Decode

namespace TypeName

variable {t : TypeName} (h : t.isCanonical = true)

include h

theorem toNat_truncate (w : Word) : (t.truncate w).toNat = w.toNat % 2 ^ t.bits := by
  have hw := toNat_truncate_ofNat h w.toNat
  rwa [BitVec.ofNat_toNat, BitVec.setWidth_eq] at hw

theorem toNat_truncate_ofInt (v : Int) :
    ((t.truncate (BitVec.ofInt 64 v)).toNat : Int) = v % 2 ^ t.bits := by
  have hdvd : (2 : Int) ^ t.bits ∣ 2 ^ 64 := by
    refine pow_dvd_pow 2 ?_
    have hw := (width_pos h).2
    rw [bits]
    omega
  rw [toNat_truncate h, Int.natCast_emod, BitVec.toNat_ofInt, Int.toNat_of_nonneg, Int.natCast_pow]
  · exact Int.emod_emod_of_dvd v hdvd
  · exact Int.emod_nonneg v (by decide)

end TypeName

/-- A field shows the low bits of a signed number. -/
structure Instance.ShowsSigned (k : Instance) (field : String) (bits : Nat) (v : Int) : Prop where
  uint : ((k.uint field).toNat : Int) = v % 2 ^ bits
  int : k.int field = (BitVec.ofInt bits v).toInt
  exact_iff : k.int field = v ↔ -2 ^ (bits - 1) ≤ v ∧ v < 2 ^ (bits - 1)

theorem bmod_eq_self_iff {n : Nat} (hn : 0 < n) {v : Int} :
    v.bmod (2 ^ n) = v ↔ -2 ^ (n - 1) ≤ v ∧ v < 2 ^ (n - 1) := by
  obtain ⟨m, rfl⟩ : ∃ m, n = m + 1 := ⟨n - 1, by omega⟩
  have hpow : (2 : Int) ^ m = ((2 ^ m : Nat) : Int) := by simp
  have htwo : (2 : Nat) ^ (m + 1) = 2 * 2 ^ m := by rw [Nat.pow_succ, Nat.mul_comm]
  have hpos : 0 < (2 : Nat) ^ m := Nat.two_pow_pos m
  rw [Nat.add_sub_cancel, hpow, htwo]
  generalize (2 : Nat) ^ m = half at hpos
  constructor
  · intro h
    have hle := Int.le_bmod (x := v) (m := 2 * half) (by omega)
    have hlt := Int.bmod_lt (x := v) (m := 2 * half) (by omega)
    omega
  · rintro ⟨hle, hlt⟩
    exact Int.bmod_eq_of_le (by omega) (by omega)

theorem Instance.showsSigned {k : Instance} {field : String} {t : TypeName}
    (h : t.isCanonical = true) (ht : k.types.get? field = some t) {v : Int}
    (hw : ((k.uint field).toNat : Int) = v % 2 ^ t.bits) : k.ShowsSigned field t.bits v := by
  obtain ⟨sc, hsc⟩ := Option.isSome_iff_exists.mp h
  have hbits : sc.bits = t.bits := by rw [Scalar.bits, TypeName.bits, TypeName.width, hsc]; rfl
  have hint : k.int field = v.bmod (2 ^ t.bits) := by
    rw [Instance.int, Instance.typeOf, ht, Option.getD_some, hsc, Option.elim_some, hbits,
      Word.toSigned, hw, Nat.pow_eq]
    exact_mod_cast Int.emod_bmod (x := v) (n := 2 ^ t.bits)
  refine ⟨hw, by rw [hint, BitVec.toInt_ofInt], ?_⟩
  rw [hint]
  refine bmod_eq_self_iff ?_
  have hpos := (TypeName.width_pos h).1
  rw [TypeName.bits]
  omega

namespace Program

variable {p : Program} {s : Store} {c : ClassDescription} {a : Attribute} {depth more x z : Nat}
  {i : Instance}

theorem after_decodeStep {below : Nat → String → Decode Unit} {d : Decoding} {j : Instance}
    (hj : d.store.get? z = some j) (name : String) (act : Action) :
    after (p.decodeStep below z name act) d = after (p.decodeAction below z j act) d := by
  simp only [after, decodeStep, hj]
  cases p.decodeAction below z j act d <;> rfl

theorem legible_primitive {q : Primitive} (hq : a.kind = some (.primitive q)) : p.Legible s i a :=
  ⟨fun field e hk => by simp [hq] at hk, fun y hy => by simp [Instance.refsAt, hq] at hy⟩

theorem Planned.serialised_nodup (hp : p.Planned) (hno : p.registry.NoRedeclaration)
    (hc : c ∈ p.registry.classes) : ((p.registry.serialised c.name).map (·.name)).Nodup :=
  (hno.names_nodup hp.rooted hp.consistent c hc).sublist (List.filter_sublist.map _)

/-- Decoding the encoding of an object, whatever follows and however it ends, reads a primitive
attribute if the lists before it can be read back. -/
theorem decodeInto_receives (hp : p.Planned) (hno : p.registry.NoRedeclaration) (hs : p.Sound s)
    (hi : s.get? x = some i) {q : Primitive} (hq : a.kind = some (.primitive q))
    (hd : depth ≤ more) (hc : c ∈ p.registry.classes)
    (hsub : p.registry.serialised c.name ⊆ p.registry.serialised i.className)
    {pre post : List Attribute} (hl : p.registry.serialised c.name = pre ++ a :: post)
    (hread : ∀ b ∈ pre, p.Legible s i b) {u : Store} (hu : p.Receives u z i [])
    {bytes : List UInt8} (h : p.encode s depth i c.name = .ok bytes) (rest : List UInt8)
    (offset : Nat) :
    p.Receives (after (p.decodeInto more z c.name) ⟨u, bytes ++ rest, offset⟩).store z i [a] := by
  induction depth generalizing more c post bytes rest with
  | zero => simp [Program.encode] at h
  | succ depth ih =>
    obtain ⟨more, rfl⟩ : ∃ m, more = m + 1 := ⟨more - 1, by omega⟩
    have hle := Nat.le_of_succ_le_succ hd
    have hm := decodeInto_moves hp more
    have hown := List.Subset.trans (hp.serialised_own hc) hsub
    have hall : c.serialised ⊆ p.registry.allAttributes i.className :=
      fun b hb => serialised_sub _ _ b (hown hb)
    obtain ⟨front, parts, hfront, hparts, rfl⟩ := (encode_succ_eq_ok hp hc).mp h
    have hne : ∀ b ∈ post, b.name ≠ a.name := by
      intro b hb heq
      have hnd := hp.serialised_nodup hno hc
      rw [hl, List.map_append, List.map_cons] at hnd
      exact (List.nodup_cons.mp hnd.of_append_right).1 (heq ▸ List.mem_map_of_mem hb)
    rw [decodeInto_class hp hc, List.append_assoc]
    rcases split_append ((hp.serialised_eq hc).symm.trans hl) with
      ⟨mid, hin, rfl⟩ | ⟨mid, rfl, hmid⟩
    · -- the attribute is inherited, and decoding the others of the class leaves it alone
      refine after_bind (fun d => p.Receives d.store z i [a]) ?_ fun _ d hd => hd.attributes hp hc hm
        (List.Subset.refl _) hall fun b hb => by simpa using hne b (List.mem_append_right _ hb)
      by_cases hpar : c.hasParent = true
      · rw [if_pos hpar] at hfront ⊢
        rw [Plan.inherited, if_pos hpar] at hin
        obtain ⟨b, hb, hbn, hsubb, -⟩ := hp.parent hc hpar
        obtain ⟨j, hj, -⟩ := hu.object
        rw [after_decodeStep hj]
        rw [← hbn] at hin hfront
        have hparent := ih hle hb (List.Subset.trans hsubb hsub) hin hfront (parts.flatten ++ rest)
        rwa [hbn] at hparent
      · rw [Plan.inherited, if_neg hpar] at hin
        simp at hin
    · -- the attribute is one of the class itself
      have hbelow := takesIn hp hno hs hle
      obtain ⟨v, hv, hrv⟩ := hbelow.parent hp hc hi
        (fun b hb => hread b (List.mem_append_left _ hb)) hsub hu hfront
      rw [hv.after_bind]
      have hsplit : c.serialised = [] ++ (mid ++ [a]) ++ post := by simp [hmid]
      rw [hmid, ← List.singleton_append, ← List.append_assoc] at hparts
      obtain ⟨parts, parts', rfl, hparts, -⟩ := forall₂_append_left hparts
      have hlegible : ∀ b ∈ mid ++ [a], p.Legible s i b := by
        intro b hb
        rcases List.mem_append.mp hb with hb | hb
        · exact hread b (List.mem_append_right _ hb)
        · exact List.mem_singleton.mp hb ▸ legible_primitive hq
      obtain ⟨w, hw, hrw⟩ := Accepts.attributes hp hno hs hi hc hown hm hsplit
        (fun b hb => (hlegible b hb).own) (fun b hb => hbelow.accepts hp hs (hlegible b hb)) hparts
        hrv
      have hpost : post ⊆ c.serialised := by
        rw [hsplit]
        exact List.subset_append_right _ _
      rw [hsplit, List.nil_append, List.forM_eq_forM, List.forM_append, ← List.forM_eq_forM,
        List.flatten_append, List.append_assoc, hw.after_bind]
      exact Receives.attributes hp hc hm hpost (List.Subset.trans hpost hall)
        (fun b hb => by simpa using hne b hb) (hrw.mono (by simp))

/-- How a field of an object with the low bits of a signed number goes over the wire. It comes after
the attributes `pre` and before `post`. -/
structure CarriesSigned (p : Program) (s : Store) (i : Instance) (pre : List Attribute)
    (a : Attribute) (post : List Attribute) (type : TypeName) (v : Int) : Prop where
  stored : i.ShowsSigned a.name type.bits v
  encoded : ∃ front back, List.Forall₂ (fun b part => p.partOf s i b = .ok part) pre front ∧
    List.Forall₂ (fun b part => p.partOf s i b = .ok part) post back ∧
    p.marshal s i = .ok (front.flatten ++
      bigEndian type.width (BitVec.ofInt type.bits v).toNat ++ back.flatten)
  decoded : (∀ b ∈ pre, p.Legible s i b) → ∀ bytes, p.marshal s i = .ok bytes →
    ∀ ops y j, (p.run ops).get? y = some j → j.className = i.className → ∀ suffix, ∃ k,
      (p.unmarshal (p.run ops) y (bytes ++ suffix)).1.get? y = some k ∧
      k.ShowsSigned a.name type.bits v
  consumed : (∀ b ∈ p.registry.serialised i.className, p.Legible s i b) →
    ∀ bytes, p.marshal s i = .ok bytes → ∀ ops y j, (p.run ops).get? y = some j →
      j.className = i.className → ∀ suffix,
      (p.unmarshal (p.run ops) y (bytes ++ suffix)).2 = (bytes.length, none)

theorem unmarshal_store (hp : p.Planned) (hg : p.registry.Grounded) (hs : p.Sound s)
    (hi : s.get? x = some i) {bytes : List UInt8} (hdepth : p.decodeDepth s bytes ≤ depth) :
    (p.unmarshal s x bytes).1 = (after (p.decodeInto depth x i.className) ⟨s, bytes, 0⟩).store := by
  rw [unmarshal_eq_of_le hp hg hs hi bytes hdepth]
  unfold after
  cases p.decodeInto depth x i.className ⟨s, bytes, 0⟩ <;> rfl

section

variable {source : Registry} {options : PlanOptions} (h : p.Compiled source options)
  {ops : List Operation} (hi : (p.run ops).get? x = some i)
  {pre post : List Attribute} (hl : p.registry.serialised i.className = pre ++ a :: post)
  {q : Primitive} (hq : a.kind = some (.primitive q)) {v : Int}
  (hv : i.ShowsSigned a.name q.type.bits v)

include h hi

theorem unmarshal_consumes (hno : p.registry.NoRedeclaration)
    (hread : ∀ b ∈ p.registry.serialised i.className, p.Legible (p.run ops) i b) {bytes : List UInt8}
    (hbytes : p.marshal (p.run ops) i = .ok bytes) {ops' : List Operation} {y : Nat} {j : Instance}
    (hj : (p.run ops').get? y = some j) (hcls : j.className = i.className) (suffix : List UInt8) :
    (p.unmarshal (p.run ops') y (bytes ++ suffix)).2 = (bytes.length, none) := by
  have hp := h.toPlanned
  have hs := run_sound hp ops
  have hs' := run_sound hp ops'
  obtain ⟨c, hc, hcn⟩ := (hs.object x i hi).ready.class hp
  rw [marshal, ← hcn] at hbytes
  rw [← hcn] at hread
  obtain ⟨w, hw⟩ := takesIn hp hno hs (Nat.le_max_right (p.decodeDepth (p.run ops') (bytes ++ suffix))
    _) c hc x i hi hread (hcn ▸ List.Subset.refl _) (p.run ops') y
    ⟨hs', j, hj, hcls, by simp [Instance.Received]⟩ bytes hbytes
  have hrun := hw suffix 0
  rw [hcn, ← hcls] at hrun
  rw [unmarshal_eq_of_le hp (h.built.grounded h.isSealed) hs' hj _ (Nat.le_max_left _ _), hrun,
    Nat.zero_add]

include hl hq hv

theorem marshal_signed (hacyclic : (p.run ops).Acyclic x) (hcount : q.countFor = "") :
    ∃ front back,
      List.Forall₂ (fun b part => p.partOf (p.run ops) i b = .ok part) pre front ∧
      List.Forall₂ (fun b part => p.partOf (p.run ops) i b = .ok part) post back ∧
      p.marshal (p.run ops) i = .ok (front.flatten ++
        bigEndian q.type.width (BitVec.ofInt q.type.bits v).toNat ++ back.flatten) := by
  have hp := h.toPlanned
  have hs := run_sound hp ops
  obtain ⟨c, hc, hcn⟩ := (hs.object x i hi).ready.class hp
  have hall := serialised_sub p.registry i.className a (by simp [hl])
  obtain ⟨sc, hsc⟩ := Option.isSome_iff_exists.mp (hp.canonical hc (hcn ▸ hall) hq)
  have hwidth : q.type.scalar?.elim 8 Scalar.width = q.type.width := by
    rw [TypeName.width, hsc, Option.elim_some, Option.elim_some]
  have hcode : (i.uint a.name).toNat = (BitVec.ofInt q.type.bits v).toNat := by
    rw [BitVec.toNat_ofInt, Int.natCast_pow, Int.cast_ofNat_Int, ← hv.uint, Int.toNat_natCast]
  obtain ⟨bytes, hbytes⟩ := marshal_ok hp hs hi (hacyclic.height hs (Store.get?_lt hi))
  obtain ⟨parts, hparts, rfl⟩ := marshal_parts hp hs hi hbytes
  rw [hl] at hparts
  obtain ⟨front, back, rfl, hfront, hback⟩ := forall₂_append_left hparts
  cases hback with
  | @cons _ part _ back hpart hback =>
    refine ⟨front, back, hfront, hback, ?_⟩
    rw [partOf, encodeAction_word hq, Except.ok.injEq, Instance.written, if_pos (by simp [hcount]),
      TypeName.encode, hwidth, hcode] at hpart
    rw [hbytes, hpart]
    simp

theorem unmarshal_signed (hno : p.registry.NoRedeclaration) (hcount : q.countFor = "")
    (hread : ∀ b ∈ pre, p.Legible (p.run ops) i b) {bytes : List UInt8}
    (hbytes : p.marshal (p.run ops) i = .ok bytes) {ops' : List Operation} {y : Nat} {j : Instance}
    (hj : (p.run ops').get? y = some j) (hcls : j.className = i.className) (suffix : List UInt8) :
    ∃ k, (p.unmarshal (p.run ops') y (bytes ++ suffix)).1.get? y = some k ∧
      k.ShowsSigned a.name q.type.bits v := by
  have hp := h.toPlanned
  have hs := run_sound hp ops
  have hs' := run_sound hp ops'
  obtain ⟨c, hc, hcn⟩ := (hs.object x i hi).ready.class hp
  have hall := serialised_sub p.registry i.className a (by simp [hl])
  have hcanon := hp.canonical hc (hcn ▸ hall) hq
  rw [marshal, ← hcn] at hbytes
  rw [← hcn] at hl
  obtain ⟨-, k, hk, hkc, hrec⟩ := decodeInto_receives hp hno hs hi hq
    (Nat.le_max_right (p.decodeDepth (p.run ops') (bytes ++ suffix)) _) hc
    (hcn ▸ List.Subset.refl _) hl hread ⟨hs', j, hj, hcls, by simp [Instance.Received]⟩ hbytes
    suffix 0
  rw [hcn, ← hcls, ← unmarshal_store hp (h.built.grounded h.isSealed) hs' hj
    (Nat.le_max_left _ _)] at hk
  refine ⟨k, hk, Instance.showsSigned hcanon ?_ ?_⟩
  · -- decoding is one more operation, and operations keep the types of fields
    have hrun : (p.run (ops' ++ [.unmarshal y (bytes ++ suffix)])).get? y = some k := by
      rw [run_concat]
      exact hk
    exact run_declared h hno _ hrun (hkc ▸ hall) hq
  · rw [hrec a (List.mem_singleton_self a) q hq, Instance.written, if_pos (by simp [hcount]),
      TypeName.toNat_truncate hcanon, Int.natCast_emod, hv.uint, Int.natCast_pow]
    exact Int.emod_emod_of_dvd v (dvd_refl _)

end

theorem acyclic_setPrim {y : Nat} (hi : s.get? x = some i) (field : String) (w : Word)
    (h : s.Acyclic y) : (s.set x (i.setPrim field w)).Acyclic y := by
  have hrefers : (s.set x (i.setPrim field w)).Refers = s.Refers := by
    funext y z
    refine propext ?_
    by_cases hy : y = x
    · simp [Store.Refers, Store.get?_set, hy, hi, Instance.embedded, Instance.elements,
        Instance.setPrim]
    · simp [Store.Refers, Store.get?_set, hy]
  unfold Store.Acyclic
  rw [hrefers]
  exact h

/-- A signed number can be set in every field that takes part in the encoding and counts no list.
It goes over the wire in two's complement of the width of the field. -/
theorem setInt_carriesSigned {source : Registry} {options : PlanOptions}
    (h : p.Compiled source options) (hno : p.registry.NoRedeclaration) (ops : List Operation)
    (hi : (p.run ops).get? x = some i) (hacyclic : (p.run ops).Acyclic x)
    {pre post : List Attribute} (hl : p.registry.serialised i.className = pre ++ a :: post)
    {q : Primitive} (hq : a.kind = some (.primitive q)) (hcount : q.countFor = "") (v : Int) :
    ∃ j, i.setInt a.name v = .ok j ∧
      p.CarriesSigned ((p.run ops).set x j) j pre a post q.type v := by
  have hp := h.toPlanned
  have hall := serialised_sub p.registry i.className a (by simp [hl])
  obtain ⟨c, hc, hcn⟩ := ((run_sound hp ops).object x i hi).ready.class hp
  have hcanon := hp.canonical hc (hcn ▸ hall) hq
  have htype := run_declared h hno ops hi hall hq
  have hset : i.setInt a.name v =
      .ok (i.setPrim a.name (q.type.truncate (BitVec.ofInt 64 v))) := by
    rw [Instance.setInt, Instance.setUint, htype]
  have hacyclic' := acyclic_setPrim hi a.name (q.type.truncate (BitVec.ofInt 64 v)) hacyclic
  have hrun : p.run (ops ++ [.setUint x a.name (BitVec.ofInt 64 v)]) =
      (p.run ops).set x (i.setPrim a.name (q.type.truncate (BitVec.ofInt 64 v))) := by
    rw [run_concat, perform, Store.update, hi, Option.bind_some, ← Instance.setInt, hset]
    rfl
  refine ⟨_, hset, ?_⟩
  generalize hj : i.setPrim a.name (q.type.truncate (BitVec.ofInt 64 v)) = j at hrun hacyclic' ⊢
  have hget : ((p.run ops).set x j).get? x = some j := by simp [Store.get?_set, hi]
  have hcls : j.className = i.className := by rw [← hj, Instance.setPrim]
  have hstored : j.ShowsSigned a.name q.type.bits v := by
    refine Instance.showsSigned hcanon (by rw [← hj]; exact htype) ?_
    rw [← TypeName.toNat_truncate_ofInt hcanon, ← hj]
    simp [Instance.uint, Instance.setPrim, Table.get?_set]
  rw [← hrun] at hget hacyclic' ⊢
  rw [← hcls] at hl
  exact ⟨hstored, marshal_signed h hget hl hq hstored hacyclic' hcount,
    fun hread _ hbytes _ _ _ hj hc suffix =>
      unmarshal_signed h hget hl hq hstored hno hcount hread hbytes hj hc suffix,
    fun hread _ hbytes _ _ _ hj hc suffix =>
      unmarshal_consumes h hget hno hread hbytes hj hc suffix⟩

theorem legible_of_flat (hread : p.Readable s i a) (h : ∀ y ∈ i.refsAt a, ∀ obj, s.get? y = some obj →
    ∀ b ∈ p.registry.serialised obj.className, ∃ q, b.kind = some (.primitive q)) :
    p.Legible s i a := by
  refine ⟨hread, fun y hy z obj hz hobj b hb => ?_⟩
  rcases hz.cases_head with rfl | ⟨w, ⟨o, ho, b', hb', hw⟩, -⟩
  · obtain ⟨q, hq⟩ := h y hy obj hobj b hb
    exact (legible_primitive hq).own
  · obtain ⟨q, hq⟩ := h y hy o ho b' hb'
    simp [Instance.refsAt, hq] at hw

end Program

/-! A level stands between two lists of small marks, which can also be given large ones. -/

namespace Levelled

def small : Attribute := { name := "mark", kind := some (.primitive { type := "uint8" }) }

def version : Attribute := { name := "version", kind := some (.primitive { type := "int8" }) }

def level : Attribute := { name := "level", kind := some (.primitive { type := "int16" }) }

def count (name countFor : String) : Attribute :=
  { name, kind := some (.primitive { type := "uint8", countFor }) }

def marks (name count : String) : Attribute :=
  { name, kind := some (.dynamicList count { className := "Small" }) }

def source : Registry := .gather [
  { name := "Small", attributes := [small] },
  { name := "Large", attributes := [
      { name := "mark", kind := some (.primitive { type := "uint16" }) }] },
  { name := "Header", attributes := [version] },
  { name := "Chart", parent := "Header", attributes := [
      count "aboveCount" "", marks "above" "aboveCount", level,
      count "belowCount" "", marks "below" "belowCount"] }]

def program : Program := (Program.compile? source {}).getD ⟨{}, []⟩

def before : List Attribute := [version, count "aboveCount" "above", marks "above" "aboveCount"]

def behind : List Attribute := [count "belowCount" "below", marks "below" "belowCount"]

def ops : List Operation := [
  .new "Chart", .new "Small", .new "Large", .append 0 "above" 1, .append 0 "below" 2]

def mixed : List Operation := [.new "Chart", .new "Large", .append 0 "above" 1]

def reread (s : Store) (v : Int) :
    Option (List UInt8 × (Nat × Option MachineError) × Int) := do
  let j ← (← s.get? 0).setInt "level" v |>.toOption
  let bytes ← (program.marshal (s.set 0 j) j).toOption
  let read := program.unmarshal (program.run [.new "Chart"]) 0 bytes
  return (bytes, read.2, (← read.1.get? 0).int "level")

theorem program_evaluated : (Program.compile? source {}).isSome = true ∧
    program.registry.NoRedeclaration ∧ program.registry.serialised "Small" = [small] ∧
    program.registry.serialised "Chart" = before ++ level :: behind ∧
    (program.run ops).isRanked (3 - ·) = true ∧
    ((program.run ops).get? 0).any (fun i => i.className == "Chart" && i.list "above" == [1] &&
      i.listLength "above" == 1) = true ∧
    (program.run ops).class? 1 = some "Small" ∧
    (program.run [.new "Chart"]).class? 0 = some "Chart" ∧
    (program.run mixed).isRanked (3 - ·) = true ∧
    reread (program.run mixed) (-256) = some ([0, 1, 0, 0, 255, 0, 0], (6, none), 255) := by
  decide +kernel

theorem program_compiled : program.Compiled source {} :=
  Program.compiled_getD (Registry.gather_built _) program_evaluated.1 _

theorem above_legible {s : Store} {i : Instance} (hi : i.className = "Chart")
    (hlist : i.list "above" = [1]) (hlen : i.listLength "above" = 1)
    (hs : s.class? 1 = some "Small") : ∀ b ∈ before, program.Legible s i b := by
  obtain ⟨-, -, hsmall, hchart, -⟩ := program_evaluated
  simp only [before, List.forall_mem_cons, List.not_mem_nil, false_implies, implies_true, and_true]
  refine ⟨Program.legible_primitive rfl, Program.legible_primitive rfl,
    Program.legible_of_flat ?_ fun y hy obj hobj b hb => ?_⟩
  · intro field e hk
    cases hk
    refine ⟨?_, fun b hb q hq hfor => ?_, fun _ y hy => ?_⟩
    · rw [marks, hlen]
      decide
    · rw [marks, hlen]
      rw [hi, hchart] at hb
      simp only [before, behind, List.mem_append, List.mem_cons, List.not_mem_nil, or_false] at hb
      rcases hb with (rfl | rfl | rfl) | rfl | rfl | rfl <;> cases hq
      all_goals decide
    · rw [marks, hlist, List.mem_singleton] at hy
      exact hy ▸ hs
  · obtain rfl : y = 1 := by simpa [Instance.refsAt, marks, Element.isObject, hlist] using hy
    have hcls : obj.className = "Small" := by simpa [Store.class?, hobj] using hs
    rw [hcls, hsmall, List.mem_singleton] at hb
    rw [hb]
    exact ⟨_, rfl⟩

end Levelled

/-- A level out of range comes back as its low bits, although the large mark below is read as a small
one. -/
theorem levelled_carriesSigned : ∃ i j bytes k,
    (Levelled.program.run Levelled.ops).get? 0 = some i ∧ i.setInt "level" (-70000) = .ok j ∧
    Levelled.program.marshal ((Levelled.program.run Levelled.ops).set 0 j) j = .ok bytes ∧
    (Levelled.program.unmarshal (Levelled.program.run [.new "Chart"]) 0 bytes).1.get? 0 = some k ∧
    k.int "level" = -4464 := by
  obtain ⟨-, hno, -, hchart, hrank, hi, hsmall, hnew, -⟩ := Levelled.program_evaluated
  obtain ⟨i, hi, hall⟩ := (Option.any_eq_true _ _).mp hi
  obtain ⟨y, hy, hyc⟩ := Option.map_eq_some_iff.mp hnew
  simp only [Bool.and_eq_true, beq_iff_eq] at hall
  obtain ⟨⟨hcls, hlist⟩, hlen⟩ := hall
  obtain ⟨j, hj, hcarry⟩ := Program.setInt_carriesSigned Levelled.program_compiled hno Levelled.ops
    hi (Store.acyclic_of_isRanked hrank 0) (hcls ▸ hchart) rfl rfl (-70000)
  obtain ⟨t, -, hset⟩ := Program.setUint_eq_some (congrArg Except.toOption hj)
  obtain ⟨front, back, -, -, hbytes⟩ := hcarry.encoded
  have hlegible := Levelled.above_legible (s := (Levelled.program.run Levelled.ops).set 0 j) (i := j)
    (by rw [hset]; exact hcls) (by rw [hset]; exact hlist) (by rw [hset]; exact hlen)
    (by simpa [Store.class?, Store.get?_set] using hsmall)
  obtain ⟨k, hk, hshows⟩ := hcarry.decoded hlegible _ hbytes [.new "Chart"] 0 y hy
    (hyc.trans (by rw [hset]; exact hcls.symm)) []
  rw [List.append_nil] at hk
  exact ⟨i, j, _, k, hi, hj, hbytes, hk, hshows.int.trans (by decide)⟩

/-- With a large mark above, a level in range comes back as another one. -/
theorem levelled_misread : Levelled.program.Compiled Levelled.source {} ∧
    Levelled.program.registry.NoRedeclaration ∧
    (Levelled.program.run Levelled.mixed).Acyclic 0 ∧
    Levelled.reread (Levelled.program.run Levelled.mixed) (-256) =
      some ([0, 1, 0, 0, 255, 0, 0], (6, none), 255) := by
  obtain ⟨-, hno, -, -, -, -, -, -, hrank, hread⟩ := Levelled.program_evaluated
  exact ⟨Levelled.program_compiled, hno, Store.acyclic_of_isRanked hrank 0, hread⟩

end PduCompiler
