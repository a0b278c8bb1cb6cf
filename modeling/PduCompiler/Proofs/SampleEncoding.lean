import PduCompiler.Proofs.SampleDecoding
import PduCompiler.Proofs.SizeAgreement

/-! Objects that show values of the sample classes are encoded and measured as those values are, and
new objects show the values that the classes begin with. -/

namespace PduCompiler.Sample

open Program

theorem bigEndian_ofNat (n : Nat) : bigEndian 2 (BitVec.ofNat 64 n).toNat = bigEndian 2 n := by
  have hlow : UInt8.ofNat (n % 2 ^ 64) = UInt8.ofNat n := by
    apply UInt8.toNat_inj.mp
    simp only [UInt8.toNat_ofNat']
    omega
  have hhigh : UInt8.ofNat (n % 2 ^ 64 / 256) = UInt8.ofNat (n / 256) := by
    apply UInt8.toNat_inj.mp
    simp only [UInt8.toNat_ofNat']
    omega
  rw [BitVec.toNat_ofNat]
  simp only [bigEndian, List.nil_append, hlow, hhigh]

theorem toNat_word {n : Nat} (h : n < 2 ^ 32) : (BitVec.ofNat 64 n).toNat = n := by
  rw [BitVec.toNat_ofNat]
  omega

theorem encode_rootless {p : Program} (hp : p.Planned) {s : Store} {c : ClassDescription}
    (hc : c ∈ p.registry.classes) (hpar : c.hasParent = false) {depth : Nat} {i : Instance}
    {parts : List (List UInt8)} (h : List.Forall₂ (fun a part =>
      encodeAction s (p.encode s depth) c.name i (Plan.wire a).marshal = .ok part)
      c.serialised parts) {bytes : List UInt8} (hbytes : bytes = parts.flatten) :
    p.encode s (depth + 1) i c.name = .ok bytes := by
  refine (encode_succ_eq_ok hp hc).mpr ⟨[], parts, ?_, h, hbytes⟩
  rw [hpar]
  rfl

section

variable {s : Store} {x : Nat} {i : Instance}

theorem Record.Shown.class_of {r : Record} (h : r.Shown s x) :
    ∃ i, s.get? x = some i ∧ i.className = "Record" := by
  obtain ⟨i, hi, hcls, -⟩ := h
  exact ⟨i, hi, hcls⟩

theorem Message.Shown.class_of {m : Message} (h : m.Shown s x) :
    ∃ i, s.get? x = some i ∧ i.className = "Message" := by
  obtain ⟨i, hi, hcls, -⟩ := h
  exact ⟨i, hi, hcls⟩

theorem Point.Shown.class_of {p : Point} (h : p.Shown s x) :
    ∃ i, s.get? x = some i ∧ i.className = "Point" := by
  obtain ⟨i, hi, hcls, -⟩ := h
  exact ⟨i, hi, hcls⟩

theorem Route.Shown.class_of {r : Route} (h : r.Shown s x) :
    ∃ i, s.get? x = some i ∧ i.className = "Route" := by
  obtain ⟨i, hi, hcls, -⟩ := h
  exact ⟨i, hi, hcls⟩

theorem Record.Shown.encode {r : Record} (h : r.Shown s x) (hi : s.get? x = some i) (depth : Nat) :
    program.encode s (depth + 1) i "Record" = .ok r.encode := by
  obtain ⟨i', hi', -, hkey, hflags⟩ := h
  cases Option.some.inj (hi.symm.trans hi')
  have hk : (BitVec.ofNat 64 r.key.toNat).toNat = r.key.toNat :=
    toNat_word r.key.toNat_lt
  have hf : (BitVec.ofNat 64 r.flags.toNat).toNat = r.flags.toNat :=
    toNat_word (Nat.lt_trans r.flags.toNat_lt (by decide))
  have hparts : List.Forall₂ (fun a part => encodeAction s (program.encode s depth) "Record" i
      (Plan.wire a).marshal = .ok part) [keyField, flagsField "flags"]
      [bigEndian 4 r.key.toNat, [r.flags]] := by
    refine .cons ?_ (.cons ?_ .nil)
    · rw [encodeAction_word rfl]
      change Except.ok (bigEndian 4 (i.uint "key").toNat) = _
      rw [hkey, hk]
    · rw [encodeAction_word rfl]
      change Except.ok [UInt8.ofNat (i.uint "flags").toNat] = _
      rw [hflags, hf, UInt8.ofNat_toNat]
  exact encode_rootless program_planned record_mem (record_rootless _) hparts
    (by simp [Record.encode])

theorem Point.Shown.encode {p : Point} (h : p.Shown s x) (hi : s.get? x = some i) (depth : Nat) :
    program.encode s (depth + 1) i "Point" = .ok p.encode := by
  obtain ⟨i', hi', -, hx, hy⟩ := h
  cases Option.some.inj (hi.symm.trans hi')
  have hparts : List.Forall₂ (fun a part => encodeAction s (program.encode s depth) "Point" i
      (Plan.wire a).marshal = .ok part) [xField, yField]
      [bigEndian 2 p.x.toUInt16.toNat, bigEndian 2 p.y.toUInt16.toNat] := by
    refine .cons ?_ (.cons ?_ .nil)
    · rw [encodeAction_word rfl]
      change Except.ok (bigEndian 2 (i.uint "x").toNat) = _
      rw [hx, bigEndian_ofNat]
    · rw [encodeAction_word rfl]
      change Except.ok (bigEndian 2 (i.uint "y").toNat) = _
      rw [hy, bigEndian_ofNat]
  exact encode_rootless program_planned point_mem point_rootless hparts
    (by simp [Point.encode])

theorem Record.Shown.encodeRefs {refs : List Nat} {rs : List Record}
    (h : List.Forall₂ (Record.Shown s) refs rs) (depth : Nat) :
    List.Forall₂ (fun y part => encodeRef s (program.encode s (depth + 1)) (some y) = .ok part)
      refs (rs.map Record.encode) := by
  induction h with
  | nil => exact .nil
  | @cons y r refs rs hr _ ih =>
    obtain ⟨o, ho, hcls⟩ := hr.class_of
    refine .cons (encodeRef_eq_ok.mpr ⟨o, ho, ?_⟩) ih
    rw [hcls]
    exact hr.encode ho depth

/-- The number that is written is the length of the list, not the number that was read last. -/
theorem Message.Fields.encode {m : Message} (h : m.Fields s i) (hs : program.Sound s)
    (hi : s.get? x = some i) (hl : recordsField ∈ program.registry.serialised i.className)
    (depth : Nat) : program.encode s (depth + 2) i "Message" = .ok m.encode := by
  have hlength : i.listLength "records" = m.records.length := by
    have hlist := hs.listLength program_planned program_noRedeclaration hi
      (serialised_sub _ _ _ hl) rfl
    exact hlist.trans h.records.length_eq
  have hv : (BitVec.ofNat 64 m.version.toNat).toNat = m.version.toNat :=
    toNat_word (Nat.lt_trans m.version.toNat_lt (by decide))
  have hparts : List.Forall₂ (fun a part => encodeAction s (program.encode s (depth + 1)) "Message"
      i (Plan.wire a).marshal = .ok part) [versionField, numRecordsField "records", recordsField]
      [[m.version], bigEndian 2 m.records.length, (m.records.map Record.encode).flatten] := by
    refine .cons ?_ (.cons ?_ (.cons ?_ .nil))
    · rw [encodeAction_word rfl]
      change Except.ok [UInt8.ofNat (i.uint "version").toNat] = _
      rw [h.version, hv, UInt8.ofNat_toNat]
    · rw [encodeAction_word rfl]
      change Except.ok (bigEndian 2 (BitVec.ofNat 64 (i.listLength "records")).toNat) = _
      rw [hlength, bigEndian_ofNat]
    · rw [encodeAction_list rfl rfl]
      exact encodeRefs_eq_ok.mpr ⟨_, Record.Shown.encodeRefs h.records depth, rfl⟩
  exact encode_rootless program_planned message_mem (message_rootless _) hparts
    (by simp [Message.encode, List.flatMap])

theorem Route.Shown.encode {r : Route} (h : r.Shown s x) (hs : program.Sound s)
    (hi : s.get? x = some i) (depth : Nat) :
    program.encode s (depth + 3) i "Route" = .ok r.encode := by
  obtain ⟨i', hi', hcls, hm, first, second, hcorners, hfirst, hsecond⟩ := h
  cases Option.some.inj (hi.symm.trans hi')
  have hl : recordsField ∈ program.registry.serialised i.className := by
    rw [hcls]
    exact program_planned.serialised_parent route_mem route_hasParent recordsField_mem
  have hpoint : ∀ {y : Nat} {p : Point}, p.Shown s y →
      encodeRef s (program.encode s (depth + 2)) (some y) = .ok p.encode := by
    intro y p hp
    obtain ⟨o, ho, hoc⟩ := hp.class_of
    refine encodeRef_eq_ok.mpr ⟨o, ho, ?_⟩
    rw [hoc]
    exact hp.encode ho (depth + 1)
  have hpart : encodeAction s (program.encode s (depth + 2)) "Route" i
      (Plan.wire cornersField).marshal =
        .ok [r.corners.1.encode, r.corners.2.encode].flatten := by
    rw [encodeAction_objects rfl rfl, show i.objectArray cornersField.name = _ from hcorners]
    exact encodeRefs_eq_ok.mpr ⟨_, .cons (hpoint hfirst) (.cons (hpoint hsecond) .nil), rfl⟩
  refine (encode_succ_eq_ok program_planned route_mem).mpr
    ⟨r.message.encode, [_], ?_, .cons hpart .nil, by simp [Route.encode]⟩
  rw [if_pos route_hasParent]
  exact hm.encode hs hi hl depth

end

end PduCompiler.Sample
