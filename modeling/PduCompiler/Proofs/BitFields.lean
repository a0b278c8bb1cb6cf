import PduCompiler.Proofs.StoredWords

/-! Bit fields behave like fields of their own. A value that lies under the mask of a bit field is
read back as it was set, and no other bit of the object changes. So two bit fields with masks apart
can be set in either order. -/

namespace PduCompiler

theorem Word.getLsbD_truncate (bits : Nat) (w : Word) (k : Nat) :
    (w.truncate bits).getLsbD k = (decide (k < bits) && w.getLsbD k) := by
  rw [truncate, BitVec.getLsbD_ofNat, Nat.pow_eq, Nat.testBit_mod_two_pow, BitVec.testBit_toNat]
  by_cases hk : k < 64
  · simp [hk]
  · simp [hk, BitVec.getLsbD_of_ge w k (by omega)]

namespace TypeName

variable {t : TypeName}

theorem getLsbD_truncate (h : t.isCanonical = true) (w : Word) (k : Nat) :
    (t.truncate w).getLsbD k = (decide (k < t.bits) && w.getLsbD k) := by
  obtain ⟨sc, hsc⟩ := Option.isSome_iff_exists.mp h
  rw [truncate, hsc, bits, width, hsc]
  exact Word.getLsbD_truncate sc.bits w k

theorem Admits.getLsbD {w : Word} (h : t.Admits w) {k : Nat} (hk : t.bits ≤ k) :
    w.getLsbD k = false := by
  rw [← BitVec.testBit_toNat]
  exact Nat.testBit_lt_two_pow (Nat.lt_of_lt_of_le h (Nat.pow_le_pow_right (by decide) hk))

end TypeName

namespace BitAccessor

theorem getLsbD_narrowMask (b : BitAccessor) (k : Nat) :
    b.narrowMask.getLsbD k = (decide (k < b.type.bits) && b.maskValue.getLsbD k) := by
  unfold narrowMask
  split
  · next hwide =>
    by_cases hk : k < 64
    · simp [show k < b.type.bits by omega]
    · simp [BitVec.getLsbD_of_ge b.maskValue k (by omega)]
  · exact Word.getLsbD_truncate _ _ k

/-- The value, moved to its place, does not overflow and lies under the mask. -/
def Takes (b : BitAccessor) (v : Word) : Prop :=
  v.toNat * 2 ^ b.shift.toNat < 2 ^ 64 ∧
    ∀ k < 64, (v.toNat * 2 ^ b.shift.toNat).testBit k = true → b.narrowMask.getLsbD k = true

instance (b : BitAccessor) (v : Word) : Decidable (b.Takes v) :=
  inferInstanceAs (Decidable (_ ∧ ∀ k < 64, (v.toNat * 2 ^ b.shift.toNat).testBit k = true →
    b.narrowMask.getLsbD k = true))

variable {b : BitAccessor} {v : Word}

theorem Takes.toNat_shiftLeft (h : b.Takes v) :
    (v <<< b.shift.toNat).toNat = v.toNat * 2 ^ b.shift.toNat := by
  rw [BitVec.toNat_shiftLeft, Nat.shiftLeft_eq, Nat.mod_eq_of_lt h.1]

theorem Takes.shift_back (h : b.Takes v) : v <<< b.shift.toNat >>> b.shift.toNat = v := by
  apply BitVec.eq_of_toNat_eq
  rw [BitVec.toNat_ushiftRight, h.toNat_shiftLeft, Nat.shiftRight_eq_div_pow,
    Nat.mul_div_cancel _ (Nat.two_pow_pos _)]

theorem Takes.under_mask (h : b.Takes v) {k : Nat}
    (hk : (v <<< b.shift.toNat).getLsbD k = true) : b.narrowMask.getLsbD k = true := by
  have hlt : k < 64 := BitVec.lt_of_getLsbD hk
  rw [← BitVec.testBit_toNat, h.toNat_shiftLeft] at hk
  exact h.2 k hlt hk

section Stored

variable (hcanon : b.type.isCanonical = true) (hshift : 0 ≤ b.shift) {f : Word}

include hcanon hshift

theorem getLsbD_stored (f v : Word) (k : Nat) :
    (b.type.truncate (b.set f v)).getLsbD k = (decide (k < b.type.bits) &&
      (f.getLsbD k && !b.maskValue.getLsbD k || (v <<< b.shift.toNat).getLsbD k)) := by
  rw [TypeName.getLsbD_truncate hcanon, set, if_neg (by omega), BitVec.getLsbD_or,
    BitVec.getLsbD_and, BitVec.getLsbD_not]
  by_cases hk : k < 64
  · simp [hk]
  · simp [BitVec.getLsbD_of_ge f k (by omega)]

theorem Takes.getLsbD_stored (h : b.Takes v) (hf : b.type.Admits f) (k : Nat) :
    (b.type.truncate (b.set f v)).getLsbD k =
      if b.narrowMask.getLsbD k = true then (v <<< b.shift.toNat).getLsbD k else f.getLsbD k := by
  have hunder := h.under_mask (k := k)
  rw [BitAccessor.getLsbD_stored hcanon hshift]
  rw [getLsbD_narrowMask] at hunder ⊢
  generalize (v <<< b.shift.toNat).getLsbD k = bit at hunder ⊢
  by_cases hk : k < b.type.bits
  · cases hm : b.maskValue.getLsbD k with
    | true => simp [hk]
    | false =>
      obtain rfl : bit = false := by simpa [hm] using hunder
      simp [hk]
  · -- the cut takes away what is beyond the width, and the field had nothing there
    simp [hk, hf.getLsbD (Nat.le_of_not_lt hk)]

theorem Takes.get_stored (h : b.Takes v) (hf : b.type.Admits f) :
    b.get (b.type.truncate (b.set f v)) = v := by
  have hmasked : b.type.truncate (b.set f v) &&& b.maskValue = v <<< b.shift.toNat := by
    apply BitVec.eq_of_getLsbD_eq
    intro k _
    have hunder := h.under_mask (k := k)
    rw [BitVec.getLsbD_and, h.getLsbD_stored hcanon hshift hf]
    generalize (v <<< b.shift.toNat).getLsbD k = bit at hunder ⊢
    rw [getLsbD_narrowMask] at hunder ⊢
    by_cases hk : k < b.type.bits
    · cases hm : b.maskValue.getLsbD k with
      | true => simp [hk]
      | false => simpa [hm] using hunder
    · have hbit : bit = false := by simpa [hk] using hunder
      simp [hk, hbit, hf.getLsbD (Nat.le_of_not_lt hk)]
  rw [get, if_neg (by omega), hmasked, h.shift_back]

end Stored

theorem Takes.stored_comm {b' : BitAccessor} {f v' : Word} (hcanon : b.type.isCanonical = true)
    (htype : b'.type = b.type) (hshift : 0 ≤ b.shift) (hshift' : 0 ≤ b'.shift)
    (hapart : b.narrowMask &&& b'.narrowMask = 0#64) (h : b.Takes v) (h' : b'.Takes v')
    (hf : b.type.Admits f) :
    b.type.truncate (b'.set (b.type.truncate (b.set f v)) v') =
      b.type.truncate (b.set (b.type.truncate (b'.set f v')) v) := by
  have hcut := TypeName.admits_truncate hcanon
  apply BitVec.eq_of_getLsbD_eq
  intro k _
  have hset : ∀ g, b.type.Admits g → (b.type.truncate (b.set g v)).getLsbD k =
      if b.narrowMask.getLsbD k = true then (v <<< b.shift.toNat).getLsbD k else g.getLsbD k :=
    fun g hg => h.getLsbD_stored hcanon hshift hg k
  have hset' : ∀ g, b.type.Admits g → (b.type.truncate (b'.set g v')).getLsbD k =
      if b'.narrowMask.getLsbD k = true then (v' <<< b'.shift.toNat).getLsbD k
      else g.getLsbD k := by
    rw [← htype] at hcanon ⊢
    exact fun g hg => h'.getLsbD_stored hcanon hshift' hg k
  rw [hset' _ (hcut _), hset _ hf, hset _ (hcut _), hset' _ hf]
  have hk : (b.narrowMask.getLsbD k && b'.narrowMask.getLsbD k) = false := by
    rw [← BitVec.getLsbD_and, hapart, BitVec.getLsbD_zero]
  by_cases hm : b.narrowMask.getLsbD k = true
  · have hm' : b'.narrowMask.getLsbD k = false := by simpa [hm] using hk
    simp [hm, hm']
  · simp [hm]

theorem of_mem_ofAttribute {a : Attribute} (h : b ∈ ofAttribute a) :
    ∃ q, a.kind = some (.primitive q) ∧ b.field = a.name ∧ b.type = q.type ∧ 0 ≤ b.shift := by
  unfold ofAttribute at h
  cases hq : a.primitive? with
  | none => simp [hq] at h
  | some q =>
    rw [hq] at h
    obtain ⟨bits, -, rfl⟩ := List.mem_map.mp h
    exact ⟨q, Attribute.primitive?_eq_some.mp hq, rfl, rfl, Int.natCast_nonneg _⟩

end BitAccessor

theorem Table.set_set {α : Type} (t : Table α) (name : String) (v w : α) :
    (t.set name v).set name w = t.set name w := by
  induction t with
  | nil => simp [set]
  | cons entry rest ih =>
    by_cases hn : entry.1 = name <;> simp [set, hn, ih]

namespace Program

/-- A value was set in the bits under the mask of a bit field, and nothing else was changed. -/
structure SetsBits (p : Program) (i : Instance) (name : String) (b : BitAccessor) (v : Word)
    (j : Instance) : Prop where
  set : p.setBits i name v = .ok j
  get : p.getBits j name = .ok v
  outside : ∀ k, b.narrowMask.getLsbD k = false →
    (j.uint b.field).getLsbD k = (i.uint b.field).getLsbD k
  others : ∀ field, field ≠ b.field → j.prims.get? field = i.prims.get? field
  rest : { j with prims := i.prims } = i

structure IndependentBits (p : Program) (i : Instance) : Prop where
  sets : ∀ name b, p.bitField i.className name = .ok b → ∀ v, b.Takes v →
    ∃ j, p.SetsBits i name b v j
  commute : ∀ name b name' b', p.bitField i.className name = .ok b →
    p.bitField i.className name' = .ok b' → b'.field = b.field →
    b.narrowMask &&& b'.narrowMask = 0#64 → ∀ v v', b.Takes v → b'.Takes v' →
    ∃ j j' k, p.setBits i name v = .ok j ∧ p.setBits j name' v' = .ok k ∧
      p.setBits i name' v' = .ok j' ∧ p.setBits j' name v = .ok k

section Access

variable {p : Program} {i : Instance} {name : String} {b : BitAccessor}
  (hb : p.bitField i.className name = .ok b)

include hb

theorem getBits_eq : p.getBits i name = .ok (b.get (i.uint b.field)) := by
  simp only [getBits, hb, bind, Except.bind]
  rfl

variable (ht : i.types.get? b.field = some b.type)

include ht

theorem setBits_eq (v : Word) : p.setBits i name v =
    .ok (i.setPrim b.field (b.type.truncate (b.set (i.uint b.field) v))) := by
  simp only [setBits, hb, bind, Except.bind, Instance.setUint, ht]
  rfl

variable (hcanon : b.type.isCanonical = true) (hshift : 0 ≤ b.shift)
  (hf : b.type.Admits (i.uint b.field)) {v : Word} (hv : b.Takes v)

include hcanon hshift hf hv

theorem setsBits_of_takes : ∃ j, p.SetsBits i name b v j := by
  have hstored : ∀ w, (i.setPrim b.field w).uint b.field = w := by simp [Instance.uint_setPrim]
  refine ⟨_, setBits_eq hb ht v, ?_, fun k hk => ?_, fun field hne => ?_, rfl⟩
  · rw [getBits_eq (i := i.setPrim _ _) hb, hstored, hv.get_stored hcanon hshift hf]
  · rw [hstored, hv.getLsbD_stored hcanon hshift hf, if_neg (by simp [hk])]
  · rw [Instance.setPrim, Table.get?_set, if_neg hne]

theorem setBits_comm {name' : String} {b' : BitAccessor}
    (hb' : p.bitField i.className name' = .ok b') (hfield : b'.field = b.field)
    (htype : b'.type = b.type) (hshift' : 0 ≤ b'.shift)
    (hapart : b.narrowMask &&& b'.narrowMask = 0#64) {v' : Word} (hv' : b'.Takes v') :
    ∃ j j' k, p.setBits i name v = .ok j ∧ p.setBits j name' v' = .ok k ∧
      p.setBits i name' v' = .ok j' ∧ p.setBits j' name v = .ok k := by
  have hstored : ∀ w, (i.setPrim b.field w).uint b.field = w := by simp [Instance.uint_setPrim]
  have htwice : ∀ w w', (i.setPrim b.field w).setPrim b.field w' = i.setPrim b.field w' := by
    simp [Instance.setPrim, Table.set_set]
  have ht' : i.types.get? b'.field = some b'.type := by rw [hfield, htype, ht]
  refine ⟨_, _, _, setBits_eq hb ht v, setBits_eq (i := i.setPrim _ _) hb' ht' v',
    setBits_eq hb' ht' v', ?_⟩
  rw [setBits_eq (i := i.setPrim _ _) hb ht v, hfield, htype, hstored, hstored, htwice, htwice,
    hv.stored_comm hcanon htype hshift hshift' hapart hv' hf]

end Access

section Compiled

variable {p : Program} {source : Registry} {options : PlanOptions} (h : p.Compiled source options)

include h

theorem Compiled.findBitField_declared {fuel : Nat} {className name : String} {b : BitAccessor}
    (hb : p.findBitField fuel className name = .ok (some b)) :
    ∃ c ∈ p.registry.classes, c.name = className ∧
      ∃ a ∈ p.registry.allAttributes className, b ∈ BitAccessor.ofAttribute a := by
  have hp := h.toPlanned
  induction fuel generalizing className with
  | zero => cases hb
  | succ fuel ih =>
    rw [findBitField] at hb
    cases hplan : p.plan? className with
    | none => simp [hplan] at hb
    | some plan =>
      obtain ⟨c, hc, rfl, hf⟩ := hp.class_of_plan className plan hplan
      obtain ⟨plan', hplan', hok⟩ := h.plan_of_class hc
      cases hplan.symm.trans hplan'
      obtain ⟨-, -, -, -, -, -, -, hbits, -⟩ := Registry.plan_eq_ok hok
      refine ⟨c, hc, rfl, ?_⟩
      rw [hp.allAttributes_eq hc]
      simp only [hplan, hf.description] at hb
      cases hfind : plan.bitFields.find? (·.name == name) with
      | some b' =>
        rw [hfind] at hb
        cases hb
        obtain ⟨a, ha, hab⟩ := List.mem_flatMap.mp (hbits ▸ List.mem_of_find?_eq_some hfind)
        exact ⟨a, List.mem_append_right _ ha, hab⟩
      | none =>
        rw [hfind] at hb
        by_cases hpar : c.hasParent = true
        · rw [if_pos hpar] at hb
          obtain ⟨-, -, -, a, ha, hab⟩ := ih hb
          refine ⟨a, List.mem_append_left _ ?_, hab⟩
          rwa [Plan.inherited, if_pos hpar]
        · simp [hpar] at hb

variable (hno : p.registry.NoRedeclaration) (ops : List Operation) {x : Nat} {i : Instance}
  (hi : (p.run ops).get? x = some i)
  (hfit : ∀ a ∈ p.registry.allAttributes i.className, ∀ q ∈ a.primitive?,
    q.type.Admits (i.uint a.name))

include hno hi hfit

theorem Compiled.bitField_typed {name : String} {b : BitAccessor}
    (hb : p.bitField i.className name = .ok b) : b.type.isCanonical = true ∧ 0 ≤ b.shift ∧
      i.types.get? b.field = some b.type ∧ b.type.Admits (i.uint b.field) := by
  have hfound : p.findBitField (p.plans.length + 1) i.className name = .ok (some b) := by
    unfold bitField at hb
    split at hb
    · cases hb
    · cases hb
    · next b' hb' => rw [hb', Except.ok.inj hb]
  obtain ⟨c, hc, hcn, a, ha, hab⟩ := h.findBitField_declared hfound
  obtain ⟨q, hq, hfield, htype, hshift⟩ := BitAccessor.of_mem_ofAttribute hab
  rw [hfield, htype]
  exact ⟨h.toPlanned.canonical hc (hcn ▸ ha) hq, hshift, run_declared h hno ops hi ha hq,
    hfit a ha q (Attribute.primitive?_eq_some.mpr hq)⟩

/-- Values that lie under their masks are kept, each without regard to the others. -/
theorem Compiled.independent_bits : p.IndependentBits i := by
  refine ⟨fun name b hb v hv => ?_, fun name b name' b' hb hb' hfield hapart v v' hv hv' => ?_⟩
  · obtain ⟨hcanon, hshift, ht, hf⟩ := h.bitField_typed hno ops hi hfit hb
    exact setsBits_of_takes hb ht hcanon hshift hf hv
  · obtain ⟨hcanon, hshift, ht, hf⟩ := h.bitField_typed hno ops hi hfit hb
    obtain ⟨-, hshift', ht', -⟩ := h.bitField_typed hno ops hi hfit hb'
    have htype : b'.type = b.type := by
      rw [hfield, ht] at ht'
      exact (Option.some.inj ht').symm
    exact setBits_comm hb ht hcanon hshift hf hv hb' hfield htype hshift' hapart hv'

end Compiled

end Program

namespace Panel

def source : Registry := .gather [
  { name := "Panel", attributes := [
      { name := "flags", kind := some (.primitive {
          type := "uint16", default := "0x1234", bitFields := [
            { name := "low", mask := "0x0f" }, { name := "split", mask := "0x7f0f0" }] }) }] },
  { name := "Alarm", parent := "Panel", attributes := [
      { name := "state", kind := some (.primitive {
          type := "int8", default := "-3", bitFields := [
            { name := "sign", mask := "-128" }] }) }] }]

def program : Program := (Program.compile? source {}).getD ⟨{}, []⟩

def alarm : Instance := ((program.run [.new "Alarm"]).get? 0).getD { className := "" }

def low : BitAccessor := {
  name := "low", field := "flags", type := "uint16", mask := "0x0f", maskValue := 0x0f }

def split : BitAccessor := {
  name := "split", field := "flags", type := "uint16", mask := "0x7f0f0", maskValue := 0x7f0f0
  shift := 4 }

theorem program_evaluated : (Program.compile? source {}).isSome = true ∧
    program.registry.NoRedeclaration ∧
    (program.run [.new "Alarm"]).get? 0 = some alarm ∧
    (∀ a ∈ program.registry.allAttributes alarm.className, ∀ q ∈ a.primitive?,
      q.type.Admits (alarm.uint a.name)) ∧
    (program.bitField alarm.className "low").toOption = some low ∧
    (program.bitField alarm.className "split").toOption = some split ∧
    low.narrowMask &&& split.narrowMask = 0#64 ∧ low.Takes 9 ∧ split.Takes 0xf0f ∧
    ((program.setBits alarm "low" 9).toOption.bind fun j =>
      (program.setBits j "split" 0xf0f).toOption).map (·.uint "flags") = some 0xf2f9 := by
  decide +kernel

end Panel

/-- Both ways a panel comes to have the same flags. -/
theorem panel_bits : Panel.program.IndependentBits Panel.alarm ∧
    (Panel.program.bitField Panel.alarm.className "low").toOption = some Panel.low ∧
    (Panel.program.bitField Panel.alarm.className "split").toOption = some Panel.split ∧
    Panel.low.narrowMask &&& Panel.split.narrowMask = 0#64 ∧
    Panel.low.Takes 9 ∧ Panel.split.Takes 0xf0f ∧
    ((Panel.program.setBits Panel.alarm "low" 9).toOption.bind fun j =>
      (Panel.program.setBits j "split" 0xf0f).toOption).map (·.uint "flags") = some 0xf2f9 := by
  obtain ⟨hsome, hno, hi, hfit, hrest⟩ := Panel.program_evaluated
  have hcompiled := Program.compiled_getD (Registry.gather_built _) hsome ⟨{}, []⟩
  exact ⟨hcompiled.independent_bits hno _ hi hfit, hrest⟩

end PduCompiler
