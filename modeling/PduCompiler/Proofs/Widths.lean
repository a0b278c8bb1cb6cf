import PduCompiler.Proofs.Consuming

/-! Words that fit in the width of a type. So do words that were cut to the width, literals of the
type, floats that were narrowed to it, and words that were read from as many bytes. -/

namespace PduCompiler

namespace BinaryFormat

theorem infinity_add (f : BinaryFormat) : f.infinity + 2 ^ f.fractionBits = f.signBit := by
  have hpos : 0 < 2 ^ f.exponentBits := Nat.two_pow_pos _
  simp only [infinity, signBit, Nat.pow_eq, Nat.pow_add]
  rw [Nat.sub_mul, Nat.one_mul]
  exact Nat.sub_add_cancel (Nat.le_mul_of_pos_left _ hpos)

theorem roundRatio_le_infinity (f : BinaryFormat) (num den : Nat) :
    f.roundRatio num den ≤ f.infinity := by
  unfold roundRatio
  by_cases hnum : num = 0
  · rw [if_pos hnum]
    exact Nat.zero_le _
  · rw [if_neg hnum]
    exact Nat.min_le_left _ _

theorem convert_lt (f : BinaryFormat) {g : BinaryFormat} (hg : 0 < g.fractionBits) (bits : Nat) :
    f.convert g bits < 2 * g.signBit := by
  have hinf := g.infinity_add
  have hunit : 0 < 2 ^ g.fractionBits := Nat.two_pow_pos _
  have hsign : (if f.signBit ≤ bits then g.signBit else 0) ≤ g.signBit := by
    split <;> omega
  unfold convert
  by_cases hnan : f.infinity < bits % f.signBit
  · -- the fraction that is moved over keeps below the exponent bits, and so does the quiet bit
    have hmoved : bits % f.signBit % Nat.pow 2 f.fractionBits * Nat.pow 2 g.fractionBits /
        Nat.pow 2 f.fractionBits < 2 ^ g.fractionBits := by
      have hfraction : bits % f.signBit % 2 ^ f.fractionBits < 2 ^ f.fractionBits :=
        Nat.mod_lt _ (Nat.two_pow_pos _)
      refine Nat.div_lt_of_lt_mul ?_
      exact Nat.mul_lt_mul_of_pos_right hfraction hunit
    have hquiet : Nat.pow 2 (g.fractionBits - 1) < 2 ^ g.fractionBits :=
      Nat.pow_lt_pow_right (by omega) (by omega)
    have hfraction := Nat.or_lt_two_pow hmoved hquiet
    simp only [if_pos hnan]
    omega
  · simp only [if_neg hnan]
    by_cases heq : bits % f.signBit = f.infinity
    · simp only [if_pos heq]
      omega
    · simp only [if_neg heq]
      have hround := g.roundRatio_le_infinity (f.ratio (bits % f.signBit)).1
        (f.ratio (bits % f.signBit)).2
      omega

end BinaryFormat

namespace TypeName

def Admits (t : TypeName) (w : Word) : Prop := w.toNat < 2 ^ (8 * t.width)

instance (t : TypeName) (w : Word) : Decidable (t.Admits w) :=
  inferInstanceAs (Decidable (w.toNat < 2 ^ (8 * t.width)))

variable {t : TypeName}

theorem admits_zero (t : TypeName) : t.Admits 0 := Nat.two_pow_pos _

theorem admits_truncate (h : t.isCanonical = true) (w : Word) : t.Admits (t.truncate w) := by
  obtain ⟨sc, hsc⟩ := Option.isSome_iff_exists.mp h
  have hmod : w.toNat % 2 ^ sc.bits < 2 ^ sc.bits := Nat.mod_lt _ (Nat.two_pow_pos _)
  have hle : w.toNat % 2 ^ sc.bits % 2 ^ 64 ≤ w.toNat % 2 ^ sc.bits := Nat.mod_le _ _
  simp only [Admits, truncate, width, hsc, Option.elim_some, Word.truncate, BitVec.toNat_ofNat,
    Nat.pow_eq]
  exact Nat.lt_of_le_of_lt hle hmod

theorem admits_narrowed (h : t = Scalar.float32.name) (bits : Nat) :
    t.Admits (BitVec.ofNat 64 (BinaryFormat.binary64.convert BinaryFormat.binary32 bits)) := by
  have hlt := BinaryFormat.binary64.convert_lt (g := BinaryFormat.binary32) (by decide) bits
  have hwidth : t.width = 4 := by rw [h]; decide
  have hsign : BinaryFormat.binary32.signBit = 2 ^ 31 := by decide
  rw [hsign] at hlt
  rw [Admits, hwidth, BitVec.toNat_ofNat, Nat.mod_eq_of_lt (by omega)]
  omega

theorem admits_whole (h : t.width = 8) (w : Word) : t.Admits w := by
  rw [Admits, h]
  exact w.isLt

theorem admits_readLiteral (h : t.isCanonical = true) {literal : String} {w : Word}
    (hw : t.readLiteral literal = .ok w) : t.Admits w := by
  obtain ⟨sc, hsc⟩ := Option.isSome_iff_exists.mp h
  obtain rfl := Scalar.name_of_ofName? hsc
  unfold readLiteral at hw
  by_cases hfloat : TypeName.isFloat sc.name = true
  · simp only [if_pos hfloat] at hw
    split at hw
    · cases hw
    · next bits hbits =>
      by_cases hnarrow : TypeName.scalar? sc.name = some .float32
      · rw [if_pos hnarrow] at hw
        cases hw
        exact admits_narrowed (Scalar.name_of_ofName? hnarrow).symm bits
      · rw [if_neg hnarrow] at hw
        cases hw
        refine admits_whole ?_ _
        cases sc <;> revert hfloat hnarrow <;> decide
  · simp only [if_neg hfloat] at hw
    split at hw
    · cases hw
    · cases hw
      exact admits_truncate h _

end TypeName

namespace Decode

theorem scalar_admits {t : TypeName} {d d' : Decoding} {w : Word} (h : scalar t d = .ok w d') :
    t.Admits w := by
  unfold scalar at h
  cases hsc : t.scalar? with
  | none => simp [hsc] at h
  | some sc =>
    simp only [hsc] at h
    split at h
    · cases h
    · cases h
      have hlen : (d.rest.take sc.width).length ≤ sc.width := List.length_take_le _ _
      have hlt := ofBigEndian_lt (d.rest.take sc.width)
      have hpow : 256 ^ (d.rest.take sc.width).length ≤ 256 ^ sc.width :=
        Nat.pow_le_pow_right (by omega) hlen
      have hbits : 256 ^ sc.width = 2 ^ (8 * sc.width) := by
        rw [Nat.pow_mul]
      rw [TypeName.Admits, TypeName.width, hsc, Option.elim_some, BitVec.toNat_ofNat, ← hbits]
      exact Nat.lt_of_le_of_lt (Nat.mod_le _ _) (Nat.lt_of_lt_of_le hlt hpow)

theorem scalars_admits {t : TypeName} {n : Nat} {d d' : Decoding} {ws : List Word}
    {error : Option MachineError} (h : scalars t n d = .ok (ws, error) d') :
    ∀ w ∈ ws, t.Admits w := by
  induction n generalizing d d' ws error with
  | zero =>
    cases h
    simp
  | succ n ih =>
    simp only [scalars, bind_apply, outcome_apply] at h
    cases hs : scalar t d with
    | error e d₁ =>
      simp only [hs] at h
      cases h
      intro w hw
      rw [List.mem_singleton.mp hw]
      exact t.admits_zero
    | ok v d₁ =>
      obtain ⟨vs, e, d₂, hvs, -, -⟩ := scalars_apply t n d₁
      simp only [hs, bind_apply, hvs] at h
      cases h
      intro w hw
      rcases List.mem_cons.mp hw with rfl | hw
      · exact scalar_admits hs
      · exact ih hvs w hw

end Decode

end PduCompiler
