import PduCompiler.Proofs.BitFields
import PduCompiler.Proofs.IntLiterals
import PduCompiler.Target.Go

/-! Emitted access to bit fields. The accessors of a class file are expressions over integers of the
width of the field, with the mask cut to that width. The machine works on words of 64 bits with the
whole mask and cuts at the end. Both come to the same bits. -/

namespace PduCompiler

namespace Scalar

theorem bits_name (t : Scalar) : TypeName.bits t.name = t.bits := by
  rw [TypeName.bits, TypeName.width, TypeName.scalar?, ofName?_name]
  rfl

theorem isSigned_name (t : Scalar) : TypeName.isSigned t.name = t.isSigned := by
  rw [TypeName.isSigned, TypeName.scalar?, ofName?_name]
  rfl

theorem bits_le (t : Scalar) : t.bits ≤ 64 := by cases t <;> decide

theorem parse?_name (t : Scalar) : parse? t.name = some t := by cases t <;> decide

end Scalar

namespace BitAccessor

theorem lowestRunFrom_lt (mask : Word) {bits : Nat} (hpos : 0 < bits) (i : Nat) :
    (lowestRunFrom mask bits i).1 < bits := by
  fun_induction lowestRunFrom mask bits i with
  | case1 i hi hm => exact hi
  | case2 i hi hm ih => exact ih
  | case3 i hi => exact hpos

theorem ofBitField_shift (field : String) (t : Scalar) (bits : BitField) :
    ∃ s < t.bits, (ofBitField field t.name bits).shift = (s : Int) := by
  refine ⟨resolveShift t.name bits.mask, ?_, rfl⟩
  have hpos : 0 < t.bits := by cases t <;> decide
  rw [resolveShift, Scalar.parse?_name]
  cases IntLiteral.decode? bits.mask with
  | none => exact hpos
  | some m => exact lowestRunFrom_lt m hpos 0

section Width

variable {t : Scalar} {b : BitAccessor} (ht : b.type = t.name)

include ht

theorem narrowMask_eq : b.narrowMask = b.maskValue &&& (BitVec.allOnes t.bits).setWidth 64 := by
  apply BitVec.eq_of_getLsbD_eq
  intro k hk
  rw [getLsbD_narrowMask, ht, Scalar.bits_name, BitVec.getLsbD_and, BitVec.getLsbD_setWidth,
    BitVec.getLsbD_allOnes, Bool.and_comm]
  simp [hk]

variable (hshift : 0 ≤ b.shift) (f : BitVec t.bits)

include hshift

/-- The machine reads what an unsigned integer of the width of the type would show. -/
theorem get_setWidth : b.get (f.setWidth 64) =
    ((f &&& b.narrowMask.setWidth t.bits) >>> b.shift.toNat).setWidth 64 := by
  have hle := t.bits_le
  apply BitVec.eq_of_getLsbD_eq
  intro k hk
  rw [get, if_neg (by omega)]
  simp only [BitVec.getLsbD_ushiftRight, BitVec.getLsbD_and, BitVec.getLsbD_setWidth,
    getLsbD_narrowMask, ht, Scalar.bits_name]
  by_cases hin : b.shift.toNat + k < t.bits
  · simp [hk, hin, show b.shift.toNat + k < 64 by omega]
  · simp [BitVec.getLsbD_of_ge f _ (Nat.le_of_not_lt hin)]

theorem truncate_set_setWidth (v : Word) : b.type.truncate (b.set (f.setWidth 64) v) =
    ((f &&& ~~~b.narrowMask.setWidth t.bits) |||
      v.setWidth t.bits <<< b.shift.toNat).setWidth 64 := by
  have hcanon : b.type.isCanonical = true := by
    rw [ht, TypeName.isCanonical, TypeName.scalar?, Scalar.ofName?_name]
    rfl
  apply BitVec.eq_of_getLsbD_eq
  intro k hk
  rw [getLsbD_stored hcanon hshift]
  simp only [BitVec.getLsbD_setWidth, BitVec.getLsbD_or, BitVec.getLsbD_and, BitVec.getLsbD_not,
    BitVec.getLsbD_shiftLeft, getLsbD_narrowMask, ht, Scalar.bits_name]
  by_cases hin : k < t.bits
  · simp [hk, hin, show k - b.shift.toNat < t.bits by omega]
  · simp [hin]

end Width

end BitAccessor

namespace IntLiteral

theorem unsigned?_toDigits {n : Nat} (hn : n < 2 ^ 64) :
    unsigned? 16 ((Nat.toDigits 16 n).map Char.toUpper) = some n := by
  have hdigits : Numeral 16 ((Nat.toDigits 16 n).map Char.toUpper) n :=
    numeral_toDigits (by decide) (by decide) (by decide) n
  rw [hdigits.unsigned? (by decide), if_pos hn]

end IntLiteral

namespace Target.Go

/-- An expression in an accessor; `field` and `value` are of the type of the field. -/
inductive BitExpr where
  | field
  | value
  | mask (w : Word)
  | convert (signed : Bool) (e : BitExpr)
  | and (e m : BitExpr)
  | andNot (e m : BitExpr)
  | or (e u : BitExpr)
  | shiftRight (e : BitExpr) (s : Int)
  | shiftLeft (e : BitExpr) (s : Int)
  deriving DecidableEq, Repr

namespace BitExpr

def isBinary : BitExpr → Bool
  | field | value | mask _ | convert _ _ => false
  | _ => true

def parens (e : BitExpr) (text : String) : String := if e.isBinary then s!"({text})" else text

def text (bits : Nat) (name : String) : BitExpr → String
  | field => s!"p.{name}"
  | value => "v"
  | mask w => hexLiteral w
  | convert signed e => (if signed then "int" else "uint") ++ s!"{bits}({e.text bits name})"
  | and e m => s!"{e.parens (e.text bits name)} & {m.parens (m.text bits name)}"
  | andNot e m => s!"{e.parens (e.text bits name)} &^ {m.parens (m.text bits name)}"
  | or e u => s!"{e.parens (e.text bits name)} | {u.parens (u.text bits name)}"
  | shiftRight e s => s!"{e.parens (e.text bits name)} >> {s}"
  | shiftLeft e s => s!"{e.parens (e.text bits name)} << {s}"

def hasSign (own : Bool) : BitExpr → Bool
  | field | value => own
  | mask _ => false
  | convert signed _ => signed
  | and e _ | andNot e _ | or e _ | shiftRight e _ | shiftLeft e _ => e.hasSign own

/-- The bits of an expression. A shift to the right repeats the sign of what has one. -/
def eval {bits : Nat} (own : Bool) (f v : BitVec bits) : BitExpr → BitVec bits
  | field => f
  | value => v
  | mask w => w.setWidth bits
  | convert _ e => e.eval own f v
  | and e m => e.eval own f v &&& m.eval own f v
  | andNot e m => e.eval own f v &&& ~~~m.eval own f v
  | or e u => e.eval own f v ||| u.eval own f v
  | shiftRight e s =>
    if e.hasSign own then (e.eval own f v).sshiftRight s.toNat else e.eval own f v >>> s.toNat
  | shiftLeft e s => e.eval own f v <<< s.toNat

end BitExpr

def plain (b : BitAccessor) (e : BitExpr) : BitExpr :=
  if b.type.isSigned then .convert false e else e

def result (b : BitAccessor) (e : BitExpr) : BitExpr :=
  if b.type.isSigned then .convert true e else e

def getter (b : BitAccessor) : BitExpr :=
  result b (.shiftRight (.and (plain b .field) (.mask b.narrowMask)) b.shift)

def setter (b : BitAccessor) : BitExpr :=
  result b (.or (.andNot (plain b .field) (.mask b.narrowMask))
    (.shiftLeft (plain b .value) b.shift))

variable {t : Scalar} {b : BitAccessor}

theorem scalarType_name (ht : t.isFloat = false) :
    scalarType t.name = (if t.isSigned then "int" else "uint") ++ toString t.bits := by
  cases t with
  | float32 | float64 => cases ht
  | _ => decide

theorem magnitude?_hexLiteral (w : Word) :
    IntLiteral.magnitude? (hexLiteral w).toList = some w.toNat := by
  have htext : (hexLiteral w).toList =
      '0' :: 'x' :: (Nat.toDigits 16 w.toNat).map Char.toUpper := by
    simp [hexLiteral, String.toUpper]
  rw [htext]
  exact IntLiteral.unsigned?_toDigits w.isLt

section Accessor

variable (hb : b.type = t.name)

include hb

theorem eval_getter (f v : BitVec t.bits) : (getter b).eval t.isSigned f v =
    (f &&& b.narrowMask.setWidth t.bits) >>> b.shift.toNat := by
  rw [getter, result, plain, hb, Scalar.isSigned_name]
  cases hs : t.isSigned <;> simp [BitExpr.eval, BitExpr.hasSign]

theorem eval_setter (f v : BitVec t.bits) : (setter b).eval t.isSigned f v =
    (f &&& ~~~b.narrowMask.setWidth t.bits) ||| v <<< b.shift.toNat := by
  rw [setter, result, plain, plain, hb, Scalar.isSigned_name]
  cases hs : t.isSigned <;> simp [BitExpr.eval]

end Accessor

theorem accessorLines_texts (ht : t.isFloat = false) (hb : b.type = t.name) (className : String) :
    (accessorLines className b)[2]? =
        some ("\treturn " ++ (getter b).text t.bits (fieldName b.field)) ∧
      (accessorLines className b)[7]? = some
        ("\tp." ++ fieldName b.field ++ " = " ++ (setter b).text t.bits (fieldName b.field)) := by
  have htype := scalarType_name ht
  simp only [accessorLines, getter, setter, result, plain, hb, Scalar.isSigned_name, unsignedType,
    Scalar.bits_name, htype]
  have hstring : ∀ s : String, toString s = s := fun _ => rfl
  cases t.isSigned <;>
    simp only [BitExpr.text, BitExpr.parens, BitExpr.isBinary, hstring, if_true,
      if_neg Bool.false_ne_true, List.getElem?_cons_succ, List.getElem?_cons_zero,
      Option.some.injEq, String.append_assoc, ← String.toList_inj, String.toList_append] <;>
    exact ⟨rfl, rfl⟩

/-- The accessors that are emitted for a bit field of an integer type, and what the machine does
with it. -/
structure ComputesAlike (t : Scalar) (b : BitAccessor) : Prop where
  /-- The mask that is printed is the one cut to the width, and it can be read back. -/
  mask : b.narrowMask = b.maskValue &&& (BitVec.allOnes t.bits).setWidth 64 ∧
    IntLiteral.magnitude? (hexLiteral b.narrowMask).toList = some b.narrowMask.toNat
  shift : 0 ≤ b.shift ∧ b.shift < t.bits
  texts : ∀ className, (accessorLines className b)[2]? =
      some ("\treturn " ++ (getter b).text t.bits (fieldName b.field)) ∧
    (accessorLines className b)[7]? = some
      ("\tp." ++ fieldName b.field ++ " = " ++ (setter b).text t.bits (fieldName b.field))
  getter_eval : ∀ f v : BitVec t.bits, (getter b).eval t.isSigned f v =
    (f &&& b.narrowMask.setWidth t.bits) >>> b.shift.toNat
  setter_eval : ∀ f v : BitVec t.bits, (setter b).eval t.isSigned f v =
    (f &&& ~~~b.narrowMask.setWidth t.bits) ||| v <<< b.shift.toNat
  getBits : ∀ (p : Program) (i : Instance) (name : String) (f : BitVec t.bits),
    p.bitField i.className name = .ok b → i.uint b.field = f.setWidth 64 →
    p.getBits i name =
      .ok (((f &&& b.narrowMask.setWidth t.bits) >>> b.shift.toNat).setWidth 64)
  setBits : ∀ (p : Program) (i : Instance) (name : String) (f : BitVec t.bits) (v : Word),
    p.bitField i.className name = .ok b → i.uint b.field = f.setWidth 64 →
    i.types.get? b.field = some b.type → ∃ j, p.setBits i name v = .ok j ∧
      j.uint b.field = ((f &&& ~~~b.narrowMask.setWidth t.bits) |||
        v.setWidth t.bits <<< b.shift.toNat).setWidth 64

/-- Emitted accessors and the machine come to the same bits, whatever the mask and the value. -/
theorem computesAlike_of_mem {a : Attribute} {q : Primitive} (ht : t.isFloat = false)
    (ha : a.kind = some (.primitive q)) (hq : q.type = t.name)
    (hb : b ∈ BitAccessor.ofAttribute a) : ComputesAlike t b := by
  simp only [BitAccessor.ofAttribute, Attribute.primitive?_eq_some.mpr ha, hq] at hb
  obtain ⟨bits, -, rfl⟩ := List.mem_map.mp hb
  obtain ⟨s, hlt, hs⟩ := BitAccessor.ofBitField_shift a.name t bits
  generalize hb : BitAccessor.ofBitField a.name t.name bits = b at hs
  have htype : b.type = t.name := by rw [← hb]; rfl
  have hshift : 0 ≤ b.shift := by omega
  refine ⟨⟨BitAccessor.narrowMask_eq htype, magnitude?_hexLiteral _⟩, ⟨hshift, by omega⟩,
    accessorLines_texts ht htype, eval_getter htype, eval_setter htype, ?_, ?_⟩
  · intro p i name f hfound hf
    rw [Program.getBits_eq hfound, hf, BitAccessor.get_setWidth htype hshift]
  · intro p i name f v hfound hf hdeclared
    refine ⟨_, Program.setBits_eq hfound hdeclared v, ?_⟩
    rw [Instance.uint_setPrim, if_pos rfl, hf, BitAccessor.truncate_set_setWidth htype hshift]

namespace Dial

def level : Attribute := { name := "level", kind := some (.primitive {
  type := "int16", default := "-2", bitFields := [
    { name := "low", mask := "017" }, { name := "high", mask := "-256" }] }) }

def high : BitAccessor := {
  name := "high", field := "level", type := "int16", mask := "-256", maskValue := -256, shift := 8 }

def program : Program :=
  (Program.compile? (.gather [{ name := "Dial", attributes := [level] }]) {}).getD ⟨{}, []⟩

def dial : Instance := ((program.run [.new "Dial"]).get? 0).getD { className := "" }

theorem high_evaluated : high ∈ BitAccessor.ofAttribute level ∧
    (accessorLines "Dial" high)[2]? = some "\treturn int16((uint16(p.Level) & 0xFF00) >> 8)" ∧
    (accessorLines "Dial" high)[7]? =
      some "\tp.Level = int16((uint16(p.Level) &^ 0xFF00) | (uint16(v) << 8))" ∧
    (program.bitField dial.className "high").toOption = some high ∧
    dial.uint "level" = (0xfffe#16).setWidth 64 ∧
    (program.setBits dial "high" 0x1234).toOption.map (·.uint "level") = some 0x34fe := by
  decide +kernel

end Dial

/-- The sign is left aside while the bits are moved, and the value is cut. -/
theorem dial_computesAlike : Dial.high ∈ BitAccessor.ofAttribute Dial.level ∧
    ComputesAlike .int16 Dial.high ∧
    (accessorLines "Dial" Dial.high)[2]? =
      some "\treturn int16((uint16(p.Level) & 0xFF00) >> 8)" ∧
    (accessorLines "Dial" Dial.high)[7]? =
      some "\tp.Level = int16((uint16(p.Level) &^ 0xFF00) | (uint16(v) << 8))" ∧
    (Dial.program.bitField Dial.dial.className "high").toOption = some Dial.high ∧
    Dial.dial.uint "level" = (0xfffe#16).setWidth 64 ∧
    (Dial.program.setBits Dial.dial "high" 0x1234).toOption.map (·.uint "level") =
      some 0x34fe := by
  obtain ⟨hmem, hrest⟩ := Dial.high_evaluated
  exact ⟨hmem, computesAlike_of_mem rfl rfl rfl hmem, hrest⟩

end Target.Go

end PduCompiler
