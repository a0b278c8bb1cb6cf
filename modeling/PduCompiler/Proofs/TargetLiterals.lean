import PduCompiler.Proofs.IntLiterals
import PduCompiler.Target.Literal

/-! Integer literals in the languages of the generated code, by the same grammar with the marks of
each language. A literal keeps its value in all of them unless it has a plus and either a `#`, or in
Python an octal number other than zero: the sign stays in front of the notation of descriptions. -/

namespace PduCompiler

theorem Scalar.isFloat_name (t : Scalar) : TypeName.isFloat t.name = t.isFloat := by
  rw [TypeName.isFloat, TypeName.scalar?, ofName?_name]
  rfl

namespace IntLiteral

open Text

/-- A language in which every mark begins with a zero, so that all numbers begin with a digit. -/
def Marks.ZeroFirst (m : Marks) : Prop := ∀ mark ∈ m, mark.1.head? = some '0'

instance (m : Marks) : Decidable m.ZeroFirst := inferInstanceAs (Decidable (∀ mark ∈ m, _))

variable {m : Marks} {s : List Char} {n : Nat}

theorem Unsigned.head_digit (hm : m.ZeroFirst) (h : Unsigned m s n) :
    ∃ c rest, s = c :: rest ∧ digitValue c < 10 := by
  cases h with
  | zero => exact ⟨_, _, rfl, by decide⟩
  | decimal h _ => exact h.head (by decide)
  | marked mark base hmark _ =>
    obtain ⟨rest, rfl⟩ := List.head?_eq_some_iff.mp (hm _ hmark)
    exact ⟨_, _, rfl, by decide⟩

theorem signed_plus_iff (hm : m.ZeroFirst) : Signed m ('+' :: s) n ↔ Unsigned m s n := by
  refine ⟨fun h => ?_, .plus⟩
  generalize hz : (n : Int) = z at h
  cases h with
  | plain h =>
    obtain ⟨c, rest, hs, hc⟩ := h.head_digit hm
    obtain ⟨rfl, -⟩ := List.cons.inj hs
    exact absurd hc (by decide)
  | plus h => rwa [Int.natCast_inj.mp hz]

theorem Unsigned.head_ne_hash (hm : m.ZeroFirst) (h : Unsigned m s n) : s.head? ≠ some '#' := by
  obtain ⟨c, rest, rfl, hc⟩ := h.head_digit hm
  rintro ⟨⟩
  exact absurd hc (by decide)

theorem Unsigned.of_subset (hsub : ∀ mark ∈ marks, mark.1 ≠ ['#'] → mark ∈ m)
    (h : Unsigned marks s n) (hhash : s.head? ≠ some '#') : Unsigned m s n := by
  cases h with
  | zero => exact .zero
  | decimal h hz => exact .decimal h hz
  | marked mark base hmark h =>
    refine .marked mark base (hsub _ hmark ?_) h
    rintro ⟨⟩
    exact hhash rfl

theorem Unsigned.after_hash {digits : List Char} (h : Unsigned marks ('#' :: digits) n) :
    Numeral 16 digits n := by
  generalize hs : '#' :: digits = s at h
  cases h with
  | zero => cases hs
  | decimal h hz =>
    obtain ⟨c, rest, rfl, hc⟩ := h.head (by decide)
    obtain ⟨rfl, -⟩ := List.cons.inj hs
    exact absurd hc (by decide)
  | marked mark base hmark h =>
    simp only [marks, List.mem_cons, Prod.mk.injEq, List.not_mem_nil, or_false] at hmark
    rcases hmark with ⟨rfl, rfl⟩ | ⟨rfl, rfl⟩ | ⟨rfl, rfl⟩ | ⟨rfl, rfl⟩
    · cases hs
    · cases hs
    · cases hs
      exact h
    · cases hs

theorem Numeral.unique {base : Nat} (hb : base ≤ 16) {n' : Nat} (h : Numeral base s n)
    (h' : Numeral base s n') : n = n' := by
  obtain ⟨-, -, rfl⟩ := (numeral_iff hb).mp h
  obtain ⟨-, -, rfl⟩ := (numeral_iff hb).mp h'
  rfl

theorem Numeral.zeros {base base' : Nat} (hb : 0 < base) (hb' : 0 < base')
    (h : Numeral base s 0) : Numeral base' s 0 := by
  generalize hn : 0 = n at h
  induction h with
  | one hc =>
    subst hn
    exact .one ⟨hb', hc.2⟩
  | @more digits n v c _ hc ih =>
    obtain ⟨hprod, rfl⟩ := Nat.add_eq_zero_iff.mp hn.symm
    obtain rfl : 0 = n := ((Nat.mul_eq_zero.mp hprod).resolve_right hb.ne').symm
    have hmore := (ih rfl).more (v := 0) (c := c) ⟨hb', hc.2⟩
    rwa [Nat.zero_mul] at hmore ⊢

theorem Numeral.eq_zero (h : Numeral 1 s n) : n = 0 := by
  induction h with
  | one hc => exact Nat.lt_one_iff.mp hc.1
  | more _ hc ih => rw [ih, Nat.lt_one_iff.mp hc.1]

end IntLiteral

namespace Target

open Text IntLiteral

def goMarks : Marks :=
  [(['0', 'x'], 16), (['0', 'X'], 16), (['0', 'o'], 8), (['0', 'O'], 8), (['0'], 8),
    (['0', 'b'], 2), (['0', 'B'], 2)]

def cMarks : Marks := [(['0', 'x'], 16), (['0', 'X'], 16), (['0'], 8)]

/-- The marks of Python. A number that begins with a zero and has no letter is a row of zeros. -/
def pythonMarks : Marks :=
  [(['0'], 1), (['0', 'x'], 16), (['0', 'X'], 16), (['0', 'o'], 8), (['0', 'O'], 8),
    (['0', 'b'], 2), (['0', 'B'], 2)]

def PlusHash (literal : String) : Prop := ∃ digits, Trims literal.toList ('+' :: '#' :: digits)

def PlusOctal (literal : String) : Prop :=
  ∃ digits n, Trims literal.toList ('+' :: '0' :: digits) ∧ Numeral 8 digits n ∧ n ≠ 0

theorem plusHash_iff {literal : String} {text : List Char} (h : Trims literal.toList text) :
    PlusHash literal ↔ ∃ digits, text = '+' :: '#' :: digits := by
  simp only [PlusHash, trims_iff, trims_iff.mp h]

theorem plusOctal_iff {literal : String} {text : List Char} (h : Trims literal.toList text) :
    PlusOctal literal ↔ ∃ digits n, text = '+' :: '0' :: digits ∧ Numeral 8 digits n ∧ n ≠ 0 := by
  simp only [PlusOctal, trims_iff, trims_iff.mp h]

theorem withHexSign_of_head {s : String} (hhash : s.toList.head? ≠ some '#')
    (hminus : ∀ digits, s.toList ≠ '-' :: '#' :: digits) : withHexSign s = s := by
  unfold withHexSign
  split
  · next digits hs => simp [hs] at hhash
  · next digits hs => exact (hminus digits hs).elim
  · rfl

theorem signed_withHexSign_iff {m : Marks} (hm : m.ZeroFirst) (hx : (['0', 'x'], 16) ∈ m)
    (hsub : ∀ mark ∈ marks, mark.1 ≠ ['#'] → mark ∈ m) {s : String} {z : Int}
    (h : Signed marks s.toList z) :
    Signed m (withHexSign s).toList z ↔ ¬ ∃ digits, s.toList = '+' :: '#' :: digits := by
  generalize hs : s.toList = text at h
  cases h with
  | plain hu =>
    have hplus : ¬ ∃ digits, text = '+' :: '#' :: digits := by
      rintro ⟨digits, rfl⟩
      exact hu.head.1 rfl
    refine iff_of_true ?_ hplus
    by_cases hhash : text.head? = some '#'
    · obtain ⟨digits, rfl⟩ := List.head?_eq_some_iff.mp hhash
      have hout : (withHexSign s).toList = ['0', 'x'] ++ digits := by simp [withHexSign, hs]
      rw [hout]
      exact .plain (.marked _ 16 hx hu.after_hash)
    · have hminus : ∀ digits, text ≠ '-' :: '#' :: digits := by
        rintro digits rfl
        exact hu.head.2 rfl
      rw [withHexSign_of_head (hs ▸ hhash) (hs ▸ hminus), hs]
      exact .plain (hu.of_subset hsub hhash)
  | @plus rest n hu =>
    rw [withHexSign_of_head (by simp [hs]) (by simp [hs]), hs, signed_plus_iff hm]
    by_cases hhash : rest.head? = some '#'
    · obtain ⟨digits, rfl⟩ := List.head?_eq_some_iff.mp hhash
      exact iff_of_false (fun hn => hn.head_ne_hash hm rfl) fun hnot => hnot ⟨digits, rfl⟩
    · refine iff_of_true (hu.of_subset hsub hhash) ?_
      rintro ⟨digits, hrest⟩
      exact hhash (by rw [(List.cons.inj hrest).2]; rfl)
  | @minus rest n hu =>
    refine iff_of_true ?_ (by simp)
    by_cases hhash : rest.head? = some '#'
    · obtain ⟨digits, rfl⟩ := List.head?_eq_some_iff.mp hhash
      have hout : (withHexSign s).toList = '-' :: (['0', 'x'] ++ digits) := by
        simp [withHexSign, hs]
      rw [hout]
      exact .minus (.marked _ 16 hx hu.after_hash)
    · have hminus : ∀ digits, '-' :: rest ≠ '-' :: '#' :: digits := by
        rintro digits ⟨⟩
        exact hhash rfl
      rw [withHexSign_of_head (by simp [hs]) (hs ▸ hminus), hs]
      exact .minus (hu.of_subset hsub hhash)

theorem unsigned_pythonDigits {s : List Char} {n : Nat} (h : Unsigned marks s n) :
    Unsigned pythonMarks (pythonDigits s) n := by
  cases h with
  | zero => exact .zero
  | decimal h hz =>
    obtain ⟨c, rest, rfl, hc⟩ := h.head (by decide)
    have hhash : c ≠ '#' := by rintro rfl; exact absurd hc (by decide)
    have hzero : c ≠ '0' := by simpa using hz
    have hout : pythonDigits (c :: rest) = c :: rest := by simp [pythonDigits, hhash, hzero]
    rw [hout]
    exact .decimal h hz
  | marked mark base hmark h =>
    simp only [marks, List.mem_cons, Prod.mk.injEq, List.not_mem_nil, or_false] at hmark
    rcases hmark with ⟨rfl, rfl⟩ | ⟨rfl, rfl⟩ | ⟨rfl, rfl⟩ | ⟨rfl, rfl⟩
    · exact .marked ['0', 'x'] 16 (by decide) h
    · exact .marked ['0', 'X'] 16 (by decide) h
    · exact .marked ['0', 'x'] 16 (by decide) h
    · obtain ⟨c, rest, rfl, hc⟩ := h.head (by decide)
      have hx : c ≠ 'x' := by rintro rfl; exact absurd hc (by decide)
      have hX : c ≠ 'X' := by rintro rfl; exact absurd hc (by decide)
      have hout : pythonDigits (['0'] ++ c :: rest) = ['0', 'o'] ++ c :: rest := by
        simp [pythonDigits, hx, hX]
      rw [hout]
      exact .marked _ 8 (by decide) h

/-- A number of descriptions is one of Python unless it has a `#` or is an octal number other than
zero. -/
theorem unsigned_python_iff {s : List Char} {n : Nat} (h : Unsigned marks s n) :
    Unsigned pythonMarks s n ↔ s.head? ≠ some '#' ∧
      ¬ ∃ digits k, s = '0' :: digits ∧ Numeral 8 digits k ∧ k ≠ 0 := by
  constructor
  · intro hp
    refine ⟨hp.head_ne_hash (by decide), ?_⟩
    rintro ⟨digits, k, rfl, hk, hne⟩
    obtain ⟨c, rest, rfl, hc⟩ := hk.head (by decide)
    generalize hs : '0' :: c :: rest = s at hp
    cases hp with
    | zero => cases hs
    | decimal _ hz => exact hz (by rw [← hs]; rfl)
    | marked mark base hmark hn =>
      -- an octal digit is no letter, so the mark is the zero alone
      simp only [pythonMarks, List.mem_cons, Prod.mk.injEq, List.not_mem_nil, or_false] at hmark
      rcases hmark with ⟨rfl, rfl⟩ | hletter
      · cases hs
        obtain rfl := hn.eq_zero
        exact hne (hk.unique (by decide) (hn.zeros (by decide) (by decide)))
      · rcases hletter with ⟨rfl, -⟩ | ⟨rfl, -⟩ | ⟨rfl, -⟩ | ⟨rfl, -⟩ | ⟨rfl, -⟩ | ⟨rfl, -⟩
        all_goals
          cases hs
          exact absurd hc (by decide)
  · rintro ⟨hhash, hoctal⟩
    cases h with
    | zero => exact .zero
    | decimal h hz => exact .decimal h hz
    | marked mark base hmark h =>
      simp only [marks, List.mem_cons, Prod.mk.injEq, List.not_mem_nil, or_false] at hmark
      rcases hmark with ⟨rfl, rfl⟩ | ⟨rfl, rfl⟩ | ⟨rfl, rfl⟩ | ⟨rfl, rfl⟩
      · exact .marked ['0', 'x'] 16 (by decide) h
      · exact .marked ['0', 'X'] 16 (by decide) h
      · exact (hhash rfl).elim
      · by_cases hn : n = 0
        · subst hn
          exact .marked ['0'] 1 (by decide) (h.zeros (by decide) (by decide))
        · exact (hoctal ⟨_, n, rfl, h, hn⟩).elim

theorem decode?_of_readLiteral {type : Scalar} (hint : type.isFloat = false) {literal : String}
    {w : Word} (h : TypeName.readLiteral type.name literal = .ok w) :
    ∃ v, IntLiteral.decode? literal = some v ∧ w = TypeName.truncate type.name v := by
  have htwice : IntLiteral.decode? (trim literal) = IntLiteral.decode? literal := by
    rw [decode?, decode?, trim, String.toList_ofList,
      trims_iff.mp (trims_trimChars literal.toList).self]
  rw [TypeName.readLiteral, Scalar.isFloat_name, hint, htwice] at h
  cases hv : IntLiteral.decode? literal with
  | none => simp [hv] at h
  | some v => exact ⟨v, rfl, by simpa [hv] using h.symm⟩

theorem goLiteral_of_int {type : Scalar} (hint : type.isFloat = false) (literal : String) :
    goLiteral type.name literal = withHexSign (trim literal) := by
  simp [goLiteral, Scalar.isFloat_name, hint]

theorem cLiteral_of_int {type : Scalar} (hint : type.isFloat = false) (literal : String) :
    cLiteral type.name literal = withHexSign (trim literal) := by
  have hname : (type.name == Scalar.float32.name) = false := by
    cases type <;> first | decide | cases hint
  simp [cLiteral, Scalar.isFloat_name, hint, hname]

theorem signed_pythonLiteral_iff {type : Scalar} (hint : type.isFloat = false) {literal : String}
    {text : List Char} (htrim : Trims literal.toList text) {z : Int} (h : Signed marks text z) :
    Signed pythonMarks (pythonLiteral type.name literal).toList z ↔
      ¬ PlusHash literal ∧ ¬ PlusOctal literal := by
  rw [plusHash_iff htrim, plusOctal_iff htrim]
  have htext : (trim literal).toList = text := by
    rw [trim, trims_iff.mp htrim, String.toList_ofList]
  cases h with
  | plain hu =>
    have hout : (pythonLiteral type.name literal).toList = pythonDigits text := by
      have hminus : ∀ rest, text ≠ '-' :: rest := by
        rintro rest rfl
        exact hu.head.2 rfl
      simp [pythonLiteral, Scalar.isFloat_name, hint, htext]
    have hplus : ∀ rest, text ≠ '+' :: rest := by
      rintro rest rfl
      exact hu.head.1 rfl
    rw [hout]
    exact iff_of_true (.plain (unsigned_pythonDigits hu)) (by simp [hplus])
  | @plus rest n hu =>
    have hout : (pythonLiteral type.name literal).toList = '+' :: rest := by
      simp [pythonLiteral, Scalar.isFloat_name, hint, htext, pythonDigits]
    rw [hout, signed_plus_iff (by decide), unsigned_python_iff hu]
    simp only [ne_eq, List.head?_eq_some_iff, List.cons.injEq, true_and]
  | @minus rest n hu =>
    have hout : (pythonLiteral type.name literal).toList = '-' :: pythonDigits rest := by
      simp [pythonLiteral, Scalar.isFloat_name, hint, htext]
    rw [hout]
    exact iff_of_true (.minus (unsigned_pythonDigits hu)) (by simp)

/-- An integer literal that is read keeps its value in Go and C unless it has a plus before `#`, and
in Python unless it has a plus before `#` or before an octal number other than zero. -/
theorem emitted_denotes_iff {type : Scalar} (hint : type.isFloat = false) {literal : String}
    {w : Word} (h : TypeName.readLiteral type.name literal = .ok w) :
    ∃ z, Denotes literal z ∧ z.natAbs < 2 ^ 64 ∧
      w = TypeName.truncate type.name (BitVec.ofInt 64 z) ∧
      (Signed goMarks (goLiteral type.name literal).toList z ↔ ¬ PlusHash literal) ∧
      (Signed cMarks (cLiteral type.name literal).toList z ↔ ¬ PlusHash literal) ∧
      (Signed pythonMarks (pythonLiteral type.name literal).toList z ↔
        ¬ PlusHash literal ∧ ¬ PlusOctal literal) := by
  obtain ⟨w, hw, rfl⟩ := decode?_of_readLiteral hint h
  obtain ⟨z, hz⟩ := denotes_of_decode? hw
  obtain ⟨hlt, hw⟩ := Option.ite_none_right_eq_some.mp (hz.decode?.symm.trans hw)
  obtain rfl := Option.some.inj hw
  obtain ⟨text, htrim, hsigned⟩ := hz
  have htext : (trim literal).toList = text := by
    rw [trim, trims_iff.mp htrim, String.toList_ofList]
  refine ⟨z, ⟨text, htrim, hsigned⟩, hlt, rfl, ?_, ?_, signed_pythonLiteral_iff hint htrim hsigned⟩
  · rw [goLiteral_of_int hint, plusHash_iff htrim, ← htext]
    exact signed_withHexSign_iff (by decide) (by decide) (by decide) (htext ▸ hsigned)
  · rw [cLiteral_of_int hint, plusHash_iff htrim, ← htext]
    exact signed_withHexSign_iff (by decide) (by decide) (by decide) (htext ▸ hsigned)

/-- A negative octal number is one in each language, with a plus it is none of Python, and a plus
before `#` is kept by all. -/
theorem emitted_denotes_at_signs :
    (Scalar.int8.isFloat = false ∧
      TypeName.readLiteral Scalar.int8.name "-017" = .ok 0xf1 ∧
      TypeName.readLiteral Scalar.int8.name "+017" = .ok 0x0f ∧
      TypeName.readLiteral Scalar.int8.name " +#1F" = .ok 0x1f) ∧
    (∃ z, Denotes "-017" z ∧ Signed goMarks (goLiteral Scalar.int8.name "-017").toList z ∧
      Signed cMarks (cLiteral Scalar.int8.name "-017").toList z ∧
      Signed pythonMarks (pythonLiteral Scalar.int8.name "-017").toList z) ∧
    (∃ z, Denotes "+017" z ∧ Signed goMarks (goLiteral Scalar.int8.name "+017").toList z ∧
      ¬ Signed pythonMarks (pythonLiteral Scalar.int8.name "+017").toList z) ∧
    ∃ z, Denotes " +#1F" z ∧ ¬ Signed goMarks (goLiteral Scalar.int8.name " +#1F").toList z ∧
      ¬ Signed cMarks (cLiteral Scalar.int8.name " +#1F").toList z ∧
      ¬ Signed pythonMarks (pythonLiteral Scalar.int8.name " +#1F").toList z := by
  have hminus : TypeName.readLiteral Scalar.int8.name "-017" = .ok 0xf1 := by decide
  have hoctal : TypeName.readLiteral Scalar.int8.name "+017" = .ok 0x0f := by decide
  have hhash : TypeName.readLiteral Scalar.int8.name " +#1F" = .ok 0x1f := by decide
  refine ⟨⟨by decide, hminus, hoctal, hhash⟩, ?_, ?_, ?_⟩
  · have htrim : Trims "-017".toList "-017".toList := trims_iff.mpr (by decide)
    have hno : ¬ PlusHash "-017" := by simp [plusHash_iff htrim]
    obtain ⟨z, hz, -, -, hgo, hc, hpython⟩ := emitted_denotes_iff (by decide) hminus
    exact ⟨z, hz, hgo.mpr hno, hc.mpr hno, hpython.mpr ⟨hno, by simp [plusOctal_iff htrim]⟩⟩
  · have htrim : Trims "+017".toList "+017".toList := trims_iff.mpr (by decide)
    have hno : ¬ PlusHash "+017" := by simp [plusHash_iff htrim]
    have hfifteen : Numeral 8 ['1', '7'] 15 := numeral_of_all (by decide) (by decide)
    obtain ⟨z, hz, -, -, hgo, -, hpython⟩ := emitted_denotes_iff (by decide) hoctal
    exact ⟨z, hz, hgo.mpr hno,
      fun hs => (hpython.mp hs).2 ⟨['1', '7'], 15, htrim, hfifteen, by decide⟩⟩
  · have hyes : PlusHash " +#1F" := ⟨['1', 'F'], trims_iff.mpr (by decide)⟩
    obtain ⟨z, hz, -, -, hgo, hc, hpython⟩ := emitted_denotes_iff (by decide) hhash
    exact ⟨z, hz, fun hs => hgo.mp hs hyes, fun hs => hc.mp hs hyes,
      fun hs => (hpython.mp hs).1 hyes⟩

end Target

end PduCompiler
