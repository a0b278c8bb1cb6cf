import Mathlib.Data.List.Induction
import Mathlib.Data.List.TakeWhile
import Mathlib.Tactic.IntervalCases
import PduCompiler.Number.IntLiteral

/-! Integer literals by a grammar with values: an optional sign, then a mark of the base and digits.
Decoding accepts exactly the literals of this grammar whose magnitude is below `2 ^ 64`, and gives
their value modulo `2 ^ 64`. -/

namespace PduCompiler

namespace Text

def Trims (s body : List Char) : Prop :=
  (∃ front back, s = front ++ body ++ back ∧ (∀ c ∈ front, isBlank c = true) ∧
    ∀ c ∈ back, isBlank c = true) ∧
  (∀ c ∈ body.head?, isBlank c = false) ∧ ∀ c ∈ body.getLast?, isBlank c = false

theorem dropWhile_eq_self {p : Char → Bool} {l : List Char} (h : ∀ c ∈ l.head?, p c = false) :
    l.dropWhile p = l := by
  cases l with
  | nil => rfl
  | cons c l => exact List.dropWhile_cons_of_neg (by simpa using h c rfl)

theorem head?_dropWhile {p : Char → Bool} {l : List Char} {c : Char}
    (h : c ∈ (l.dropWhile p).head?) : p c = false := by
  have hnot := List.head?_dropWhile_not p l
  rwa [Option.mem_def.mp h] at hnot

theorem trimChars_of_trims {s body : List Char} (h : Trims s body) : trimChars s = body := by
  obtain ⟨⟨front, back, rfl, hfront, hback⟩, hhead, hlast⟩ := h
  rw [trimChars, dropEndWhile, List.append_assoc, List.dropWhile_append_of_pos hfront]
  cases body with
  | nil =>
    have hnil : back.dropWhile isBlank = [] := List.dropWhile_eq_nil_iff.mpr hback
    simp [hnil]
  | cons c body =>
    rw [dropWhile_eq_self (l := c :: body ++ back) (by simpa using hhead), List.reverse_append,
      List.dropWhile_append_of_pos (by simpa using hback),
      dropWhile_eq_self (by rwa [List.head?_reverse]), List.reverse_reverse]

theorem trims_trimChars (s : List Char) : Trims s (trimChars s) := by
  -- the text from its first character that is no blank on, and what is cut from its end
  have hend : s.dropWhile isBlank =
      trimChars s ++ ((s.dropWhile isBlank).reverse.takeWhile isBlank).reverse := by
    rw [trimChars, dropEndWhile, ← List.reverse_append, List.takeWhile_append_dropWhile,
      List.reverse_reverse]
  refine ⟨⟨s.takeWhile isBlank, ((s.dropWhile isBlank).reverse.takeWhile isBlank).reverse, ?_,
    fun c hc => ?_, fun c hc => ?_⟩, fun c hc => ?_, fun c hc => ?_⟩
  · rw [List.append_assoc, ← hend, List.takeWhile_append_dropWhile]
  · exact List.mem_takeWhile_imp hc
  · exact List.mem_takeWhile_imp (List.mem_reverse.mp hc)
  · refine head?_dropWhile (l := s) ?_
    rw [hend, List.head?_append, Option.mem_def.mp hc]
    rfl
  · rw [trimChars, dropEndWhile, List.getLast?_reverse] at hc
    exact head?_dropWhile hc

theorem Trims.self {s body : List Char} (h : Trims s body) : Trims body body :=
  ⟨⟨[], [], by simp⟩, h.2⟩

theorem trims_iff {s body : List Char} : Trims s body ↔ trimChars s = body :=
  ⟨trimChars_of_trims, fun h => h ▸ trims_trimChars s⟩

end Text

namespace IntLiteral

open Text

def lowerDigits : List Char := "0123456789abcdef".toList

def upperDigits : List Char := "0123456789ABCDEF".toList

def Digit (base : Nat) (c : Char) (v : Nat) : Prop :=
  v < base ∧ (lowerDigits[v]? = some c ∨ upperDigits[v]? = some c)

/-- One or more digits of a base, the first of which counts most, with the number they denote. -/
inductive Numeral (base : Nat) : List Char → Nat → Prop
  | one {c : Char} {v : Nat} (hc : Digit base c v) : Numeral base [c] v
  | more {digits : List Char} {n v : Nat} {c : Char} (h : Numeral base digits n)
      (hc : Digit base c v) : Numeral base (digits ++ [c]) (n * base + v)

abbrev Marks := List (List Char × Nat)

/-- A number without a sign: digits after a mark, a single zero, or a decimal number that does not
start with a zero. -/
inductive Unsigned (marks : Marks) : List Char → Nat → Prop
  | marked (mark : List Char) (base : Nat) {digits : List Char} {n : Nat}
      (hm : (mark, base) ∈ marks) (h : Numeral base digits n) : Unsigned marks (mark ++ digits) n
  | zero : Unsigned marks ['0'] 0
  | decimal {digits : List Char} {n : Nat} (h : Numeral 10 digits n)
      (hz : digits.head? ≠ some '0') : Unsigned marks digits n

inductive Signed (marks : Marks) : List Char → Int → Prop
  | plain {s : List Char} {n : Nat} (h : Unsigned marks s n) : Signed marks s n
  | plus {s : List Char} {n : Nat} (h : Unsigned marks s n) : Signed marks ('+' :: s) n
  | minus {s : List Char} {n : Nat} (h : Unsigned marks s n) : Signed marks ('-' :: s) (-n)

def marks : Marks := [(['0', 'x'], 16), (['0', 'X'], 16), (['#'], 16), (['0'], 8)]

def Denotes (s : String) (z : Int) : Prop := ∃ body, Trims s.toList body ∧ Signed marks body z

theorem toNat_between {a b c : Char} (h : (decide (a ≤ c) && decide (c ≤ b)) = true) :
    a.toNat ≤ c.toNat ∧ c.toNat ≤ b.toNat := by
  rwa [Bool.and_eq_true, decide_eq_true_eq, decide_eq_true_eq, Char.le_def, Char.le_def,
    UInt32.le_iff_toNat_le, UInt32.le_iff_toNat_le] at h

theorem digitValue_eq_iff {c : Char} {v : Nat} (hv : v < 16) :
    digitValue c = v ↔ lowerDigits[v]? = some c ∨ upperDigits[v]? = some c := by
  constructor
  · intro h
    -- the character is found from its code
    have hcode : ∀ n, c.toNat = n → c = Char.ofNat n := by
      rintro n rfl
      exact (Char.ofNat_toNat c).symm
    unfold digitValue at h
    split at h
    · next hc =>
      obtain ⟨hlo, hhi⟩ := toNat_between hc
      simp only [show '0'.toNat = 48 from rfl, show '9'.toNat = 57 from rfl] at h hlo hhi
      have hten : v < 10 := by omega
      rw [hcode (v + 48) (by omega)]
      interval_cases v <;> decide
    split at h
    · next hc =>
      obtain ⟨hlo, hhi⟩ := toNat_between hc
      simp only [show 'a'.toNat = 97 from rfl] at h hlo
      have hten : 10 ≤ v := by omega
      rw [hcode (v + 87) (by omega)]
      interval_cases v <;> decide
    split at h
    · next hc =>
      obtain ⟨hlo, hhi⟩ := toNat_between hc
      simp only [show 'A'.toNat = 65 from rfl] at h hlo
      have hten : 10 ≤ v := by omega
      rw [hcode (v + 55) (by omega)]
      interval_cases v <;> decide
    · omega
  · interval_cases v <;> rintro (h | h) <;> cases h <;> decide

theorem digit_iff {base : Nat} (hb : base ≤ 16) {c : Char} {v : Nat} :
    Digit base c v ↔ digitValue c = v ∧ v < base := by
  rw [Digit, and_comm, and_congr_left_iff]
  exact fun hv => (digitValue_eq_iff (by omega)).symm

theorem valueOf_append (base : Nat) (digits : List Char) (c : Char) :
    valueOf base (digits ++ [c]) = valueOf base digits * base + digitValue c := by
  simp [valueOf]

theorem numeral_iff {base : Nat} (hb : base ≤ 16) {digits : List Char} {n : Nat} :
    Numeral base digits n ↔
      digits ≠ [] ∧ (∀ c ∈ digits, digitValue c < base) ∧ valueOf base digits = n := by
  constructor
  · intro h
    induction h with
    | one hc =>
      obtain ⟨rfl, hv⟩ := (digit_iff hb).mp hc
      simpa [valueOf] using hv
    | more _ hc ih =>
      obtain ⟨-, hdigits, rfl⟩ := ih
      obtain ⟨rfl, hv⟩ := (digit_iff hb).mp hc
      refine ⟨by simp, fun d hd => ?_, valueOf_append _ _ _⟩
      rcases List.mem_append.mp hd with hd | hd
      · exact hdigits d hd
      · rwa [List.mem_singleton.mp hd]
  · rintro ⟨hne, hdigits, rfl⟩
    induction digits using List.reverseRecOn with
    | nil => exact (hne rfl).elim
    | append_singleton digits c ih =>
      have hc : Digit base c (digitValue c) := (digit_iff hb).mpr ⟨rfl, hdigits c (by simp)⟩
      by_cases hnil : digits = []
      · subst hnil
        simpa [valueOf] using Numeral.one hc
      · rw [valueOf_append]
        exact .more (ih hnil fun d hd => hdigits d (by simp [hd])) hc

theorem numeral_of_all {base : Nat} (hb : base ≤ 16) {digits : List Char} {n : Nat}
    (h : digits ≠ [] ∧ digits.all (digitValue · < base) = true ∧ valueOf base digits = n) :
    Numeral base digits n :=
  (numeral_iff hb).mpr ⟨h.1, by simpa using h.2.1, h.2.2⟩

theorem Numeral.head {base : Nat} (hb : base ≤ 16) {digits : List Char} {n : Nat}
    (h : Numeral base digits n) : ∃ c rest, digits = c :: rest ∧ digitValue c < base := by
  obtain ⟨hne, hdigits, -⟩ := (numeral_iff hb).mp h
  obtain ⟨c, rest, rfl⟩ := List.exists_cons_of_ne_nil hne
  exact ⟨c, rest, rfl, hdigits c List.mem_cons_self⟩

theorem Numeral.unsigned? {base : Nat} (hb : base ≤ 16) {digits : List Char} {n : Nat}
    (h : Numeral base digits n) :
    IntLiteral.unsigned? base digits = if n < 2 ^ 64 then some n else none := by
  obtain ⟨hne, hdigits, rfl⟩ := (numeral_iff hb).mp h
  have hgood : (digits.isEmpty || digits.any fun c => base ≤ digitValue c) = false := by
    simpa [hne] using hdigits
  simp [IntLiteral.unsigned?, hgood]

theorem numeral_of_unsigned? {base : Nat} (hb : base ≤ 16) {digits : List Char} {n : Nat}
    (h : unsigned? base digits = some n) : Numeral base digits n := by
  unfold unsigned? at h
  split at h
  · cases h
  · next hgood =>
    obtain ⟨-, hn⟩ := Option.ite_none_right_eq_some.mp h
    have hdigits : digits ≠ [] ∧ ∀ c ∈ digits, digitValue c < base := by simpa using hgood
    exact (numeral_iff hb).mpr ⟨hdigits.1, hdigits.2, Option.some.inj hn⟩

theorem Unsigned.magnitude? {s : List Char} {n : Nat} (h : Unsigned marks s n) :
    IntLiteral.magnitude? s = if n < 2 ^ 64 then some n else none := by
  cases h with
  | zero => decide
  | marked mark base hm h =>
    simp only [marks, List.mem_cons, Prod.mk.injEq, List.not_mem_nil, or_false] at hm
    rcases hm with ⟨rfl, rfl⟩ | ⟨rfl, rfl⟩ | ⟨rfl, rfl⟩ | ⟨rfl, rfl⟩
    · exact h.unsigned? (by decide)
    · exact h.unsigned? (by decide)
    · exact h.unsigned? (by decide)
    · -- an octal digit is no `x`, so the zero before it is no part of another mark
      obtain ⟨c, rest, rfl, hc⟩ := h.head (by decide)
      rw [← h.unsigned? (by decide)]
      have hx : c ≠ 'x' := by rintro rfl; exact absurd hc (by decide)
      have hX : c ≠ 'X' := by rintro rfl; exact absurd hc (by decide)
      simp [IntLiteral.magnitude?]
  | decimal h hz =>
    obtain ⟨c, rest, rfl, hc⟩ := h.head (by decide)
    rw [← h.unsigned? (by decide)]
    have hhash : c ≠ '#' := by rintro rfl; exact absurd hc (by decide)
    have hzero : c ≠ '0' := by simpa using hz
    simp [IntLiteral.magnitude?, hhash, hzero]

theorem unsigned_of_magnitude? {s : List Char} {n : Nat} (h : magnitude? s = some n) :
    Unsigned marks s n := by
  unfold magnitude? at h
  split at h
  · exact .marked ['0', 'x'] 16 (by decide) (numeral_of_unsigned? (by decide) h)
  · exact .marked ['0', 'X'] 16 (by decide) (numeral_of_unsigned? (by decide) h)
  · exact .marked ['#'] 16 (by decide) (numeral_of_unsigned? (by decide) h)
  · exact .marked ['0'] 8 (by decide) (numeral_of_unsigned? (by decide) h)
  · next hx hX hhash hzero =>
    have hn := numeral_of_unsigned? (by decide) h
    by_cases hs : s = ['0']
    · subst hs
      have hzero : unsigned? 10 ['0'] = some 0 := by decide
      obtain rfl : 0 = n := Option.some.inj (hzero.symm.trans h)
      exact .zero
    · refine .decimal hn fun hhead => ?_
      obtain ⟨rest, rfl⟩ := List.head?_eq_some_iff.mp hhead
      cases rest with
      | nil => exact hs rfl
      | cons c rest => exact hzero c rest rfl

theorem Unsigned.head {s : List Char} {n : Nat} (h : Unsigned marks s n) :
    s.head? ≠ some '+' ∧ s.head? ≠ some '-' := by
  cases h with
  | zero => decide
  | marked mark base hm _ =>
    simp only [marks, List.mem_cons, Prod.mk.injEq, List.not_mem_nil, or_false] at hm
    rcases hm with ⟨rfl, -⟩ | ⟨rfl, -⟩ | ⟨rfl, -⟩ | ⟨rfl, -⟩ <;> simp
  | decimal h _ =>
    obtain ⟨c, rest, rfl, hc⟩ := h.head (by decide)
    constructor <;> rintro ⟨⟩ <;> exact absurd hc (by decide)

theorem Signed.decodeChars? {s : List Char} {z : Int} (h : Signed marks s z) :
    IntLiteral.decodeChars? s = if z.natAbs < 2 ^ 64 then some (BitVec.ofInt 64 z) else none := by
  cases h with
  | @plain _ n h =>
    have hhead := h.head
    have hrest : IntLiteral.decodeChars? s = (IntLiteral.magnitude? s).map (BitVec.ofNat 64) := by
      unfold IntLiteral.decodeChars?
      split
      · simp at hhead
      · simp at hhead
      · rfl
    rw [hrest, h.magnitude?, Int.natAbs_natCast, apply_ite (Option.map _), BitVec.ofInt_natCast]
    rfl
  | @plus s n h =>
    rw [IntLiteral.decodeChars?, h.magnitude?, Int.natAbs_natCast, apply_ite (Option.map _),
      BitVec.ofInt_natCast]
    rfl
  | @minus s n h =>
    rw [IntLiteral.decodeChars?, h.magnitude?, Int.natAbs_neg, Int.natAbs_natCast,
      apply_ite (Option.map _), BitVec.ofInt_neg, BitVec.ofInt_natCast]
    rfl

theorem signed_of_decodeChars? {s : List Char} {w : Word} (h : decodeChars? s = some w) :
    ∃ z, Signed marks s z := by
  unfold decodeChars? at h
  split at h
  all_goals obtain ⟨n, hn, -⟩ := Option.map_eq_some_iff.mp h
  · exact ⟨_, .minus (unsigned_of_magnitude? hn)⟩
  · exact ⟨_, .plus (unsigned_of_magnitude? hn)⟩
  · exact ⟨_, .plain (unsigned_of_magnitude? hn)⟩

theorem Denotes.decode? {s : String} {z : Int} (h : Denotes s z) :
    IntLiteral.decode? s = if z.natAbs < 2 ^ 64 then some (BitVec.ofInt 64 z) else none := by
  obtain ⟨body, htrim, hsigned⟩ := h
  rw [IntLiteral.decode?, trims_iff.mp htrim, hsigned.decodeChars?]

theorem denotes_of_decode? {s : String} {w : Word} (h : decode? s = some w) :
    ∃ z, Denotes s z := by
  obtain ⟨z, hz⟩ := signed_of_decodeChars? h
  exact ⟨z, _, trims_trimChars _, hz⟩

theorem numeral_toDigits {base : Nat} (hlt : 1 < base) (hb : base ≤ 16) {letter : Char → Char}
    (hletter : ∀ d < base, digitValue (letter d.digitChar) = d) (n : Nat) :
    Numeral base ((Nat.toDigits base n).map letter) n := by
  have hdigit : ∀ d < base, Digit base (letter d.digitChar) d :=
    fun d hd => (digit_iff hb).mpr ⟨hletter d hd, hd⟩
  induction n using Nat.strongRecOn with
  | ind n ih =>
    rw [Nat.toDigits_eq_if hlt]
    by_cases hn : n < base
    · rw [if_pos hn]
      exact .one (hdigit n hn)
    · rw [if_neg hn, List.map_append, List.map_singleton]
      have hrec := ih (n / base) (Nat.div_lt_self (by omega) hlt)
      have hmore := hrec.more (hdigit (n % base) (Nat.mod_lt n (by omega)))
      rwa [Nat.div_add_mod'] at hmore

def spellings (n : Nat) : List String :=
  [Nat.repr n, "0x" ++ String.ofList (Nat.toDigits 16 n), "#" ++ String.ofList (Nat.toDigits 16 n),
    "0" ++ String.ofList (Nat.toDigits 8 n)]

theorem head?_toDigits {base : Nat} (hlt : 1 < base) {n : Nat} (hn : n ≠ 0) :
    (Nat.toDigits base n).head? ≠ some '0' := by
  induction n using Nat.strongRecOn with
  | ind n ih =>
    rw [Nat.toDigits_eq_if hlt]
    split
    · simpa using hn
    · next hle =>
      have hpos : n / base ≠ 0 := (Nat.div_pos (by omega) (by omega)).ne'
      have hrec := ih (n / base) (Nat.div_lt_self (by omega) hlt) hpos
      rwa [List.head?_append, Option.or_of_isSome (by simp [Nat.toDigits_ne_nil])]

theorem unsigned_spellings {n : Nat} {s : String} (h : s ∈ spellings n) :
    Unsigned marks s.toList n := by
  have hnumeral : ∀ base, 1 < base → base ≤ 16 →
      (∀ d < base, digitValue (id d.digitChar) = d) → Numeral base (Nat.toDigits base n) n := by
    intro base hlt hb hd
    simpa using numeral_toDigits hlt hb hd n
  have hdecimal := hnumeral 10 (by decide) (by decide) (by decide)
  have hoctal := hnumeral 8 (by decide) (by decide) (by decide)
  have hhex := hnumeral 16 (by decide) (by decide) (by decide)
  simp only [spellings, List.mem_cons, List.not_mem_nil, or_false] at h
  rcases h with rfl | rfl | rfl | rfl
  · rw [Nat.toList_repr]
    by_cases hn : n = 0
    · subst hn
      exact .zero
    · exact .decimal hdecimal (head?_toDigits (by decide) hn)
  · rw [String.toList_append, String.toList_ofList (l := Nat.toDigits 16 n)]
    exact .marked ['0', 'x'] 16 (by decide) hhex
  · rw [String.toList_append, String.toList_ofList (l := Nat.toDigits 16 n)]
    exact .marked ['#'] 16 (by decide) hhex
  · rw [String.toList_append, String.toList_ofList (l := Nat.toDigits 8 n)]
    exact .marked ['0'] 8 (by decide) hoctal

theorem Numeral.not_blank {base : Nat} {digits : List Char} {n : Nat} (h : Numeral base digits n) :
    ∀ c ∈ digits, isBlank c = false := by
  have hlower : lowerDigits.all (!isBlank ·) = true := by decide
  have hupper : upperDigits.all (!isBlank ·) = true := by decide
  have hdigit : ∀ {c v}, Digit base c v → isBlank c = false := by
    rintro c v ⟨-, h | h⟩
    · simpa using List.all_eq_true.mp hlower c (List.mem_of_getElem? h)
    · simpa using List.all_eq_true.mp hupper c (List.mem_of_getElem? h)
  induction h with
  | one hc => simpa using hdigit hc
  | more _ hc ih => simpa [or_imp, forall_and] using ⟨ih, hdigit hc⟩

theorem Unsigned.not_blank {s : List Char} {n : Nat} (h : Unsigned marks s n) :
    ∀ c ∈ s, isBlank c = false := by
  cases h with
  | zero =>
    intro c hc
    rw [List.mem_singleton.mp hc]
    decide
  | decimal h _ => exact h.not_blank
  | marked mark base hm h =>
    have hmarks : marks.all (·.1.all (!isBlank ·)) = true := by decide
    intro c hc
    rcases List.mem_append.mp hc with hc | hc
    · simpa using List.all_eq_true.mp (List.all_eq_true.mp hmarks _ hm) c hc
    · exact h.not_blank c hc

theorem Signed.trims {s : List Char} {z : Int} (h : Signed marks s z) : Trims s s := by
  have hall : ∀ c ∈ s, isBlank c = false := by
    cases h with
    | plain h => exact h.not_blank
    | plus h => exact List.forall_mem_cons.mpr ⟨by decide, h.not_blank⟩
    | minus h => exact List.forall_mem_cons.mpr ⟨by decide, h.not_blank⟩
  exact ⟨⟨[], [], by simp⟩, fun c hc => hall c (List.mem_of_mem_head? hc),
    fun c hc => hall c (List.mem_of_getLast? hc)⟩

/-- Decoding succeeds on exactly the literals of the grammar with a magnitude below `2 ^ 64` and
gives their value modulo `2 ^ 64`. In particular it reads every number back from each notation, and
its negation after a minus. -/
theorem decode?_exact :
    (∀ (s : String) (w : Word), decode? s = some w ↔
      ∃ z, Denotes s z ∧ z.natAbs < 2 ^ 64 ∧ w = BitVec.ofInt 64 z) ∧
    ∀ n < 2 ^ 64, ∀ s ∈ spellings n, decode? s = some (BitVec.ofNat 64 n) ∧
      decode? ("-" ++ s) = some (-BitVec.ofNat 64 n) := by
  refine ⟨fun s w => ⟨fun h => ?_, ?_⟩, fun n hn s hs => ?_⟩
  · obtain ⟨z, hz⟩ := denotes_of_decode? h
    obtain ⟨hlt, hw⟩ := Option.ite_none_right_eq_some.mp (hz.decode?.symm.trans h)
    exact ⟨z, hz, hlt, (Option.some.inj hw).symm⟩
  · rintro ⟨z, hz, hlt, rfl⟩
    rw [hz.decode?, if_pos hlt]
  · have hu := unsigned_spellings hs
    have hplain : Denotes s n := ⟨_, (Signed.plain hu).trims, .plain hu⟩
    have hminus : Denotes ("-" ++ s) (-n) := by
      rw [Denotes, String.toList_append]
      exact ⟨_, (Signed.minus hu).trims, .minus hu⟩
    constructor
    · rw [hplain.decode?, Int.natAbs_natCast, if_pos hn, BitVec.ofInt_natCast]
    · rw [hminus.decode?, Int.natAbs_neg, Int.natAbs_natCast, if_pos hn, BitVec.ofInt_neg,
        BitVec.ofInt_natCast]

/-- A tab, a sign and lower case hexadecimal digits, and the greatest number as octal. -/
theorem decode?_exact_of_bounds :
    decode? "\t-0xfF " = some (-255) ∧
      (18446744073709551615 < 2 ^ 64 ∧
        "01777777777777777777777" ∈ spellings 18446744073709551615 ∧
        decode? "01777777777777777777777" = some (BitVec.ofNat 64 18446744073709551615) ∧
        decode? ("-" ++ "01777777777777777777777") = some 1) := by
  have hdigits : Numeral 16 ['f', 'F'] 255 := numeral_of_all (by decide) (by decide)
  have hdenotes : Denotes "\t-0xfF " (-255) :=
    ⟨"-0xfF".toList, trims_iff.mpr (by decide), .minus (.marked ['0', 'x'] 16 (by decide) hdigits)⟩
  have hmem : "01777777777777777777777" ∈ spellings 18446744073709551615 := by decide
  obtain ⟨hplain, hminus⟩ := decode?_exact.2 _ (by decide) _ hmem
  exact ⟨(decode?_exact.1 _ _).mpr ⟨_, hdenotes, by decide, by decide⟩, by decide, hmem, hplain,
    hminus⟩

end IntLiteral

end PduCompiler
