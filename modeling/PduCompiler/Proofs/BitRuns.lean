import PduCompiler.Proofs.EmittedBits

/-! The lowest run of ones in a mask, within a width. The scan for it finds where the run begins and
where it ends, also where the run touches the width, and a value is shifted to where it begins. -/

namespace PduCompiler

namespace BitAccessor

/-- What a scan of the low `bits` bits of a mask comes to: none of them is set, or those from `start`
to `stop` are the lowest run of ones. -/
inductive LowestRun (mask : Word) (bits : Nat) : Nat × Nat → Prop
  | unset (clear : ∀ k < bits, mask.getLsbD k = false) : LowestRun mask bits (0, 0)
  | ones {start stop : Nat} (ordered : start ≤ stop) (within : stop < bits)
      (below : ∀ k < start, mask.getLsbD k = false)
      (inside : ∀ k, start ≤ k → k ≤ stop → mask.getLsbD k = true)
      (ends : stop + 1 = bits ∨ mask.getLsbD (stop + 1) = false) : LowestRun mask bits (start, stop)

variable (mask : Word) (bits : Nat)

theorem le_runEnd (i : Nat) : i ≤ runEnd mask bits i := by
  fun_induction runEnd mask bits i with
  | case1 i _ ih => omega
  | case2 i _ => exact Nat.le_refl i

theorem runEnd_lt {i : Nat} (hi : i < bits) : runEnd mask bits i < bits := by
  fun_induction runEnd mask bits i with
  | case1 i hgo ih =>
    simp only [Bool.and_eq_true, decide_eq_true_eq] at hgo
    exact ih hgo.1
  | case2 i _ => exact hi

theorem ones_to_runEnd {i : Nat} (hi : mask.getLsbD i = true) :
    ∀ k, i ≤ k → k ≤ runEnd mask bits i → mask.getLsbD k = true := by
  fun_induction runEnd mask bits i with
  | case1 i hgo ih =>
    simp only [Bool.and_eq_true, decide_eq_true_eq] at hgo
    intro k hik hk
    by_cases he : i = k
    · exact he ▸ hi
    · exact ih hgo.2 k (by omega) hk
  | case2 i _ =>
    intro k hik hk
    obtain rfl : i = k := by omega
    exact hi

/-- A run goes on until the width is reached or a bit is clear. -/
theorem runEnd_ends {i : Nat} (hi : i < bits) :
    runEnd mask bits i + 1 = bits ∨ mask.getLsbD (runEnd mask bits i + 1) = false := by
  fun_induction runEnd mask bits i with
  | case1 i hgo ih =>
    simp only [Bool.and_eq_true, decide_eq_true_eq] at hgo
    exact ih hgo.1
  | case2 i hstop =>
    simp only [Bool.and_eq_true, decide_eq_true_eq, not_and, Bool.not_eq_true] at hstop
    by_cases hlast : i + 1 = bits
    · exact .inl hlast
    · exact .inr (hstop (by omega))

/-- The scan goes up from a position below which no bit is set. -/
theorem lowestRunFrom_spec {i : Nat} (hclear : ∀ k < i, mask.getLsbD k = false) :
    LowestRun mask bits (lowestRunFrom mask bits i) := by
  fun_induction lowestRunFrom mask bits i with
  | case1 i hi hset =>
    exact .ones (le_runEnd mask bits i) (runEnd_lt mask bits hi) hclear
      (ones_to_runEnd mask bits hset) (runEnd_ends mask bits hi)
  | case2 i _ hset ih =>
    refine ih fun k hk => ?_
    by_cases he : k = i
    · exact he ▸ Bool.eq_false_iff.mpr hset
    · exact hclear k (by omega)
  | case3 i hi => exact .unset fun k hk => hclear k (by omega)

theorem lowestRun_spec : LowestRun mask bits (lowestRun bits mask) :=
  lowestRunFrom_spec mask bits fun _ hk => absurd hk (Nat.not_lt_zero _)

variable {mask bits}

theorem LowestRun.start_lowest {run : Nat × Nat} (h : LowestRun mask bits run)
    (hset : ∃ k < bits, mask.getLsbD k = true) :
    mask.getLsbD run.1 = true ∧ ∀ k < run.1, mask.getLsbD k = false := by
  cases h with
  | unset clear =>
    obtain ⟨k, hk, hbit⟩ := hset
    rw [clear k hk] at hbit
    cases hbit
  | ones ordered _ below inside _ => exact ⟨inside _ (Nat.le_refl _) ordered, below⟩

theorem LowestRun.eq_zero {run : Nat × Nat} (h : LowestRun mask bits run)
    (hclear : ∀ k < bits, mask.getLsbD k = false) : run = (0, 0) := by
  cases h with
  | unset => rfl
  | ones ordered within _ inside _ =>
    have hbit := inside _ (Nat.le_refl _) ordered
    rw [hclear _ (by omega)] at hbit
    cases hbit

/-- What is known of how far a value is shifted to lie under a mask within a type: to the lowest bit
of the mask that the type has room for. Where there is none it is not shifted. -/
structure Aligns (type mask : String) (shift : Nat) : Prop where
  unknown : Scalar.parse? type = none → shift = 0
  unread : IntLiteral.decode? mask = none → shift = 0
  within : ∀ t, Scalar.parse? type = some t → shift < t.bits
  lowest : ∀ t m, Scalar.parse? type = some t → IntLiteral.decode? mask = some m →
    (∃ k < t.bits, m.getLsbD k = true) →
      m.getLsbD shift = true ∧ ∀ k < shift, m.getLsbD k = false
  clear : ∀ t m, Scalar.parse? type = some t → IntLiteral.decode? mask = some m →
    (∀ k < t.bits, m.getLsbD k = false) → shift = 0

theorem resolveShift_of_some {type mask : String} {t : Scalar} {m : Word}
    (ht : Scalar.parse? type = some t) (hm : IntLiteral.decode? mask = some m) :
    resolveShift type mask = (lowestRun t.bits m).1 := by
  rw [resolveShift, ht, hm]

theorem resolveShift_aligns (type mask : String) : Aligns type mask (resolveShift type mask) := by
  have hunknown : Scalar.parse? type = none → resolveShift type mask = 0 := by
    intro ht
    rw [resolveShift, ht]
  have hunread : IntLiteral.decode? mask = none → resolveShift type mask = 0 := by
    intro hm
    rw [resolveShift, hm]
    cases Scalar.parse? type <;> rfl
  refine ⟨hunknown, hunread, fun t ht => ?_, fun t m ht hm hset => ?_, fun t m ht hm hclear => ?_⟩
  · -- without a bit in reach the shift is 0, which is below every width
    have hpos : 0 < t.bits := by cases t <;> decide
    cases hm : IntLiteral.decode? mask with
    | none => rwa [hunread hm]
    | some m =>
      rw [resolveShift_of_some ht hm]
      exact lowestRunFrom_lt m hpos 0
  · rw [resolveShift_of_some ht hm]
    exact (lowestRun_spec m t.bits).start_lowest hset
  · rw [resolveShift_of_some ht hm, (lowestRun_spec m t.bits).eq_zero hclear]

/-- A scan of any width finds the lowest run of ones, and a value is shifted to where it begins. -/
theorem lowestRun_aligns :
    (∀ (bits : Nat) (mask : Word), LowestRun mask bits (lowestRun bits mask)) ∧
      ∀ type mask : String, Aligns type mask (resolveShift type mask) :=
  ⟨fun bits mask => lowestRun_spec mask bits, resolveShift_aligns⟩

example : lowestRun 8 0x0A = (1, 1) ∧ lowestRun 8 0xF0 = (4, 7) ∧ lowestRun 8 0x100 = (0, 0) := by
  with_unfolding_all decide

end BitAccessor

end PduCompiler
