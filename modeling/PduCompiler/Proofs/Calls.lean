import PduCompiler.Proofs.Linking

/-! Calls on a registry. Adding and sealing are carried out here write by write, on a state that a
failing call leaves as far as it came. They come to what `add` and `toSealed` compute at once, and a
call that fails has written nothing. -/

namespace PduCompiler

theorem toLower_eq_iff (x small big : Char) (hsmall : 97 ≤ small.toNat ∧ small.toNat ≤ 122)
    (hbig : big.toNat + 32 = small.toNat) : x.toLower = small ↔ x = small ∨ x = big := by
  have hnat : ∀ a b : Char, a = b ↔ a.toNat = b.toNat := fun a b =>
    ⟨fun h => h ▸ rfl, fun h => Char.toNat_inj.mp h⟩
  have hlower : x.toLower.toNat =
      if 65 ≤ x.toNat ∧ x.toNat ≤ 90 then x.toNat + 32 else x.toNat := by
    have hcapital : (x.val ≥ 'A'.val ∧ x.val ≤ 'Z'.val) ↔ (65 ≤ x.toNat ∧ x.toNat ≤ 90) := by
      simp only [ge_iff_le, UInt32.le_iff_toNat_le]
      exact Iff.rfl
    unfold Char.toLower
    by_cases h : x.val ≥ 'A'.val ∧ x.val ≤ 'Z'.val
    · rw [dif_pos h, if_pos (hcapital.mp h)]
      have hle := (hcapital.mp h).2
      have hgap : ('a'.val - 'A'.val).toNat = 32 := by decide
      have hval : x.val.toNat = x.toNat := rfl
      change (x.val + ('a'.val - 'A'.val)).toNat = x.val.toNat + 32
      rw [UInt32.toNat_add]
      omega
    · rw [dif_neg h, if_neg fun hh => h (hcapital.mpr hh)]
  rw [hnat, hnat x, hnat x, hlower]
  split <;> omega

def SpellsRoot (s : String) : Prop :=
  ∃ a ∈ ['r', 'R'], ∃ b ∈ ['o', 'O'], ∃ c ∈ ['o', 'O'], ∃ d ∈ ['t', 'T'], s.toList = [a, b, c, d]

theorem isRoot_iff {s : String} : isRoot s = true ↔ s = "" ∨ SpellsRoot s := by
  have hr : ∀ x : Char, x.toLower = 'r' ↔ x ∈ ['r', 'R'] := fun x => by
    simpa using toLower_eq_iff x 'r' 'R' (by decide) (by decide)
  have ho : ∀ x : Char, x.toLower = 'o' ↔ x ∈ ['o', 'O'] := fun x => by
    simpa using toLower_eq_iff x 'o' 'O' (by decide) (by decide)
  have ht : ∀ x : Char, x.toLower = 't' ↔ x ∈ ['t', 'T'] := fun x => by
    simpa using toLower_eq_iff x 't' 'T' (by decide) (by decide)
  have hmap : (s.map Char.toLower == rootName) = true ↔
      s.toList.map Char.toLower = ['r', 'o', 'o', 't'] := by
    rw [beq_iff_eq, ← String.toList_inj, String.toList_map]
    rfl
  rw [isRoot, Bool.or_eq_true, hmap, beq_iff_eq, SpellsRoot]
  refine or_congr_right ?_
  simp only [← hr, ← ho, ← ht]
  constructor
  · intro h
    rcases hs : s.toList with _ | ⟨a, _ | ⟨b, _ | ⟨c, _ | ⟨d, _ | ⟨e, l⟩⟩⟩⟩⟩ <;>
      simp [hs] at h
    obtain ⟨ha, hb, hc, hd⟩ := h
    exact ⟨a, ha, b, hb, c, hc, d, hd, rfl⟩
  · rintro ⟨a, ha, b, hb, c, hc, d, hd, hs⟩
    simp [hs, ha, hb, hc, hd]

structure Visit where
  order : List String → List String
  perm : ∀ names, (order names).Perm names

inductive CallError where
  | adding (error : AddError)
  | sealing (errors : List SealError)

namespace Registry

def rewrite (r : Registry) (change : ClassDescription → ClassDescription) (name : String) :
    Registry :=
  { r with classes := r.classes.map fun c => if c.name == name then change c else c }

def refuseIf (bad : Bool) (error : CallError) : EStateM CallError Registry Unit :=
  if bad then throw error else pure ()

def addInPlace (c : ClassDescription) : EStateM CallError Registry Unit := do
  refuseIf (← get).isSealed (.adding .registrySealed)
  refuseIf (c.name == "") (.adding .unnamed)
  refuseIf (isRoot c.name) (.adding (.reserved c.name))
  refuseIf ((← get).contains c.name) (.adding (.duplicate c.name))
  let c := if isRoot c.parent then { c with parent := rootName } else c
  modify fun r => { r with classes := insertByName c r.classes }

def sealInPlace (visit : Visit) : EStateM CallError Registry Unit := do
  if !(← get).isSealed then
    let bad := (← get).problems
    refuseIf (!bad.isEmpty) (.sealing bad)
    (visit.order (← get).names).forM fun name =>
      modify (·.rewrite ClassDescription.linkInPlace name)
    modify fun r => { r with isSealed := true }

end Registry

inductive Call where
  | adding (c : ClassDescription)
  | sealing (visit : Visit)

namespace Call

def perform : Call → EStateM CallError Registry Unit
  | adding c => Registry.addInPlace c
  | sealing visit => Registry.sealInPlace visit

def after (r : Registry) (call : Call) : Registry :=
  match call.perform r with
  | .ok _ r' => r'
  | .error _ r' => r'

end Call

namespace Registry

def run (r : Registry) (calls : List Call) : Registry := calls.foldl Call.after r

variable {r : Registry} {c : ClassDescription}

section Writes

variable {α β : Type} (x : EStateM CallError Registry α) (r : Registry)

theorem bind_apply (f : α → EStateM CallError Registry β) :
    (x >>= f) r = match x r with
      | .ok a r' => f a r'
      | .error e r' => .error e r' := by
  change EStateM.bind x f r = _
  unfold EStateM.bind
  cases x r <;> rfl

theorem get_apply : (get : EStateM CallError Registry Registry) r = .ok r r := rfl

theorem modify_apply (change : Registry → Registry) :
    (modify change : EStateM CallError Registry Unit) r = .ok () (change r) := rfl

theorem refuseIf_apply (bad : Bool) (error : CallError) :
    refuseIf bad error r = if bad then .error error r else .ok () r := by
  cases bad <;> rfl

theorem forM_modify (change : String → Registry → Registry) (l : List String) :
    (l.forM fun name => (modify (change name) : EStateM CallError Registry Unit)) r =
      .ok () (l.foldl (fun r name => change name r) r) := by
  induction l generalizing r with
  | nil => rfl
  | cons name l ih => exact ih (change name r)

end Writes

theorem addInPlace_apply (c : ClassDescription) (r : Registry) :
    addInPlace c r = match r.add c with
      | .ok r' => .ok () r'
      | .error e => .error (.adding e) r := by
  have hparent : (if isRoot c.parent then { c with parent := rootName } else c) =
      { c with parent := c.parentName } := by
    by_cases hp : isRoot c.parent = true
    · simp [ClassDescription.parentName, ClassDescription.hasParent, hp]
    · simp [ClassDescription.parentName, ClassDescription.hasParent, hp]
  simp only [addInPlace, add, bind_apply, get_apply, refuseIf_apply, modify_apply, hparent]
  by_cases hs : r.isSealed = true
  · simp [hs]
  · by_cases hn : c.name = ""
    · simp [hs, hn]
    · by_cases hr : isRoot c.name = true
      · simp [hs, hn, hr]
      · by_cases hc : r.contains c.name = true
        · simp [hs, hn, hr, hc]
        · simp [hs, hn, hr, hc]

theorem sealInPlace_eq (visit : Visit) (r : Registry) :
    sealInPlace visit r = if r.isSealed then .ok () r
      else match r.problems with
        | [] => .ok () { (visit.order r.names).foldl (·.rewrite ClassDescription.linkInPlace) r with
            isSealed := true }
        | bad => .error (.sealing bad) r := by
  simp only [sealInPlace, bind_apply, get_apply]
  by_cases hs : r.isSealed = true
  · simp [hs]
    rfl
  · simp only [hs, Bool.not_false, if_true, bind_apply, get_apply, refuseIf_apply, forM_modify,
      modify_apply]
    cases r.problems with
    | nil => simp
    | cons e es => simp

theorem foldl_rewrite {change : ClassDescription → ClassDescription}
    (hname : ∀ c, (change c).name = c.name) {visit : List String} (hnd : visit.Nodup)
    (r : Registry) : visit.foldl (·.rewrite change) r =
      { r with classes := r.classes.map fun c => if c.name ∈ visit then change c else c } := by
  induction visit generalizing r with
  | nil => simp
  | cons name visit ih =>
    obtain ⟨hnew, hrest⟩ := List.nodup_cons.mp hnd
    rw [List.foldl_cons, ih hrest, rewrite, List.map_map]
    congr 1
    refine List.map_congr_left fun c _ => ?_
    by_cases hc : c.name = name
    · simp [hc, hname, hnew]
    · simp [hc]

theorem attributes_nodup_of_problems (hn : r.names.Nodup) (h : r.problems = []) :
    ∀ c ∈ r.classes, (c.attributes.map (·.name)).Nodup := by
  intro c hc
  have hchecked : r.classes.flatMap r.checkClass = [] := by
    unfold problems at h
    cases hf : r.classes.flatMap r.checkClass with
    | nil => rfl
    | cons e es => simp [hf] at h
  exact ((checkClass_eq_nil_iff (lookup_of_mem hn hc)).mp
    (List.flatMap_eq_nil_iff.mp hchecked c hc)).distinct

theorem sealInPlace_apply (hn : r.names.Nodup) (visit : Visit) :
    sealInPlace visit r = match r.toSealed with
      | .ok r' => .ok () r'
      | .error bad => .error (.sealing bad) r := by
  rw [sealInPlace_eq, toSealed]
  by_cases hs : r.isSealed = true
  · simp [hs]
  · simp only [hs, if_neg Bool.false_ne_true]
    cases hp : r.problems with
    | cons e es => rfl
    | nil =>
      have hnd : (visit.order r.names).Nodup := (visit.perm r.names).nodup_iff.mpr hn
      have hclasses : (r.classes.map fun c =>
          if c.name ∈ visit.order r.names then c.linkInPlace else c) = r.classes.map linkClass := by
        refine List.map_congr_left fun c hc => ?_
        have hin : c.name ∈ visit.order r.names :=
          (visit.perm r.names).mem_iff.mpr (List.mem_map_of_mem hc)
        rw [if_pos hin, linkInPlace_eq (attributes_nodup_of_problems hn hp c hc)]
      simp only [foldl_rewrite linkInPlace_name hnd, hclasses]

def outcome (r : Registry) : Call → Except CallError Registry
  | .adding c => (r.add c).mapError .adding
  | .sealing _ => r.toSealed.mapError .sealing

theorem perform_apply (hn : r.names.Nodup) (call : Call) :
    call.perform r = match r.outcome call with
      | .ok r' => .ok () r'
      | .error e => .error e r := by
  cases call with
  | adding c =>
    rw [Call.perform, addInPlace_apply, outcome]
    cases r.add c <;> rfl
  | sealing visit =>
    rw [Call.perform, sealInPlace_apply hn, outcome]
    cases r.toSealed <;> rfl

inductive Reached : Registry → Prop
  | built {r : Registry} (h : r.Built) : Reached r
  | frozen {r r' : Registry} (h : r.Built) (hs : r.toSealed = .ok r') : Reached r'

theorem Built.parents (hb : r.Built) :
    ∀ c ∈ r.classes, c.parent = rootName ∨ isRoot c.parent = false := by
  induction hb with
  | empty => simp
  | @add r r' c _ hc ih =>
    obtain ⟨-, -, -, rfl⟩ := add_eq_ok hc
    intro d hd
    rcases List.mem_cons.mp ((insertByName_perm _ _).mem_iff.mp hd) with rfl | hd
    · cases hp : isRoot c.parent with
      | true => exact .inl (by simp [ClassDescription.parentName, ClassDescription.hasParent, hp])
      | false => exact .inr (by simp [ClassDescription.parentName, ClassDescription.hasParent, hp])
    · exact ih d hd

/-- Names are distinct and no name or parent stands for the root but in its one spelling. -/
structure Orderly (r : Registry) : Prop where
  distinct : r.names.Nodup
  names : ∀ c ∈ r.classes, c.name ≠ "" ∧ ¬ SpellsRoot c.name
  parents : ∀ c ∈ r.classes, c.parent = "root" ∨ c.parent ≠ "" ∧ ¬ SpellsRoot c.parent

theorem isRoot_eq_false {s : String} : isRoot s = false ↔ s ≠ "" ∧ ¬ SpellsRoot s := by
  rw [← Bool.not_eq_true, isRoot_iff, not_or]

theorem Built.orderly (hb : r.Built) : r.Orderly := by
  refine ⟨hb.names_nodup, fun c hc => isRoot_eq_false.mp (hb.not_root c hc), fun c hc => ?_⟩
  exact (hb.parents c hc).imp id isRoot_eq_false.mp

theorem Reached.orderly (h : r.Reached) : r.Orderly := by
  cases h with
  | built hb => exact hb.orderly
  | @frozen b _ hb hs =>
    obtain ⟨-, rfl⟩ := toSealed_eq_ok hb hs
    have horderly := hb.orderly
    refine ⟨?_, ?_, ?_⟩
    · simpa only [Registry.names, linkClass_names] using horderly.distinct
    · intro c' hc'
      obtain ⟨c, hc, rfl⟩ := List.mem_map.mp hc'
      exact horderly.names c hc
    · intro c' hc'
      obtain ⟨c, hc, rfl⟩ := List.mem_map.mp hc'
      exact horderly.parents c hc

theorem outcome_of_sealed (hs : r.isSealed = true) (call : Call) :
    r.outcome call = .ok r ∨ ∃ e, r.outcome call = .error e := by
  cases call with
  | adding c => exact .inr ⟨.adding .registrySealed, by simp [outcome, add, hs, Except.mapError]⟩
  | sealing visit => exact .inl (by simp [outcome, toSealed, hs, Except.mapError])

theorem Reached.outcome (h : r.Reached) {call : Call} {r' : Registry}
    (ho : r.outcome call = .ok r') : r'.Reached := by
  cases h with
  | built hb =>
    cases call with
    | adding c =>
      cases hadd : r.add c with
      | error e => simp [Registry.outcome, hadd, Except.mapError] at ho
      | ok r₁ =>
        simp only [Registry.outcome, hadd, Except.mapError, Except.ok.injEq] at ho
        exact ho ▸ .built (hb.add hadd)
    | sealing visit =>
      cases hseal : r.toSealed with
      | error bad => simp [Registry.outcome, hseal, Except.mapError] at ho
      | ok r₁ =>
        simp only [Registry.outcome, hseal, Except.mapError, Except.ok.injEq] at ho
        exact ho ▸ .frozen hb hseal
  | frozen hb hs =>
    rcases outcome_of_sealed (hb.consistent hs).isSealed call with hsame | ⟨e, he⟩
    · rw [hsame, Except.ok.injEq] at ho
      exact ho ▸ .frozen hb hs
    · rw [he] at ho
      cases ho

theorem Reached.after (h : r.Reached) (call : Call) : (call.after r).Reached := by
  unfold Call.after
  rw [perform_apply h.orderly.distinct]
  cases ho : r.outcome call with
  | ok r' => exact h.outcome ho
  | error e => exact h

theorem Reached.run (h : r.Reached) (calls : List Call) : (r.run calls).Reached := by
  induction calls generalizing r with
  | nil => exact h
  | cons call calls ih => exact ih (h.after call)

theorem Reached.run_sealed (h : r.Reached) (hs : r.isSealed = true) (calls : List Call) :
    r.run calls = r := by
  induction calls with
  | nil => rfl
  | cons call calls ih =>
    have hsame : call.after r = r := by
      unfold Call.after
      rw [perform_apply h.orderly.distinct]
      rcases outcome_of_sealed hs call with ho | ⟨e, ho⟩
      · rw [ho]
      · rw [ho]
    rw [Registry.run, List.foldl_cons, hsame]
    exact ih

structure Safe (r : Registry) : Prop where
  orderly : r.Orderly
  failing : ∀ (call : Call) e r', call.perform r = .error e r' → r' = r
  /-- Until a registry is sealed it takes every class with a new name that is a name. -/
  repairable : ∀ visit e r', (Call.sealing visit).perform r = .error e r' → ∀ c, c.name ≠ "" →
    ¬ SpellsRoot c.name → c.name ∉ r.names → ∃ r'', (Call.adding c).perform r' = .ok () r'' ∧
      r''.names.Perm (c.name :: r.names)
  final : ∀ visit r', (Call.sealing visit).perform r = .ok () r' →
    r'.isSealed = true ∧ ∀ calls, r'.run calls = r'

theorem add_of_unsealed (hs : r.isSealed = false) (hroot : isRoot c.name = false)
    (hnew : c.name ∉ r.names) : r.add c =
      .ok { r with classes := insertByName { c with parent := c.parentName } r.classes } := by
  have hne : c.name ≠ "" := (isRoot_eq_false.mp hroot).1
  have hno : r.contains c.name = false := by
    rw [← Bool.not_eq_true, contains_iff_mem_names]
    exact hnew
  simp [add, hs, hne, hroot, hno]

theorem Reached.safe (h : r.Reached) : r.Safe := by
  have hn := h.orderly.distinct
  have hfail : ∀ (call : Call) e r', call.perform r = .error e r' → r' = r := by
    intro call e r' hcall
    rw [perform_apply hn] at hcall
    cases ho : r.outcome call with
    | ok r₁ => simp [ho] at hcall
    | error e₁ =>
      simp only [ho, EStateM.Result.error.injEq] at hcall
      exact hcall.2.symm
  refine ⟨h.orderly, hfail, ?_, ?_⟩
  · intro visit e r' hcall c hne hroot hnew
    have hsame := hfail _ _ _ hcall
    subst hsame
    have hs : r'.isSealed = false := by
      by_contra hs
      rw [Bool.not_eq_false] at hs
      simp [Call.perform, sealInPlace_eq, hs] at hcall
    have hadd := add_of_unsealed hs (isRoot_eq_false.mpr ⟨hne, hroot⟩) hnew
    refine ⟨_, by rw [Call.perform, addInPlace_apply, hadd], ?_⟩
    exact (insertByName_perm _ _).map (·.name)
  · intro visit r' hcall
    have hreached : r'.Reached := by
      have hafter := h.after (.sealing visit)
      rwa [Call.after, hcall] at hafter
    have hs : r'.isSealed = true := by
      rw [Call.perform, sealInPlace_eq] at hcall
      by_cases hs : r.isSealed = true
      · simp only [hs, if_true, EStateM.Result.ok.injEq] at hcall
        exact hcall.2 ▸ hs
      · cases hp : r.problems with
        | nil =>
          simp only [hs, hp, if_neg Bool.false_ne_true, EStateM.Result.ok.injEq] at hcall
          rw [← hcall.2]
        | cons e es => simp [hs, hp] at hcall
    exact ⟨hs, hreached.run_sealed hs⟩

/-- After any calls, failed ones and repeated ones among them, a registry is safe. -/
theorem run_safe (calls : List Call) : (run {} calls).Safe :=
  (Reached.run (.built .empty) calls).safe

end Registry

end PduCompiler
