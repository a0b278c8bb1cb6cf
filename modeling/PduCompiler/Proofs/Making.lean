import PduCompiler.Proofs.Embedding

/-! Which init plans the making of an object goes through, and that nothing but a literal in one of
them stops it. The plans never come back to a class, so the depth that construction is given does
not show. -/

namespace PduCompiler

open Relation

section Init

variable {r : Registry} {c : ClassDescription} {plan : ClassPlan}

theorem ClassPlan.Follows.init_ops (h : plan.Follows c) (hk : ∀ a ∈ c.attributes, a.kind ≠ none) :
    ∀ act ∈ plan.init, act.op ∈ Program.initOps := by
  obtain ⟨overrides, assigns, hassigns, hinit⟩ := h.init
  intro act hact
  rw [hinit, List.mem_append, List.mem_append] at hact
  rcases hact with (hact | hact) | hact
  · unfold Plan.superStep at hact
    split at hact
    · rw [List.mem_singleton.mp hact]
      simp [Program.initOps]
    · simp at hact
  · obtain ⟨a, ha, rfl⟩ := List.mem_map.mp hact
    cases Attribute.form (hk a ha) with
    | word q hq => simp [Plan.initAction, hq, Program.initOps]
    | object name hq => simp [Plan.initAction, hq, Program.initOps]
    | array n e hq he => simp [Plan.initAction, hq, he, Program.initOps]
    | objects n e hq he => simp [Plan.initAction, hq, he, Program.initOps]
    | words field e hq he => simp [Plan.initAction, hq, Program.initOps]
    | list field e hq he => simp [Plan.initAction, hq, Program.initOps]
  · rw [hassigns act hact]
    simp [Program.initOps]

theorem Plan.initAction_handsTo {overrides : Table String} {a : Attribute} {inner : String}
    (hk : r.KindSound c a) :
    (Plan.initAction overrides a).HandsTo inner ↔ Registry.embedded? a = some inner := by
  cases Attribute.form hk.ne_none with
  | word q hq => simp [Plan.initAction, Action.HandsTo, Registry.embedded?, hq]
  | object name hq => simp [Plan.initAction, Action.HandsTo, Registry.embedded?, hq]
  | array n e hq he => simp [Plan.initAction, Action.HandsTo, Registry.embedded?, hq, he]
  | objects n e hq he =>
    simp only [Registry.KindSound, hq] at hk
    have hpos : 0 < n.toNat := by omega
    simp [Plan.initAction, Action.HandsTo, Registry.embedded?, hq, he, hpos]
  | words field e hq he => simp [Plan.initAction, Action.HandsTo, Registry.embedded?, hq]
  | list field e hq he => simp [Plan.initAction, Action.HandsTo, Registry.embedded?, hq]

theorem ClassPlan.Follows.init_handsTo (h : plan.Follows c)
    (hk : ∀ a ∈ c.attributes, r.KindSound c a) (inner : String) :
    (∃ act ∈ plan.init, act.HandsTo inner) ↔ (c.hasParent = true ∧ c.parent = inner ∨
      ∃ a ∈ c.attributes, Registry.embedded? a = some inner) := by
  obtain ⟨overrides, assigns, hassigns, hinit⟩ := h.init
  rw [hinit]
  constructor
  · rintro ⟨act, hact, hhands⟩
    rw [List.mem_append, List.mem_append] at hact
    rcases hact with (hact | hact) | hact
    · unfold Plan.superStep at hact
      split at hact
      · next hpar =>
        rw [List.mem_singleton.mp hact] at hhands
        exact .inl ⟨hpar, hhands.1⟩
      · simp at hact
    · obtain ⟨a, ha, rfl⟩ := List.mem_map.mp hact
      exact .inr ⟨a, ha, (Plan.initAction_handsTo (hk a ha)).mp hhands⟩
    · simp [Action.HandsTo, hassigns act hact] at hhands
  · rintro (⟨hpar, rfl⟩ | ⟨a, ha, hemb⟩)
    · exact ⟨{ op := .super, className := c.parent }, by simp [Plan.superStep, hpar],
        rfl, .inl rfl⟩
    · refine ⟨Plan.initAction overrides a, ?_, (Plan.initAction_handsTo (hk a ha)).mpr hemb⟩
      exact List.mem_append_left _ (List.mem_append_right _ (List.mem_map_of_mem ha))

end Init

namespace Program

variable {p : Program} {name : String} {le : LiteralError}

def Rejects (p : Program) (name : String) (le : LiteralError) : Prop :=
  ∃ plan, p.plan? name = some plan ∧ ∃ act ∈ plan.init, act.ReadsLiteral ∧
    act.type.readLiteral act.value = .error le

/-- A literal is refused in the init plan of a class, of an ancestor, or of a class that one of these
holds, at whatever distance. -/
def Refuses (p : Program) (name : String) (le : LiteralError) : Prop :=
  ∃ inner, ReflTransGen p.registry.Draws name inner ∧ p.Rejects inner le

theorem draws_iff (hp : p.Planned) {c : ClassDescription} (hc : c ∈ p.registry.classes)
    {plan : ClassPlan} (hf : plan.Follows c) (inner : String) :
    (∃ act ∈ plan.init, act.HandsTo inner) ↔ p.registry.Draws c.name inner := by
  rw [hf.init_handsTo (hp.consistent.kinds c hc)]
  constructor
  · intro h
    exact ⟨c, Registry.lookup_of_mem hp.consistent.names_nodup hc, h⟩
  · rintro ⟨d, hd, h⟩
    rw [Registry.lookup_of_mem hp.consistent.names_nodup hc] at hd
    cases hd
    exact h

theorem Draws.class (hp : p.Planned) {inner : String} (h : p.registry.Draws name inner) :
    ∃ d ∈ p.registry.classes, d.name = inner :=
  List.mem_map.mp (h.mem hp.consistent hp.rooted)

theorem construct_eq_error (hp : p.Planned) (depth : Nat) {c : ClassDescription}
    (hc : c ∈ p.registry.classes) (hh : Height p.registry.Draws depth c.name) {n : Nursery}
    {i : Instance} {e : MachineError} (h : p.construct depth n i c.name = .error e) :
    ∃ le, e.root = .badLiteral le ∧ p.Refuses c.name le := by
  induction depth generalizing c n i e with
  | zero => exact hh.elim
  | succ depth ih =>
    obtain ⟨plan, hplan, hf⟩ := hp.plan c hc
    rw [construct, hplan] at h
    refine foldlM_error (P := fun e => ∃ le, e.root = .badLiteral le ∧ p.Refuses c.name le)
      (fun act hact state e he => ?_) h
    rcases initStep_eq_error he with ⟨inner, hin, n, i, hb⟩ | ⟨hlit, le, hle, rfl⟩ | ⟨hop, -⟩
    · have hdraws := (draws_iff hp hc hf inner).mp ⟨act, hact, hin⟩
      obtain ⟨d, hd, rfl⟩ := Draws.class hp hdraws
      obtain ⟨le, hroot, bad, hreach, hbad⟩ := ih hd (hh _ hdraws) hb
      exact ⟨le, hroot, bad, .head hdraws hreach, hbad⟩
    · exact ⟨le, rfl, c.name, .refl, plan, hplan, act, hact, hlit, hle⟩
    · exact absurd (hf.init_ops (fun a ha => hp.kind_ne_none hc ha) act hact) hop

theorem not_refuses_of_construct (hp : p.Planned) (depth : Nat) {c : ClassDescription}
    (hc : c ∈ p.registry.classes) {n : Nursery} {i : Instance} {made : Nursery × Instance}
    (h : p.construct depth n i c.name = .ok made) : ¬ p.Refuses c.name le := by
  induction depth generalizing c n i made with
  | zero => cases h
  | succ depth ih =>
    obtain ⟨plan, hplan, hf⟩ := hp.plan c hc
    rw [construct, hplan] at h
    rintro ⟨bad, hreach, hbad⟩
    rcases hreach.cases_head with rfl | ⟨inner, hdraws, hreach⟩
    · obtain ⟨plan', hplan', act, hact, hlit, hle⟩ := hbad
      rw [hplan] at hplan'
      cases hplan'
      obtain ⟨state, result, hstep⟩ := foldlM_eq_ok h act hact
      obtain ⟨w, hw⟩ := (initStep_eq_ok hstep).2 hlit
      rw [hw] at hle
      cases hle
    · obtain ⟨act, hact, hhands⟩ := (draws_iff hp hc hf inner).mpr hdraws
      obtain ⟨state, result, hstep⟩ := foldlM_eq_ok h act hact
      obtain ⟨n', i', made', hmade⟩ := (initStep_eq_ok hstep).1 inner hhands
      obtain ⟨d, hd, rfl⟩ := Draws.class hp hdraws
      exact ih hd hmade ⟨bad, hreach, hbad⟩

theorem construct_deeper (hp : p.Planned) (depth more : Nat) (hle : depth ≤ more)
    {c : ClassDescription} (hc : c ∈ p.registry.classes)
    (hh : Height p.registry.Draws depth c.name) (n : Nursery) (i : Instance) :
    p.construct depth n i c.name = p.construct more n i c.name := by
  induction depth generalizing more c n i with
  | zero => exact hh.elim
  | succ depth ih =>
    obtain ⟨more, rfl⟩ : ∃ m, more = m + 1 := ⟨more - 1, by omega⟩
    obtain ⟨plan, hplan, hf⟩ := hp.plan c hc
    rw [construct, construct, hplan]
    refine foldlM_congr (fun act hact state => initStep_congr (fun inner hin n i => ?_) _ _) _
    have hdraws := (draws_iff hp hc hf inner).mp ⟨act, hact, hin⟩
    obtain ⟨d, hd, rfl⟩ := Draws.class hp hdraws
    exact ih more (by omega) hd (hh _ hdraws) n i

theorem construct_unknown (hp : p.Planned) (hname : ∀ c ∈ p.registry.classes, c.name ≠ name)
    (depth : Nat) (n : Nursery) (i : Instance) :
    p.construct (depth + 1) n i name = .error (.unknownClass name) := by
  rw [construct]
  cases hplan : p.plan? name with
  | none => rfl
  | some plan =>
    obtain ⟨c, hc, hcn, -⟩ := hp.class_of_plan name plan hplan
    exact absurd hcn (hname c hc)

theorem draws_initDepth (hp : p.Planned) (hg : p.registry.Grounded) {c : ClassDescription}
    (hc : c ∈ p.registry.classes) : Height p.registry.Draws p.initDepth c.name := by
  refine (hg.draws_height hp.consistent hp.rooted hc).mono (Nat.le_trans hp.classes_le ?_)
  have hsquare : (p.plans.length + 1) * 1 ≤ (p.plans.length + 1) * (p.plans.length + 1) :=
    Nat.mul_le_mul_left _ (by omega)
  unfold initDepth
  omega

theorem build_eq_error (hp : p.Planned) (hg : p.registry.Grounded) {c : ClassDescription}
    (hc : c ∈ p.registry.classes) {first : Nat} {e : MachineError}
    (h : p.build first c.name = .error e) :
    ∃ le, e.root = .badLiteral le ∧ p.Refuses c.name le := by
  rcases bind_eq_error.mp h with hm | ⟨made, -, h⟩
  · exact construct_eq_error hp _ hc (draws_initDepth hp hg hc) hm
  · cases h

theorem new_eq_error_iff {s : Store} {e : MachineError} :
    p.new s name = .error e ↔ p.construct p.initDepth { first := s.size } { className := name }
      name = .error e := by
  simp only [new, build, bind, Except.bind, pure, Except.pure]
  cases p.construct p.initDepth { first := s.size } { className := name } name <;> simp

theorem exists_new_eq_error (hp : p.Planned) {c : ClassDescription}
    (hc : c ∈ p.registry.classes) (s : Store) (h : p.Refuses c.name le) :
    ∃ e, p.new s c.name = .error e := by
  cases hmade : p.construct p.initDepth { first := s.size } { className := c.name } c.name with
  | error e => exact ⟨e, new_eq_error_iff.mpr hmade⟩
  | ok made => exact absurd h (not_refuses_of_construct hp _ hc hmade)

end Program

end PduCompiler
