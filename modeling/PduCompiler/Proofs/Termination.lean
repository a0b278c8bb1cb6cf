import PduCompiler.Machine.Bits
import PduCompiler.Proofs.Failing

/-! Construction, the lookup of bit fields and decoding come to an end for every compiled program.
Each of them is cut off at a depth; the depth it is given is never what ends it, and any greater one
gives the same. -/

namespace PduCompiler

open Relation

/-- From `limit` on the depth makes no difference, and it does not run out. -/
def EndsBy {α : Type} (limit : Nat) (run : Nat → α) (RunsOut : α → Prop) : Prop :=
  ∀ depth, limit ≤ depth → run depth = run limit ∧ ¬ RunsOut (run depth)

theorem EndsBy.of_limit {α : Type} {limit : Nat} {run : Nat → α} {RunsOut : α → Prop}
    (hsame : ∀ depth, limit ≤ depth → run limit = run depth) (hlimit : ¬ RunsOut (run limit)) :
    EndsBy limit run RunsOut := by
  intro depth hle
  rw [← hsame depth hle]
  exact ⟨rfl, hlimit⟩

def Exhausted {α : Type} (result : Except MachineError α) : Prop :=
  ∃ e, result = .error e ∧ e.root = .endless

namespace Program

open Decode

variable {p : Program}

/-- What it means for a program that its objects are made and decoded in finitely many steps. -/
structure Terminates (p : Program) : Prop where
  acyclic : ∀ c ∈ p.registry.classes, ¬ TransGen p.registry.Draws c.name c.name
  /-- A dynamic list is read after its count, which takes at least one byte. -/
  counted : ∀ plan ∈ p.plans, ∀ pre act post, plan.unmarshal = pre ++ act :: post →
    act.op = .readList ∨ act.op = .unmarshalList →
    ∃ b ∈ pre, b.op = .read ∧ b.attr = act.count ∧ 0 < b.type.width
  construct : ∀ name n i, EndsBy p.initDepth (p.construct · n i name) Exhausted
  new : ∀ s name, ¬ Exhausted (p.new s name)
  findBitField : ∀ className name,
    EndsBy (p.plans.length + 1) (p.findBitField · className name) Exhausted
  getBits : ∀ i name e, p.getBits i name = .error (.machine e) → e.root ≠ .endless
  setBits : ∀ i name value e, p.setBits i name value = .error (.machine e) → e.root ≠ .endless
  decodeInto : ∀ ops x i bytes, (p.run ops).get? x = some i →
    EndsBy (p.decodeDepth (p.run ops) bytes)
      (fun depth => p.decodeInto depth x i.className ⟨p.run ops, bytes, 0⟩)
      fun result => ∃ e d, result = .error e d ∧ e.root = .endless
  unmarshal : ∀ ops x bytes, ∀ e ∈ (p.unmarshal (p.run ops) x bytes).2.2, e.root ≠ .endless

theorem construct_endsBy (hp : p.Planned) (hg : p.registry.Grounded) (name : String) (n : Nursery)
    (i : Instance) : EndsBy p.initDepth (p.construct · n i name) Exhausted := by
  by_cases hname : ∃ c ∈ p.registry.classes, c.name = name
  · obtain ⟨c, hc, rfl⟩ := hname
    have hh := draws_initDepth hp hg hc
    refine .of_limit (fun depth hle => construct_deeper hp _ depth hle hc hh n i) ?_
    rintro ⟨e, he, hend⟩
    obtain ⟨le, hroot, -⟩ := construct_eq_error hp _ hc hh he
    rw [hroot] at hend
    cases hend
  · have hno : ∀ c ∈ p.registry.classes, c.name ≠ name := fun c hc he => hname ⟨c, hc, he⟩
    have hpos : 0 < p.initDepth := Nat.mul_pos (Nat.succ_pos _) (Nat.succ_pos _)
    have hunknown : ∀ depth, p.initDepth ≤ depth →
        p.construct depth n i name = .error (.unknownClass name) := by
      intro depth hle
      obtain ⟨m, rfl⟩ : ∃ m, depth = m + 1 := ⟨depth - 1, by omega⟩
      exact construct_unknown hp hno m n i
    refine .of_limit (fun depth hle => ?_) ?_
    · rw [hunknown depth hle, hunknown _ (Nat.le_refl _)]
    · rintro ⟨e, he, hend⟩
      rw [hunknown _ (Nat.le_refl _)] at he
      cases he
      cases hend

theorem findBitField_ok (hp : p.Planned) (name : String) : ∀ c ∈ p.registry.classes,
    ∃ b, ∀ fuel, p.registry.level c.name < fuel → p.findBitField fuel c.name name = .ok b := by
  have hfirst : ∀ c ∈ p.registry.classes, ∃ plan, p.plan? c.name = some plan ∧
      plan.description = c := by
    intro c hc
    obtain ⟨plan, hplan, hf⟩ := hp.plan c hc
    exact ⟨plan, hplan, hf.description⟩
  have hn := hp.consistent.names_nodup
  refine hp.rooted.induction hn (fun c hc hpar => ?_) (fun c hc q hq hpar hl ih => ?_)
  · obtain ⟨plan, hplan, rfl⟩ := hfirst c hc
    refine ⟨plan.bitFields.find? (·.name == name), fun fuel hlt => ?_⟩
    obtain ⟨m, rfl⟩ : ∃ m, fuel = m + 1 := ⟨fuel - 1, by omega⟩
    rw [findBitField, hplan]
    cases hb : plan.bitFields.find? (·.name == name) with
    | some b => simp [hb]
    | none => simp [hb, hpar]
  · obtain ⟨plan, hplan, rfl⟩ := hfirst c hc
    obtain ⟨above, habove⟩ := ih
    have hlevel : p.registry.level plan.description.name = p.registry.level q.name + 1 := by
      obtain ⟨q', -, hl', hanc⟩ := hp.rooted.parent hn hc hpar
      rw [← Registry.lookup_name hl] at hanc
      simp [Registry.level, hanc]
    cases hb : plan.bitFields.find? (·.name == name) with
    | some b =>
      refine ⟨some b, fun fuel hlt => ?_⟩
      obtain ⟨m, rfl⟩ : ∃ m, fuel = m + 1 := ⟨fuel - 1, by omega⟩
      simp [findBitField, hplan, hb]
    | none =>
      refine ⟨above, fun fuel hlt => ?_⟩
      obtain ⟨m, rfl⟩ : ∃ m, fuel = m + 1 := ⟨fuel - 1, by omega⟩
      have hup := habove m (by omega)
      rw [Registry.lookup_name hl] at hup
      simp [findBitField, hplan, hb, hpar, hup]

theorem findBitField_endsBy (hp : p.Planned) (className name : String) :
    EndsBy (p.plans.length + 1) (p.findBitField · className name) Exhausted := by
  by_cases hname : ∃ c ∈ p.registry.classes, c.name = className
  · obtain ⟨c, hc, rfl⟩ := hname
    obtain ⟨b, hb⟩ := findBitField_ok hp name c hc
    have hlevel := hp.level_le hc
    refine .of_limit (fun depth hle => ?_) ?_
    · rw [hb _ (by omega), hb depth (by omega)]
    · rintro ⟨e, he, -⟩
      rw [hb _ (by omega)] at he
      cases he
  · have hunknown : ∀ fuel, p.findBitField (fuel + 1) className name =
        .error (.unknownClass className) := by
      intro fuel
      rw [Program.findBitField]
      cases hplan : p.plan? className with
      | none => rfl
      | some plan =>
        obtain ⟨c, hc, hcn, -⟩ := hp.class_of_plan className plan hplan
        exact absurd ⟨c, hc, hcn⟩ hname
    refine .of_limit (fun depth hle => ?_) ?_
    · obtain ⟨m, rfl⟩ : ∃ m, depth = m + 1 := ⟨depth - 1, by omega⟩
      rw [hunknown, hunknown]
    · rintro ⟨e, he, hend⟩
      rw [hunknown] at he
      cases he
      cases hend

theorem bitField_machine (hp : p.Planned) {className name : String} {e : MachineError}
    (h : p.bitField className name = .error (.machine e)) : e.root ≠ .endless := by
  intro hend
  have hnot := (findBitField_endsBy hp className name _ (Nat.le_refl _)).2
  unfold bitField at h
  split at h
  · next e' he =>
    cases h
    exact hnot ⟨_, he, hend⟩
  · cases h
  · cases h

theorem count_read_first (hp : p.Planned) {c : ClassDescription} (hc : c ∈ p.registry.classes)
    {plan : ClassPlan} (hf : plan.Follows c) {pre post : List Action} {act : Action}
    (h : plan.unmarshal = pre ++ act :: post)
    (hop : act.op = .readList ∨ act.op = .unmarshalList) :
    ∃ b ∈ pre, b.op = .read ∧ b.attr = act.count ∧ 0 < b.type.width := by
  rw [hf.unmarshal] at h
  rcases split_append h with ⟨mid, hmid, -⟩ | ⟨mid, rfl, hmid⟩
  · have hsuper : act ∈ Plan.superStep c := by simp [hmid]
    unfold Plan.superStep at hsuper
    split at hsuper
    · rw [List.mem_singleton.mp hsuper] at hop
      rcases hop with hop | hop <;> cases hop
    · simp at hsuper
  · obtain ⟨before, rest, hser, rfl, hrest⟩ := List.map_eq_append_iff.mp hmid
    obtain ⟨a, after, rfl, rfl, rfl⟩ := List.map_eq_cons_iff.mp hrest
    have ha : a ∈ c.serialised := by simp [hser]
    have hsound := hp.consistent.kinds c hc a (List.mem_filter.mp ha).1
    have hcount : a.CountedBy (Plan.wire a).unmarshal.count := by
      cases Attribute.form hsound.ne_none with
      | word q hk => simp [Plan.wire, Plan.wireActions, hk, Except.toOption] at hop
      | object name hk => simp [Plan.wire, Plan.wireActions, hk, Except.toOption] at hop
      | array n e hk he => simp [Plan.wire, Plan.wireActions, hk, he, Except.toOption] at hop
      | objects n e hk he => simp [Plan.wire, Plan.wireActions, hk, he, Except.toOption] at hop
      | words field e hk he =>
        exact ⟨e, by simp [Plan.wire, Plan.wireActions, hk, he, Except.toOption]⟩
      | list field e hk he =>
        exact ⟨e, by simp [Plan.wire, Plan.wireActions, hk, he, Except.toOption]⟩
    obtain ⟨b, hb, q, hbn, hbk, -⟩ := hp.count_before hc hser hcount
    have hbc : b ∈ c.attributes := (List.mem_filter.mp (by simp [hser, hb] : b ∈ c.serialised)).1
    have hcanon := hp.consistent.kinds c hc b hbc
    simp only [Registry.KindSound, hbk] at hcanon
    refine ⟨(Plan.wire b).unmarshal, List.mem_append_right _ (List.mem_map_of_mem hb), ?_⟩
    simp only [Plan.wire, Plan.wireActions, hbk, Except.toOption, Option.getD_some]
    exact ⟨trivial, hbn, (TypeName.width_pos hcanon).1⟩

/-- Whatever its classes hold, be it lists of themselves or of each other, a compiled program makes
and decodes objects in finitely many steps. -/
theorem compiled_terminates {source : Registry} {options : PlanOptions}
    (h : p.Compiled source options) : p.Terminates := by
  have hp := h.toPlanned
  have hg := h.built.grounded h.isSealed
  have hdecode : ∀ ops x i bytes, (p.run ops).get? x = some i →
      Errs p.Faulty (p.decodeInto (p.decodeDepth (p.run ops) bytes) x i.className)
        ⟨p.run ops, bytes, 0⟩ := fun ops x i bytes hi =>
    decodeInto_faulty hp hg (run_sound hp ops) hi bytes 0
  have hfault : ∀ e, p.Faulty e → e.root ≠ .endless := by
    intro e hf hend
    rw [Faulty, hend] at hf
    cases hf
  refine ⟨fun c hc => hg.draws_acyclic hp.consistent hp.rooted hc, ?_, construct_endsBy hp hg, ?_,
    findBitField_endsBy hp, ?_, ?_, ?_, ?_⟩
  · intro plan hplan pre act post
    obtain ⟨c, hc, hcp⟩ := h.plan_class hplan
    exact count_read_first hp hc (Registry.plan_follows hcp)
  · rintro s name ⟨e, he, hend⟩
    exact (construct_endsBy hp hg name _ _ _ (Nat.le_refl _)).2 ⟨e, new_eq_error_iff.mp he, hend⟩
  · intro i name e he
    cases hb : p.bitField i.className name with
    | ok b => simp [Program.getBits, hb, bind, Except.bind, pure, Except.pure] at he
    | error e' =>
      simp only [Program.getBits, hb, bind, Except.bind, Except.error.injEq] at he
      exact bitField_machine hp (he ▸ hb)
  · intro i name value e he
    cases hb : p.bitField i.className name with
    | ok b =>
      simp only [Program.setBits, hb, bind, Except.bind] at he
      split at he <;> cases he
    | error e' =>
      simp only [Program.setBits, hb, bind, Except.bind, Except.error.injEq] at he
      exact bitField_machine hp (he ▸ hb)
  · intro ops x i bytes hi
    refine .of_limit
      (fun depth hle => decodeInto_deeper hp hg (run_sound hp ops) hi bytes 0 hle) ?_
    rintro ⟨e, d, he, hend⟩
    exact hfault e (hdecode ops x i bytes hi e d he) hend
  · intro ops x bytes e he
    cases hi : (p.run ops).get? x with
    | none =>
      simp only [Program.unmarshal, hi, Option.mem_some_iff] at he
      subst he
      exact MachineError.noConfusion
    | some i =>
      obtain ⟨d, hd⟩ := unmarshal_error hi he
      exact hfault e (hdecode ops x i bytes hi e d hd)

end Program

namespace Thicket

def source : Registry := .gather [
  { name := "Node", attributes := [
      { name := "flags", kind := some (.primitive { type := "uint8", bitFields := [
          { name := "leaf", mask := "0x01" }] }) },
      { name := "count", kind := some (.primitive { type := "uint8" }) },
      { name := "kids", kind := some (.dynamicList "count" { className := "Node" }) }] },
  { name := "Forest", parent := "Node", attributes := [
      { name := "top", kind := some (.object "Node") },
      { name := "numGroves", kind := some (.primitive { type := "uint8" }) },
      { name := "groves", kind := some (.dynamicList "numGroves" { className := "Grove" }) }] },
  { name := "Grove", attributes := [
      { name := "numForests", kind := some (.primitive { type := "uint8" }) },
      { name := "forests", kind := some (.dynamicList "numForests" { className := "Forest" }) }] }]

def program : Program := (Program.compile? source {}).getD ⟨{}, []⟩

theorem program_evaluated : (Program.compile? source {}).isSome = true ∧
    (program.unmarshal (program.run [.new "Forest"]) 1
      [1, 1, 0, 0, 0, 0, 1, 1, 0, 0, 0, 0, 0]).2 = (13, none) ∧
    (program.bitField "Forest" "leaf").toOption.isSome = true := by
  decide +kernel

end Thicket

theorem thicket_terminates : Thicket.program.Terminates ∧
    (Thicket.program.unmarshal (Thicket.program.run [.new "Forest"]) 1
      [1, 1, 0, 0, 0, 0, 1, 1, 0, 0, 0, 0, 0]).2 = (13, none) ∧
    (Thicket.program.bitField "Forest" "leaf").toOption.isSome = true := by
  have hcompiled : Thicket.program.Compiled Thicket.source {} :=
    Program.compiled_getD (Registry.gather_built _) Thicket.program_evaluated.1 _
  exact ⟨Program.compiled_terminates hcompiled, Thicket.program_evaluated.2⟩

end PduCompiler
