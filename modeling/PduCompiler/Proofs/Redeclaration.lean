import PduCompiler.Proofs.ZeroBytes

/-! Classes that redeclare a fixed list of an ancestor. The declarations share one slot; where their
lengths differ, some bytes make decoding reach outside of it, or the size of a new object is not the
length of its encoding. There is no other cause of either. -/

namespace PduCompiler

namespace Program

open Decode

variable {p : Program} {s : Store}

/-- The storage of new objects is sound: no bytes make decoding into one reach outside a fixed list,
and its size is the length of its encoding. -/
def Faithful (p : Program) : Prop :=
  ∀ name s ref i, p.new {} name = .ok (s, ref) → s.get? ref = some i →
    (∀ data e, (p.unmarshal s ref data).2.2 = some e → e.root ≠ .outOfBounds) ∧
      ∃ bytes, p.marshal s i = .ok bytes ∧ p.size s i = .ok bytes.length

/-- Every serialised scalar fixed list of a class that has new objects is as long as its slot, and
no new object has an encoding too long for a size. -/
def Steady (p : Program) : Prop :=
  ∀ name s ref i, p.new {} name = .ok (s, ref) → s.get? ref = some i →
    p.LengthsAgree name ∧ ∀ bytes, p.marshal s i = .ok bytes → bytes.length < 2 ^ 63

theorem Ready.new (hp : p.Planned) {name : String} (h : p.Ready name) :
    ∃ s ref i, p.new {} name = .ok (s, ref) ∧ s.get? ref = some i := by
  obtain ⟨objects, ref, hb⟩ := h.build (Store.size {})
  have hnew : p.new {} name = .ok (Store.append {} objects, ref) := by simp [Program.new, hb]
  obtain ⟨-, -, hcls, -⟩ := new_grown hp (.empty p) hnew
  obtain ⟨i, hi, -⟩ := Option.map_eq_some_iff.mp hcls
  exact ⟨_, ref, i, hnew, hi⟩

theorem new_acyclic (hp : p.Planned) {name : String} {ref : Nat}
    (h : p.new {} name = .ok (s, ref)) (x : Nat) : s.Acyclic x := by
  obtain ⟨⟨⟨objects, rfl, ho⟩, hs⟩, -⟩ := new_grown hp (.empty p) h
  refine Store.acyclic_of_rank id (fun x _ i hi y hy => ?_) x
  have hmem : i ∈ objects := by
    rw [Store.get?_append_right (Nat.zero_le x)] at hi
    exact Array.mem_of_getElem? hi
  rcases List.mem_append.mp hy with hy | hy
  · exact (hs.object x i hi).below y hy
  · rw [(ho i hmem).2] at hy
    simp at hy

theorem Steady.extents (hp : p.Planned) (h : p.Steady) (hs : p.Sound s) :
    p.Extents (· = ·) s := by
  refine LengthsAgree.extents hs fun name hready => ?_
  obtain ⟨t, ref, i, hnew, hi⟩ := hready.new hp
  exact (h name t ref i hnew hi).1

theorem Steady.faithful (hp : p.Planned) (h : p.Steady) : p.Faithful := by
  intro name s ref i hnew hi
  obtain ⟨hg, -, -, -⟩ := new_grown hp (.empty p) hnew
  have hle : ∀ t, p.Sound t → p.Extents (· ≤ ·) t := fun t ht x i hi a ha n e hk he =>
    Nat.le_of_eq (h.extents hp ht x i hi a ha n e hk he)
  have hge : ∀ t, p.Sound t → p.Extents (· ≥ ·) t := fun t ht x i hi a ha n e hk he =>
    Nat.le_of_eq (h.extents hp ht x i hi a ha n e hk he).symm
  constructor
  · intro data e he
    simp only [unmarshal, hi] at he
    have hsafe := decodeInto_safe hp hle (p.decodeDepth s data) ref i.className
      { store := s, rest := data }
      ⟨hg.sound, ⟨i, hi, serialised_sub _ _⟩, fun _ _ _ => trivial, fun _ _ _ => trivial⟩
    cases hd : p.decodeInto (p.decodeDepth s data) ref i.className { store := s, rest := data } with
    | ok u d => simp [hd] at he
    | error e' d =>
      simp only [hd, Option.some.injEq] at he
      exact he ▸ hsafe e' d hd
  · obtain ⟨bytes, hb⟩ := marshal_ok hp hg.sound hi
      ((new_acyclic hp hnew ref).height hg.sound (Store.get?_lt hi))
    obtain ⟨m, hm, hsized⟩ := marshal_sized hp hg.sound hi hb
    have heq := Nat.le_antisymm (hsized.le (hle s hg.sound)) (hsized.ge (hge s hg.sound))
    have hlt := (h name s ref i hnew hi).2 bytes hb
    exact ⟨bytes, hb, by rw [hm, heq, wrap_of_lt (by omega) (by omega)]⟩

theorem lt_decodeDepth {x level : Nat} (hx : x < s.size) (hl : level ≤ p.plans.length)
    (bytes : List UInt8) : x * (p.plans.length + 1) + level < p.decodeDepth s bytes := by
  have hmul := Nat.mul_le_mul_right (p.plans.length + 1) hx
  rw [Nat.succ_mul] at hmul
  rw [decodeDepth, Nat.add_mul, Nat.add_mul]
  omega

theorem Faithful.le (hp : p.Planned) (h : p.Faithful) (hs : p.Sound s) :
    p.Extents (· ≤ ·) s := by
  intro x i hi a ha n e hk he
  have hready := (hs.object x i hi).ready
  obtain ⟨c, hc, hcn⟩ := hready.class hp
  obtain ⟨s', ref, j, hnew, hj⟩ := hready.new hp
  obtain ⟨hg, -, hcls, -⟩ := new_grown hp (.empty p) hnew
  have hjn : j.className = i.className := by simpa [Store.class?, hj] using hcls
  have hlevel := hp.rooted.level_lt hp.consistent.names_nodup hc
  have hcle := hp.classes_le
  have hscope : p.Scope anyField s' ref (p.registry.serialised c.name) :=
    ⟨hg.sound, ⟨j, hj, by rw [hjn, hcn]; exact serialised_sub _ _⟩, fun _ _ _ => trivial,
      fun _ _ _ => trivial⟩
  obtain ⟨m, hrun⟩ := decodeInto_zeros hp
    (ref * (p.plans.length + 1) + p.registry.level c.name + 1) ref c hc s' hscope (by omega)
  have hslot : a.slot = .array := by simp [Attribute.slot, hk, he]
  -- either the zeros run past a slot, which is excluded, or every declared length was met
  rcases hrun with hover | ⟨t, ⟨hclear, k, hkt, hread⟩, -⟩
  · obtain ⟨k, hdepth⟩ := Nat.exists_eq_add_of_lt (lt_decodeDepth (p := p) (Store.get?_lt hj)
      (show p.registry.level c.name ≤ p.plans.length by omega) (zeros m))
    obtain ⟨e', d, hd, hroot⟩ := hover k [] 0
    rw [List.append_nil] at hd
    have hd' : p.decodeInto (p.decodeDepth s' (zeros m)) ref j.className ⟨s', zeros m, 0⟩ =
        .error e' d := by
      rw [hdepth, hjn, ← hcn, Nat.add_right_comm]
      exact hd
    exact ((h _ s' ref j hnew hj).1 (zeros m) e' (by simp [unmarshal, hj, hd']) hroot).elim
  · have hser : a ∈ p.registry.serialised c.name := hcn ▸ ha
    obtain ⟨k', hk', -, -, hlen⟩ := hclear ref j hj
    cases Option.some.inj (hkt.symm.trans hk')
    have hle := (hread a hser).2 n e hk he
    have hi' := hs.array_length hi (serialised_sub _ _ a ha) hslot
    have hj' := hg.sound.array_length hj (hjn ▸ serialised_sub _ _ a ha) hslot
    rw [hjn, hi', Option.some.injEq] at hj'
    rw [hlen, ← hj'] at hle
    exact hle

theorem Faithful.steady (hp : p.Planned) (h : p.Faithful) : p.Steady := by
  intro name s ref i hnew hi
  obtain ⟨hg, -, hcls, -⟩ := new_grown hp (.empty p) hnew
  obtain rfl : i.className = name := by simpa [Store.class?, hi] using hcls
  obtain ⟨bytes, hb, hsize⟩ := (h _ s ref i hnew hi).2
  obtain ⟨m, hm, hsized⟩ := marshal_sized hp hg.sound hi hb
  have hle := hsized.le (h.le hp hg.sound)
  rw [hsize, Except.ok.injEq] at hm
  -- the size is a wrapped number, so a length that equals it is below the bound
  have hlt : (bytes.length : Int) < 2 ^ 63 := by
    rw [hm]
    exact Int.bmod_lt (by decide)
  rw [wrap_of_lt (by omega) (by omega)] at hm
  refine ⟨fun a ha n hn => ?_, fun bytes' hb' => ?_⟩
  · have hslot := Attribute.slot_of_arrayLength? hn
    obtain ⟨l, e, hk, he, hl⟩ := Attribute.arrayLength?_of_slot hslot
    have hex := hsized.exact (h.le hp hg.sound) (by omega) a ha l e hk he
    rw [hg.sound.array_length hi (serialised_sub _ _ a ha) hslot, ← hex, ← hl, hn]
  · cases Except.ok.inj (hb.symm.trans hb')
    omega

/-- The storage of new objects is sound exactly in programs where declared lengths agree. -/
theorem faithful_iff_steady {source : Registry} {options : PlanOptions}
    (h : p.Compiled source options) : p.Faithful ↔ p.Steady :=
  ⟨fun hf => hf.steady h.toPlanned, fun hs => hs.faithful h.toPlanned⟩

end Program

namespace Redeclared

def source : Registry := .gather [
  { name := "Base", attributes := [
      { name := "codes", kind := some (.fixedList 4 { type := "uint8" }) }] },
  { name := "Short", parent := "Base", attributes := [
      { name := "codes", kind := some (.fixedList 2 { type := "uint8" }) }] }]

def program : Program := (Program.compile? source {}).getD ⟨{}, []⟩

theorem program_evaluated : (Program.compile? source {}).isSome = true ∧
    (program.build 0 "Short").toOption.isSome = true ∧
    (∃ a ∈ program.registry.serialised "Short", a.arrayLength? = some 4) ∧
    (∀ a ∈ program.registry.serialised "Short", a.name = "codes") ∧
    program.registry.storageLength "Short" "codes" = some 2 := by
  decide +kernel

theorem program_compiled : program.Compiled source {} :=
  Program.compiled_getD (Registry.gather_built _) program_evaluated.1 _

theorem short_ready : program.Ready "Short" := by
  obtain ⟨result, hr⟩ := Option.isSome_iff_exists.mp program_evaluated.2.1
  cases hb : program.build 0 "Short" with
  | error e => simp [hb, Except.toOption] at hr
  | ok made => exact .of_build hb

theorem not_lengthsAgree : ¬ program.LengthsAgree "Short" := by
  intro h
  obtain ⟨-, -, ⟨a, ha, hn⟩, hname, hlen⟩ := program_evaluated
  have hh := h a ha 4 hn
  rw [hname a ha, hlen] at hh
  cases hh

end Redeclared

/-- Sealing and planning accept a program whose storage is not sound. -/
theorem redeclared_not_faithful : ¬ Redeclared.program.Faithful := by
  intro h
  obtain ⟨s, ref, i, hnew, hi⟩ :=
    Redeclared.short_ready.new Redeclared.program_compiled.toPlanned
  have hs := (Program.faithful_iff_steady Redeclared.program_compiled).mp h
  exact Redeclared.not_lengthsAgree (hs "Short" s ref i hnew hi).1

end PduCompiler
