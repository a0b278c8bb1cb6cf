import Mathlib.Algebra.Order.Ring.Int
import PduCompiler.Proofs.Encoding

/-! The size plan against the marshal plan. The two disagree only over a scalar fixed list whose
storage has not the declared length; without redeclared names there is none, and the size of an
object is the length of its encoding, both taken modulo 64 bits. -/

namespace PduCompiler

theorem wrap_add (a b : Int) : wrap (wrap a + wrap b) = wrap (a + b) := by
  simp [wrap]

theorem wrap_mul (a b : Int) : wrap (a * wrap b) = wrap (a * b) := by
  simp [wrap]

theorem wrap_of_lt {n : Int} (h : 0 ≤ n) (hlt : n < 2 ^ 63) : wrap n = n := by
  refine Int.bmod_eq_of_le ?_ ?_ <;> simp <;> omega

theorem wrap_lt (n : Int) : wrap n < 2 ^ 63 := by
  have h := Int.bmod_lt (x := n) (m := Nat.pow 2 64) (by simp)
  simpa [wrap] using h

theorem foldlM_wrap {ε α : Type} {f : α → Except ε Int} {l : List α} {sizes : List Nat}
    (h : List.Forall₂ (fun a (n : Nat) => f a = .ok (wrap n)) l sizes) (t : Int) :
    l.foldlM (fun total a => return wrap (total + (← f a))) (wrap t) =
      .ok (wrap (t + sizes.sum)) := by
  induction h generalizing t with
  | nil => simp [pure, Except.pure]
  | @cons a n l sizes ha _ ih =>
    simp only [List.foldlM_cons, ha, bind, Except.bind, pure, Except.pure, wrap_add] at ih ⊢
    rw [ih, List.sum_cons, Int.natCast_add, Int.add_assoc]

theorem TypeName.length_encode {t : TypeName} (h : t.isCanonical = true) (w : Word) :
    (t.encode w).length = t.width := by
  obtain ⟨sc, hsc⟩ := Option.isSome_iff_exists.mp h
  simp [TypeName.encode, TypeName.width, hsc]

theorem TypeName.width_pos {t : TypeName} (h : t.isCanonical = true) :
    0 < t.width ∧ t.width ≤ 8 := by
  obtain ⟨sc, hsc⟩ := Option.isSome_iff_exists.mp h
  simp only [TypeName.width, hsc, Option.elim_some]
  cases sc <;> decide

theorem length_flatMap_encode {t : TypeName} (h : t.isCanonical = true) (ws : List Word) :
    (ws.flatMap t.encode).length = ws.length * t.width := by
  simp [List.length_flatMap, TypeName.length_encode h]

def Instance.Extent (rel : Nat → Nat → Prop) (i : Instance) (a : Attribute) : Prop :=
  ∀ n e, a.kind = some (.fixedList n e) → e.isObject = false → rel n.toNat (i.array a.name).length

namespace Program

def Extents (p : Program) (rel : Nat → Nat → Prop) (s : Store) : Prop :=
  ∀ (x : Nat) (i : Instance), s.get? x = some i →
    ∀ a ∈ p.registry.serialised i.className, i.Extent rel a

structure Sized (p : Program) (s : Store) (i : Instance) (attrs : List Attribute)
    (size length : Nat) : Prop where
  le : p.Extents (· ≤ ·) s → size ≤ length
  ge : p.Extents (· ≥ ·) s → length ≤ size
  exact : p.Extents (· ≤ ·) s → size = length → ∀ a ∈ attrs, i.Extent (· = ·) a

theorem Sized.add {p : Program} {s : Store} {i : Instance} {as bs : List Attribute}
    {m m' n n' : Nat} (h : p.Sized s i as m n) (h' : p.Sized s i bs m' n') :
    p.Sized s i (as ++ bs) (m + m') (n + n') := by
  refine ⟨fun hx => ?_, fun hx => ?_, fun hx he a ha => ?_⟩
  · exact Nat.add_le_add (h.le hx) (h'.le hx)
  · exact Nat.add_le_add (h.ge hx) (h'.ge hx)
  · have h1 := h.le hx
    have h2 := h'.le hx
    rcases List.mem_append.mp ha with ha | ha
    · exact h.exact hx (by omega) a ha
    · exact h'.exact hx (by omega) a ha

theorem Sized.of_eq {p : Program} {s : Store} {i : Instance} {a : Attribute} {n : Nat}
    (h : ∀ m e, a.kind = some (.fixedList m e) → e.isObject = true) : p.Sized s i [a] n n := by
  refine ⟨fun _ => Nat.le_refl _, fun _ => Nat.le_refl _, fun _ _ b hb m e hk he => ?_⟩
  rw [List.mem_singleton.mp hb] at hk
  simp [h m e hk] at he

theorem Sized.of_objects {p : Program} {s : Store} {i : Instance} {a : Attribute}
    (h : ∀ m e, a.kind = some (.fixedList m e) → e.isObject = true) {sizes : List Nat}
    {parts : List (List UInt8)}
    (hall : List.Forall₂ (fun m part => (p.Extents (· ≤ ·) s → m ≤ part.length) ∧
      (p.Extents (· ≥ ·) s → part.length ≤ m)) sizes parts) :
    p.Sized s i [a] sizes.sum parts.flatten.length := by
  have hself := (Sized.of_eq (p := p) (s := s) (i := i) (n := 0) h).exact
  refine ⟨fun hx => ?_, fun hx => ?_, fun hx _ => hself hx rfl⟩
  · induction hall with
    | nil => simp
    | cons hm _ ih =>
      simp only [List.sum_cons, List.flatten_cons, List.length_append]
      exact Nat.add_le_add (hm.1 hx) ih
  · induction hall with
    | nil => simp
    | cons hm _ ih =>
      simp only [List.sum_cons, List.flatten_cons, List.length_append]
      exact Nat.add_le_add (hm.2 hx) ih

def measureRef (s : Store) (below : Instance → String → Except MachineError Int)
    (ref : Option Nat) : Except MachineError Int :=
  match ref.bind s.get? with
  | none => .error .noObject
  | some obj => below obj obj.className

section

variable {s : Store} {below : Instance → String → Except MachineError Int}
  {name : String} {i : Instance} {a : Attribute}

theorem measureAction_word {q : Primitive} (h : a.kind = some (.primitive q)) :
    measureAction s below name i (Plan.wire a).size = .ok q.type.width := by
  simp [Plan.wire, Plan.wireActions, h, Except.toOption, measureAction]

theorem measureAction_object {cls : String} (h : a.kind = some (.object cls)) :
    measureAction s below name i (Plan.wire a).size = measureRef s below (i.object? a.name) := by
  simp only [Plan.wire, Plan.wireActions, h, Except.toOption, Option.getD_some, measureAction]
  rfl

theorem measureAction_array {n : Int} {e : Element} (h : a.kind = some (.fixedList n e))
    (he : e.isObject = false) :
    measureAction s below name i (Plan.wire a).size = .ok (wrap (n * e.type.width)) := by
  simp [Plan.wire, Plan.wireActions, h, he, Except.toOption, measureAction]

theorem measureAction_objects {n : Int} {e : Element} (h : a.kind = some (.fixedList n e))
    (he : e.isObject = true) :
    measureAction s below name i (Plan.wire a).size = (i.objectArray a.name).foldlM
      (fun total y => return wrap (total + (← measureRef s below (some y)))) 0 := by
  simp only [Plan.wire, Plan.wireActions, h, he, if_true, Except.toOption, Option.getD_some,
    measureAction]
  rfl

theorem measureAction_words {field : String} {e : Element}
    (h : a.kind = some (.dynamicList field e)) (he : e.isObject = false) :
    measureAction s below name i (Plan.wire a).size =
      .ok (wrap ((i.primList a.name).length * e.type.width)) := by
  simp [Plan.wire, Plan.wireActions, h, he, Except.toOption, measureAction]

theorem measureAction_list {field : String} {e : Element}
    (h : a.kind = some (.dynamicList field e)) (he : e.isObject = true) :
    measureAction s below name i (Plan.wire a).size = (i.list a.name).foldlM
      (fun total y => return wrap (total + (← measureRef s below (some y)))) 0 := by
  simp only [Plan.wire, Plan.wireActions, h, he, if_true, Except.toOption, Option.getD_some,
    measureAction]
  rfl

end

variable {p : Program} {s : Store}

def Compares (p : Program) (s : Store) (m : Nat) (part : List UInt8) : Prop :=
  (p.Extents (· ≤ ·) s → m ≤ part.length) ∧ (p.Extents (· ≥ ·) s → part.length ≤ m)

theorem measureRefs {encode : Instance → String → Except MachineError (List UInt8)}
    {measure : Instance → String → Except MachineError Int}
    (hbelow : ∀ y obj part, s.get? y = some obj → encode obj obj.className = .ok part →
      ∃ m : Nat, measure obj obj.className = .ok (wrap m) ∧ p.Compares s m part)
    {refs : List Nat} {parts : List (List UInt8)}
    (h : List.Forall₂ (fun y part => encodeRef s encode (some y) = .ok part) refs parts) :
    ∃ sizes : List Nat,
      List.Forall₂ (fun y (m : Nat) => measureRef s measure (some y) = .ok (wrap m)) refs sizes ∧
      List.Forall₂ (p.Compares s) sizes parts := by
  induction h with
  | nil => exact ⟨[], .nil, .nil⟩
  | @cons y part refs parts hy _ ih =>
    obtain ⟨sizes, hs, hc⟩ := ih
    obtain ⟨obj, hobj, hpart⟩ := encodeRef_eq_ok.mp hy
    obtain ⟨m, hm, hcmp⟩ := hbelow y obj part hobj hpart
    exact ⟨m :: sizes, .cons (by simp [measureRef, hobj, hm]) hs, .cons hcmp hc⟩

theorem action_sized {c : ClassDescription} {a : Attribute} (hk : p.registry.KindSound c a)
    {encode : Instance → String → Except MachineError (List UInt8)}
    {measure : Instance → String → Except MachineError Int}
    (hbelow : ∀ y obj part, s.get? y = some obj → encode obj obj.className = .ok part →
      ∃ m : Nat, measure obj obj.className = .ok (wrap m) ∧ p.Compares s m part)
    {x : Nat} {i : Instance} (hi : s.get? x = some i)
    (ha : a ∈ p.registry.serialised i.className) {name : String} {part : List UInt8}
    (h : encodeAction s encode name i (Plan.wire a).marshal = .ok part) :
    ∃ m : Nat, measureAction s measure name i (Plan.wire a).size = .ok (wrap m) ∧
      p.Sized s i [a] m part.length := by
  cases Attribute.form hk.ne_none with
  | word q hq =>
    simp only [Registry.KindSound, hq] at hk
    rw [encodeAction_word hq, Except.ok.injEq] at h
    subst h
    have hw := TypeName.width_pos hk
    refine ⟨q.type.width, ?_, ?_⟩
    · rw [measureAction_word hq, wrap_of_lt (by omega) (by omega)]
    · rw [TypeName.length_encode hk]
      exact .of_eq (by simp [hq])
  | object cls hq =>
    rw [encodeAction_object hq] at h
    cases hy : i.object? a.name with
    | none => simp [hy, encodeRef] at h
    | some y =>
      rw [hy] at h
      obtain ⟨obj, hobj, hpart⟩ := encodeRef_eq_ok.mp h
      obtain ⟨m, hm, hcmp⟩ := hbelow y obj part hobj hpart
      refine ⟨m, by simp [measureAction_object hq, hy, measureRef, hobj, hm], ?_⟩
      simpa using Sized.of_objects (by simp [hq]) (.cons hcmp .nil)
  | array n e hq he =>
    simp only [Registry.KindSound, hq, Registry.ElementSound, he,
      if_neg Bool.false_ne_true] at hk
    rw [encodeAction_array hq he, Except.ok.injEq] at h
    subst h
    have hn : (n : Int) = (n.toNat : Int) := by omega
    have hw := (TypeName.width_pos hk.2).1
    refine ⟨n.toNat * e.type.width, ?_, ?_⟩
    · rw [measureAction_array hq he, Int.natCast_mul, ← hn]
    · rw [length_flatMap_encode hk.2]
      refine ⟨fun hx => ?_, fun hx => ?_, fun _ heq b hb m e' hm _ => ?_⟩
      · exact Nat.mul_le_mul_right _ (hx x i hi a ha n e hq he)
      · exact Nat.mul_le_mul_right _ (hx x i hi a ha n e hq he)
      · rw [List.mem_singleton.mp hb] at hm ⊢
        cases Option.some.inj (hq.symm.trans hm)
        exact Nat.eq_of_mul_eq_mul_right hw heq
  | objects n e hq he =>
    rw [encodeAction_objects hq he, encodeRefs_eq_ok] at h
    obtain ⟨parts, hparts, rfl⟩ := h
    obtain ⟨sizes, hs, hc⟩ := measureRefs hbelow hparts
    refine ⟨sizes.sum, ?_, .of_objects (fun m e' hm => ?_) hc⟩
    · rw [measureAction_objects hq he]
      simpa [wrap] using foldlM_wrap hs 0
    · cases Option.some.inj (hq.symm.trans hm)
      exact he
  | words field e hq he =>
    simp only [Registry.KindSound, hq, Registry.ElementSound, he,
      if_neg Bool.false_ne_true] at hk
    rw [encodeAction_words hq he, Except.ok.injEq] at h
    subst h
    refine ⟨(i.primList a.name).length * e.type.width, ?_, ?_⟩
    · rw [measureAction_words hq he, Int.natCast_mul]
    · rw [length_flatMap_encode hk.1]
      exact .of_eq (by simp [hq])
  | list field e hq he =>
    rw [encodeAction_list hq he, encodeRefs_eq_ok] at h
    obtain ⟨parts, hparts, rfl⟩ := h
    obtain ⟨sizes, hs, hc⟩ := measureRefs hbelow hparts
    refine ⟨sizes.sum, ?_, .of_objects (by simp [hq]) hc⟩
    rw [measureAction_list hq he]
    simpa [wrap] using foldlM_wrap hs 0

theorem actions_sized {attrs : List Attribute} {parts : List (List UInt8)} {i : Instance}
    {encode : Attribute → Except MachineError (List UInt8)}
    {measure : Attribute → Except MachineError Int}
    (hone : ∀ a ∈ attrs, ∀ part, encode a = .ok part →
      ∃ m : Nat, measure a = .ok (wrap m) ∧ p.Sized s i [a] m part.length)
    (h : List.Forall₂ (fun a part => encode a = .ok part) attrs parts) :
    ∃ sizes : List Nat, List.Forall₂ (fun a (m : Nat) => measure a = .ok (wrap m)) attrs sizes ∧
      p.Sized s i attrs sizes.sum parts.flatten.length := by
  induction h with
  | nil => exact ⟨[], .nil, fun _ => Nat.le_refl _, fun _ => Nat.le_refl _, by simp⟩
  | @cons a part attrs parts ha _ ih =>
    obtain ⟨sizes, hs, hsized⟩ := ih fun b hb => hone b (List.mem_cons_of_mem _ hb)
    obtain ⟨m, hm, hmsized⟩ := hone a List.mem_cons_self part ha
    refine ⟨m :: sizes, .cons hm hs, ?_⟩
    simpa using hmsized.add hsized

/-- Where an object can be encoded it can be measured, and the two compare as the declared lengths
compare with the storage. -/
theorem encode_sized (hp : p.Planned) (hs : p.Sound s) (depth : Nat) {x : Nat} {i : Instance}
    {c : ClassDescription} {bytes : List UInt8} (hc : c ∈ p.registry.classes)
    (hi : s.get? x = some i)
    (hsub : ∀ a ∈ p.registry.serialised c.name, a ∈ p.registry.serialised i.className)
    (h : p.encode s depth i c.name = .ok bytes) :
    ∃ m : Nat, p.measure s depth i c.name = .ok (wrap m) ∧
      p.Sized s i (p.registry.serialised c.name) m bytes.length := by
  induction depth generalizing x i c bytes with
  | zero => simp [encode] at h
  | succ depth ih =>
    obtain ⟨front, parts, hfront, hparts, rfl⟩ := (encode_succ_eq_ok hp hc).mp h
    obtain ⟨plan, hplan, hf⟩ := hp.plan c hc
    have hser := hp.serialised_eq hc
    have hbelow : ∀ y obj part, s.get? y = some obj →
        p.encode s depth obj obj.className = .ok part →
        ∃ m : Nat, p.measure s depth obj obj.className = .ok (wrap m) ∧ p.Compares s m part := by
      intro y obj part hobj hpart
      obtain ⟨d, hd, hdn⟩ := (hs.object y obj hobj).ready.class hp
      rw [← hdn] at hpart ⊢
      obtain ⟨m, hm, hsized⟩ := ih hd hobj (by simp [hdn]) hpart
      exact ⟨m, hm, hsized.le, hsized.ge⟩
    obtain ⟨sizes, hsizes, hsized⟩ := actions_sized
      (fun a ha part hpart => action_sized (hp.consistent.kinds c hc a (List.mem_filter.mp ha).1)
        hbelow hi (hsub a (hser ▸ List.mem_append_right _ ha)) hpart) hparts
    -- sums are wrapped after each step, so the parts are added up before wrapping
    simp only [measure, hplan, hf.size, hser, List.length_append]
    by_cases hpar : c.hasParent = true
    · rw [if_pos hpar] at hfront
      obtain ⟨q, hq, hqn, hin, -⟩ := hp.parent hc hpar
      rw [← hqn] at hfront
      obtain ⟨m, hm, hmsized⟩ := ih hq hi (fun a ha => hsub a (hin ha)) hfront
      rw [hqn] at hm hmsized
      refine ⟨m + sizes.sum, ?_, ?_⟩
      · have hall : List.Forall₂ (fun act (n : Nat) =>
            measureAction s (p.measure s depth) c.name i act = .ok (wrap n))
            (Plan.superStep c ++ c.serialised.map fun a => (Plan.wire a).size) (m :: sizes) := by
          rw [Plan.superStep, if_pos hpar]
          exact .cons hm (List.forall₂_map_left_iff.mpr hsizes)
        simpa [wrap] using foldlM_wrap hall 0
      · rw [Plan.inherited, if_pos hpar]
        exact hmsized.add hsized
    · rw [if_neg hpar] at hfront
      refine ⟨sizes.sum, ?_, ?_⟩
      · have hall : List.Forall₂ (fun act (n : Nat) =>
            measureAction s (p.measure s depth) c.name i act = .ok (wrap n))
            (Plan.superStep c ++ c.serialised.map fun a => (Plan.wire a).size) sizes := by
          rw [Plan.superStep, if_neg hpar]
          exact List.forall₂_map_left_iff.mpr hsizes
        simpa [wrap] using foldlM_wrap hall 0
      · rw [Plan.inherited, if_neg hpar, hfront, List.length_nil, Nat.zero_add]
        exact hsized

theorem marshal_sized (hp : p.Planned) (hs : p.Sound s) {x : Nat} {i : Instance}
    (hi : s.get? x = some i) {bytes : List UInt8} (h : p.marshal s i = .ok bytes) :
    ∃ m : Nat, p.size s i = .ok (wrap m) ∧
      p.Sized s i (p.registry.serialised i.className) m bytes.length := by
  obtain ⟨c, hc, hcn⟩ := (hs.object x i hi).ready.class hp
  rw [marshal, ← hcn] at h
  rw [size, ← hcn]
  exact encode_sized hp hs _ hc hi (by simp [hcn]) h

theorem Sound.extents (hp : p.Planned) (hs : p.Sound s) (hno : p.registry.NoRedeclaration) :
    p.Extents (· = ·) s := by
  intro x i hi a ha n e hk he
  have hh := hs.holds hp hno hi (serialised_sub _ _ a ha)
  simp only [Instance.Holds, hk, he, if_neg Bool.false_ne_true] at hh
  exact hh.symm

theorem size_eq_wrap_length (hp : p.Planned) (hs : p.Sound s)
    (hno : p.registry.NoRedeclaration) {x : Nat} {i : Instance} (hi : s.get? x = some i)
    {bytes : List UInt8} (h : p.marshal s i = .ok bytes) :
    p.size s i = .ok (wrap bytes.length) := by
  obtain ⟨m, hm, hsized⟩ := marshal_sized hp hs hi h
  have heq := hs.extents hp hno
  have hle := hsized.le fun x i hi a ha n e hk he => Nat.le_of_eq (heq x i hi a ha n e hk he)
  have hge := hsized.ge fun x i hi a ha n e hk he =>
    Nat.le_of_eq (heq x i hi a ha n e hk he).symm
  rw [hm, Nat.le_antisymm hle hge]

/-- Whatever operations made a store, an object in it that does not contain itself can be encoded
and measured, and its size is the length of its encoding. -/
theorem size_eq_length_marshal {source : Registry} {options : PlanOptions}
    (h : p.Compiled source options) (hno : p.registry.NoRedeclaration) (ops : List Operation)
    {x : Nat} {i : Instance} (hi : (p.run ops).get? x = some i) (hx : (p.run ops).Acyclic x) :
    ∃ bytes, p.marshal (p.run ops) i = .ok bytes ∧
      p.size (p.run ops) i = .ok (wrap bytes.length) := by
  have hp := h.toPlanned
  have hs := run_sound hp ops
  obtain ⟨bytes, hb⟩ := marshal_ok hp hs hi (hx.height hs (Store.get?_lt hi))
  exact ⟨bytes, hb, size_eq_wrap_length hp hs hno hi hb⟩

end Program

/-! A small program with a parent, an object inside another and lists of either kind. -/

namespace Survey

def source : Registry := .gather [
  { name := "Point", attributes := [
      { name := "x", kind := some (.primitive { type := "uint16" }) },
      { name := "label", kind := some (.primitive { type := "uint8", default := "7" }),
        transient := true }] },
  { name := "Track", attributes := [
      { name := "version", kind := some (.primitive { type := "uint8", default := "2" }) },
      { name := "numPoints", kind := some (.primitive { type := "uint8" }) },
      { name := "points", kind := some (.dynamicList "numPoints" { className := "Point" }) }] },
  { name := "Route", parent := "Track", attributes := [
      { name := "origin", kind := some (.object "Point") },
      { name := "codes", kind := some (.fixedList 2 { type := "uint8" }) },
      { name := "numMarks", kind := some (.primitive { type := "uint8" }) },
      { name := "marks", kind := some (.dynamicList "numMarks" { type := "uint16" }) }] }]

def options : PlanOptions := { primitiveLists := true }

def program : Program := (Program.compile? source options).getD ⟨{}, []⟩

def mixed : List Operation := [
  .new "Point", .new "Route", .new "Route", .append 4 "points" 0, .append 4 "points" 2,
  .setUint 0 "x" 258, .setArray 4 "codes" 1 511, .appendUint 4 "marks" 5, .unmarshal 2 [9, 1, 0]]

theorem mixed_evaluated : (Program.compile? source options).isSome = true ∧
    program.registry.NoRedeclaration ∧ 4 < (program.run mixed).size ∧
    (program.run mixed).isRanked (fun x => [0, 0, 1, 0, 2, 0].getD x 0) = true := by
  decide +kernel

theorem program_compiled : program.Compiled source options :=
  Program.compiled_getD (Registry.gather_built _) mixed_evaluated.1 _

theorem program_noRedeclaration : program.registry.NoRedeclaration := mixed_evaluated.2.1

theorem mixed_acyclic : (program.run mixed).Acyclic 4 :=
  Store.acyclic_of_isRanked mixed_evaluated.2.2.2 4

end Survey

/-- A list of points that holds a route, which a failed decoding has left a list of its own. -/
theorem size_eq_length_marshal_mixed :
    ∃ i, (Survey.program.run Survey.mixed).get? 4 = some i ∧
      (Survey.program.run Survey.mixed).Acyclic 4 ∧
      ∃ bytes, Survey.program.marshal (Survey.program.run Survey.mixed) i = .ok bytes ∧
        Survey.program.size (Survey.program.run Survey.mixed) i = .ok (wrap bytes.length) := by
  obtain ⟨i, hi⟩ := Store.get?_of_lt Survey.mixed_evaluated.2.2.1
  exact ⟨i, hi, Survey.mixed_acyclic, Program.size_eq_length_marshal Survey.program_compiled
    Survey.program_noRedeclaration Survey.mixed hi Survey.mixed_acyclic⟩

end PduCompiler
