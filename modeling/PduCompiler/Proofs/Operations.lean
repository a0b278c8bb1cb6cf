import PduCompiler.Machine.Bits
import PduCompiler.Proofs.Decoding

/-! Histories of a store. A store comes from the empty one by operations: objects are made, decoded
and decoded into, and their fields are set. An operation that fails leaves the store as it is, but
for decoding into an object, which keeps what it has read. -/

namespace PduCompiler

inductive Operation where
  | new (className : String)
  | decode (className : String) (bytes : List UInt8)
  | unmarshal (ref : Nat) (bytes : List UInt8)
  | setUint (ref : Nat) (field : String) (value : Word)
  | setFloat (ref : Nat) (field : String) (bits : Nat)
  | setBits (ref : Nat) (name : String) (value : Word)
  | setArray (ref : Nat) (field : String) (index : Nat) (value : Word)
  | appendUint (ref : Nat) (field : String) (value : Word)
  /-- Any object can be put into a list of objects, also one of another class. -/
  | append (ref : Nat) (field : String) (elem : Nat)
  deriving DecidableEq, Repr

def Store.update (s : Store) (ref : Nat) (change : Instance → Option Instance) : Store :=
  match (s.get? ref).bind change with
  | none => s
  | some i => s.set ref i

namespace Program

def perform (p : Program) (s : Store) : Operation → Store
  | .new className => ((p.new s className).toOption.map (·.1)).getD s
  | .decode className bytes => ((p.decode s className bytes).toOption.map (·.1)).getD s
  | .unmarshal ref bytes => (p.unmarshal s ref bytes).1
  | .setUint ref field value => s.update ref fun i => (i.setUint field value).toOption
  | .setFloat ref field bits => s.update ref fun i => (i.setFloat field bits).toOption
  | .setBits ref name value => s.update ref fun i => (p.setBits i name value).toOption
  | .setArray ref field index value => s.update ref fun i => i.setArray? field index value
  | .appendUint ref field value => s.update ref fun i => (i.appendUint field value).toOption
  | .append ref field elem =>
    if elem < s.size then s.update ref fun i => (i.append field elem).toOption else s

def run (p : Program) (ops : List Operation) : Store := ops.foldl p.perform {}

variable {p : Program} {s : Store}

abbrev anyField : Nat → String → Prop := fun _ _ => True

theorem update_steps {ref : Nat} {change : Instance → Option Instance}
    (h : ∀ i j, s.get? ref = some i → change i = some j → ∃ name, i.Change p.registry s name j) :
    p.Steps anyField s (s.update ref change) := by
  unfold Store.update
  cases hi : s.get? ref with
  | none => exact .refl
  | some i =>
    cases hj : change i with
    | none => simp only [Option.bind_some, hj]; exact .refl
    | some j =>
      obtain ⟨name, hc⟩ := h i j hi hj
      simp only [Option.bind_some, hj]
      exact .single (.change hi trivial hc)

theorem unmarshal_steps (hp : p.Planned) (hs : p.Sound s) (ref : Nat) (bytes : List UInt8) :
    p.Steps anyField s (p.unmarshal s ref bytes).1 := by
  unfold unmarshal
  cases hi : s.get? ref with
  | none => exact .refl
  | some i =>
    have hw := decodeInto_walks hp (p.decodeDepth s bytes) ref i.className
      { store := s, rest := bytes }
      ⟨hs, ⟨i, hi, serialised_sub _ _⟩, fun _ _ _ => trivial, fun _ _ _ => trivial⟩
    unfold Walks Decode.after at hw
    simp only
    cases hd : p.decodeInto (p.decodeDepth s bytes) ref i.className
        { store := s, rest := bytes } <;> simpa only [hd] using hw

theorem new_eq_ok {t : Store} {name : String} {ref : Nat} (h : p.new s name = .ok (t, ref)) :
    ∃ objects, p.build s.size name = .ok (objects, ref) ∧ t = s.append objects := by
  simp only [new, bind_eq_ok] at h
  obtain ⟨⟨objects, r⟩, hb, he⟩ := h
  cases he
  exact ⟨objects, hb, rfl⟩

theorem new_grown (hp : p.Planned) (hs : p.Sound s) {t : Store} {name : String} {ref : Nat}
    (h : p.new s name = .ok (t, ref)) :
    p.Grown s t ∧ s.size ≤ ref ∧ t.class? ref = some name ∧ ref ∉ t.embedded := by
  obtain ⟨objects, hb, rfl⟩ := new_eq_ok h
  exact build_grown hp hs hb

theorem setUint_eq_some {i j : Instance} {field : String} {w : Word}
    (hj : (i.setUint field w).toOption = some j) :
    ∃ t, i.types.get? field = some t ∧ j = i.setPrim field (t.truncate w) := by
  unfold Instance.setUint at hj
  cases ht : i.types.get? field with
  | none => simp [ht, Except.toOption] at hj
  | some t =>
    simp only [ht, Except.toOption, Option.some.injEq] at hj
    exact ⟨t, rfl, hj.symm⟩

theorem setBits_eq_some {i j : Instance} {name : String} {value : Word}
    (hj : (p.setBits i name value).toOption = some j) :
    ∃ field w, (i.setUint field w).toOption = some j := by
  unfold setBits at hj
  cases hb : p.bitField i.className name with
  | error e => simp [hb, bind, Except.bind, Except.toOption] at hj
  | ok b =>
    simp only [hb, bind, Except.bind] at hj
    cases hu : i.setUint b.field (b.set (i.uint b.field) value) with
    | error e => simp [hu, throw, throwThe, MonadExceptOf.throw, Except.toOption] at hj
    | ok k =>
      refine ⟨b.field, b.set (i.uint b.field) value, ?_⟩
      rw [hu]
      simpa [hu, pure, Except.pure, Except.toOption] using hj

theorem setFloat_eq_some {i j : Instance} {field : String} {bits : Nat}
    (hj : (i.setFloat field bits).toOption = some j) : ∃ t, i.types.get? field = some t ∧
      j = i.setPrim field (BitVec.ofNat 64 (if t = Scalar.float32.name then
        BinaryFormat.binary64.convert BinaryFormat.binary32 bits else bits)) := by
  unfold Instance.setFloat at hj
  cases ht : i.types.get? field with
  | none => simp [ht, Except.toOption] at hj
  | some t =>
    simp only [ht, Except.toOption, Option.some.injEq, beq_iff_eq] at hj
    exact ⟨t, rfl, hj.symm⟩

theorem appendUint_eq_some {i j : Instance} {field : String} {w : Word}
    (hj : (i.appendUint field w).toOption = some j) : ∃ ws, i.primLists.get? field = some ws ∧
      j = { i with primLists := i.primLists.set field (ws ++ [w]) } := by
  unfold Instance.appendUint at hj
  cases hl : i.primLists.get? field with
  | none => simp [hl, Except.toOption] at hj
  | some ws =>
    simp only [hl, Except.toOption, Option.some.injEq] at hj
    exact ⟨ws, rfl, hj.symm⟩

theorem setArray?_eq_some {i j : Instance} {field : String} {index : Nat} {w : Word}
    (hj : i.setArray? field index w = some j) : index < (i.array field).length ∧
      j = { i with arrays := i.arrays.set field ((i.array field).set index w) } := by
  simp only [Instance.setArray?] at hj
  by_cases hx : index < (i.array field).length
  · rw [if_pos hx] at hj
    exact ⟨hx, (Option.some.inj hj).symm⟩
  · simp [hx] at hj

theorem append_eq_some {i j : Instance} {field : String} {elem : Nat}
    (hj : (i.append field elem).toOption = some j) : ∃ refs, i.lists.get? field = some refs ∧
      j = { i with lists := i.lists.set field (refs ++ [elem]) } := by
  unfold Instance.append at hj
  cases hl : i.lists.get? field with
  | none => simp [hl, Except.toOption] at hj
  | some refs =>
    simp only [hl, Except.toOption, Option.some.injEq] at hj
    exact ⟨refs, rfl, hj.symm⟩

theorem setUint_change {i j : Instance} {field : String} {w : Word}
    (h : (i.setUint field w).toOption = some j) : ∃ name, i.Change p.registry s name j := by
  obtain ⟨t, -, rfl⟩ := setUint_eq_some h
  exact ⟨field, .word _⟩

theorem setFloat_change {i j : Instance} {field : String} {bits : Nat}
    (h : (i.setFloat field bits).toOption = some j) : ∃ name, i.Change p.registry s name j := by
  obtain ⟨t, -, rfl⟩ := setFloat_eq_some h
  exact ⟨field, .word _⟩

theorem setBits_change {i j : Instance} {name : String} {value : Word}
    (h : (p.setBits i name value).toOption = some j) : ∃ name, i.Change p.registry s name j := by
  obtain ⟨field, w, hw⟩ := setBits_eq_some h
  exact setUint_change hw

theorem setArray_change {i j : Instance} {field : String} {index : Nat} {w : Word}
    (h : i.setArray? field index w = some j) : ∃ name, i.Change p.registry s name j := by
  obtain ⟨-, rfl⟩ := setArray?_eq_some h
  exact ⟨field, .array _ (by simp)⟩

theorem appendUint_change (hs : p.Sound s) {ref : Nat} {i j : Instance} {field : String}
    {w : Word} (hi : s.get? ref = some i) (h : (i.appendUint field w).toOption = some j) :
    ∃ name, i.Change p.registry s name j := by
  obtain ⟨ws, hl, rfl⟩ := appendUint_eq_some h
  exact ⟨field, .words _
    ((hs.object ref i hi).draft.lists field .words (by simp [Instance.HasList, hl]))⟩

theorem append_change (hs : p.Sound s) {ref elem : Nat} {i j : Instance} {field : String}
    (he : elem < s.size) (hi : s.get? ref = some i) (h : (i.append field elem).toOption = some j) :
    ∃ name, i.Change p.registry s name j := by
  obtain ⟨refs, hl, rfl⟩ := append_eq_some h
  refine ⟨field, .list _ (fun y hy => ?_)
    ((hs.object ref i hi).draft.lists field .list (by simp [Instance.HasList, hl]))⟩
  rcases List.mem_append.mp hy with hy | hy
  · exact (hs.object ref i hi).draft.elements_lt y
      (Instance.list_mem_elements (by rw [Instance.list, hl]; exact hy))
  · rw [List.mem_singleton.mp hy]
    exact he

theorem new_steps {name : String} :
    p.Steps anyField s (((p.new s name).toOption.map (·.1)).getD s) := by
  cases h : p.new s name with
  | error e => exact .refl
  | ok result =>
    obtain ⟨objects, hb, ht⟩ := new_eq_ok h
    simp only [Except.toOption, Option.map_some, Option.getD_some, ht]
    exact .single (.grow hb)

theorem decode_steps (hp : p.Planned) (hs : p.Sound s) {name : String} {bytes : List UInt8} :
    p.Steps anyField s (((p.decode s name bytes).toOption.map (·.1)).getD s) := by
  unfold decode
  cases h : p.new s name with
  | error e => exact .refl
  | ok result =>
    obtain ⟨t, ref⟩ := result
    obtain ⟨objects, hb, rfl⟩ := new_eq_ok h
    have hgrow : p.Steps anyField s (s.append objects) := .single (.grow hb)
    have hu := unmarshal_steps hp (hgrow.sound hp hs) ref bytes
    simp only [bind, Except.bind]
    rcases hun : p.unmarshal (s.append objects) ref bytes with ⟨u, n, _ | e⟩
    · rw [hun] at hu
      exact hgrow.trans hu
    · exact .refl

theorem perform_steps (hp : p.Planned) (hs : p.Sound s) (op : Operation) :
    p.Steps anyField s (p.perform s op) := by
  cases op with
  | new className => exact new_steps
  | decode className bytes => exact decode_steps hp hs
  | unmarshal ref bytes => exact unmarshal_steps hp hs ref bytes
  | setUint ref field value => exact update_steps fun _ _ _ h => setUint_change h
  | setFloat ref field bits => exact update_steps fun _ _ _ h => setFloat_change h
  | setBits ref name value => exact update_steps fun _ _ _ h => setBits_change h
  | setArray ref field index value => exact update_steps fun _ _ _ h => setArray_change h
  | appendUint ref field value => exact update_steps fun _ _ hi h => appendUint_change hs hi h
  | append ref field elem =>
    rw [perform]
    by_cases he : elem < s.size
    · rw [if_pos he]
      exact update_steps fun _ _ hi h => append_change hs he hi h
    · rw [if_neg he]

theorem run_concat (p : Program) (ops : List Operation) (op : Operation) :
    p.run (ops ++ [op]) = p.perform (p.run ops) op := by
  simp [run]

theorem run_sound (hp : p.Planned) (ops : List Operation) : p.Sound (p.run ops) := by
  induction ops using List.reverseRecOn with
  | nil => exact .empty p
  | append_singleton ops op ih =>
    rw [run_concat]
    exact (perform_steps hp ih op).sound hp ih

end Program

end PduCompiler
