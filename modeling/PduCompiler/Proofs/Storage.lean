import Mathlib.Data.List.Induction
import Mathlib.Data.List.Nodup
import Mathlib.Data.List.Perm.Subperm
import PduCompiler.Machine.Construct
import PduCompiler.Proofs.Planning

/-! What objects hold. Every attribute has a slot, which is a table together with a name. A sound
store has in the slot of each attribute what the last declaration for that slot asks for, and no
object lies inside two others. -/

namespace PduCompiler

theorem Table.set_flatMap_subperm {α β : Type} (f : α → List β) (t : Table α) (name : String)
    (v : α) :
    ((t.set name v).flatMap fun e => f e.2).Subperm (f v ++ t.flatMap fun e => f e.2) := by
  induction t with
  | nil => simp [set, List.Subperm.refl]
  | cons e rest ih =>
    obtain ⟨n, u⟩ := e
    by_cases h : n = name
    · simp only [set, h, beq_self_eq_true, if_true, List.flatMap_cons]
      exact (List.Sublist.append_left (List.sublist_append_right _ _) _).subperm
    · simp only [set, beq_iff_eq, h, if_false, List.flatMap_cons]
      refine ((List.subperm_append_left (f u)).mpr ih).trans (List.Perm.subperm ?_)
      rw [← List.append_assoc, ← List.append_assoc]
      exact List.perm_append_comm.append_right _

theorem Table.mem_of_get? {α : Type} {t : Table α} {name : String} {v : α}
    (h : t.get? name = some v) : (name, v) ∈ t := by
  obtain ⟨⟨n, u⟩, he, rfl⟩ := Option.map_eq_some_iff.mp h
  obtain rfl : n = name := by simpa using List.find?_some he
  exact List.mem_of_find?_eq_some he

inductive Slot where
  | word | object | array | objects | words | list
  deriving DecidableEq, Repr

namespace Attribute

def slot (a : Attribute) : Slot :=
  match a.kind with
  | some (.primitive _) => .word
  | some (.object _) => .object
  | some (.fixedList _ e) => if e.isObject then .objects else .array
  | some (.dynamicList _ e) => if e.isObject then .list else .words
  | none => .words

inductive Form (a : Attribute) : Prop
  | word (q : Primitive) (h : a.kind = some (.primitive q))
  | object (name : String) (h : a.kind = some (.object name))
  | array (n : Int) (e : Element) (h : a.kind = some (.fixedList n e)) (he : e.isObject = false)
  | objects (n : Int) (e : Element) (h : a.kind = some (.fixedList n e)) (he : e.isObject = true)
  | words (field : String) (e : Element) (h : a.kind = some (.dynamicList field e))
      (he : e.isObject = false)
  | list (field : String) (e : Element) (h : a.kind = some (.dynamicList field e))
      (he : e.isObject = true)

theorem form {a : Attribute} (h : a.kind ≠ none) : a.Form := by
  cases hk : a.kind with
  | none => exact (h hk).elim
  | some k =>
    cases k with
    | primitive q => exact .word q hk
    | object name => exact .object name hk
    | fixedList n e =>
      cases he : e.isObject with
      | true => exact .objects n e hk he
      | false => exact .array n e hk he
    | dynamicList field e =>
      cases he : e.isObject with
      | true => exact .list field e hk he
      | false => exact .words field e hk he

def LastIn (a : Attribute) (attrs : List Attribute) : Prop :=
  ∃ pre post, attrs = pre ++ a :: post ∧ ∀ b ∈ post, b.name = a.name → b.slot ≠ a.slot

theorem LastIn.mem {a : Attribute} {attrs : List Attribute} (h : a.LastIn attrs) : a ∈ attrs := by
  obtain ⟨pre, post, rfl, -⟩ := h
  simp

theorem LastIn.of_append_singleton {a b : Attribute} {attrs : List Attribute}
    (h : a.LastIn (attrs ++ [b])) :
    a = b ∨ a.LastIn attrs ∧ (b.name = a.name → b.slot ≠ a.slot) := by
  obtain ⟨pre, post, he, hp⟩ := h
  rcases List.eq_nil_or_concat post with rfl | ⟨post, c, rfl⟩
  · have hh := List.append_inj' he (by simp)
    exact .inl (List.cons.inj hh.2).1.symm
  · have hh := List.append_inj' (by simpa using he : attrs ++ [b] = (pre ++ a :: post) ++ [c])
      (by simp)
    obtain rfl := (List.cons.inj hh.2).1
    exact .inr ⟨⟨pre, post, hh.1, fun d hd => hp d (by simp [hd])⟩, hp b (by simp)⟩

theorem lastIn_of_nodup {a : Attribute} {attrs : List Attribute}
    (hn : (attrs.map (·.name)).Nodup) (h : a ∈ attrs) : a.LastIn attrs := by
  obtain ⟨pre, post, rfl⟩ := List.append_of_mem h
  refine ⟨pre, post, rfl, fun b hb hba => ?_⟩
  simp only [List.map_append, List.map_cons] at hn
  have hh := (List.nodup_cons.mp (List.nodup_append.mp hn).2.1).1
  exact (hh (List.mem_map.mpr ⟨b, hb, hba⟩)).elim

theorem exists_lastIn {a : Attribute} {attrs : List Attribute} (h : a ∈ attrs) :
    ∃ b : Attribute, b.LastIn attrs ∧ b.name = a.name ∧ b.slot = a.slot := by
  induction attrs using List.reverseRecOn with
  | nil => simp at h
  | append_singleton attrs c ih =>
    by_cases hs : c.name = a.name ∧ c.slot = a.slot
    · exact ⟨c, ⟨attrs, [], rfl, by simp⟩, hs⟩
    · have ha : a ∈ attrs := by
        rcases List.mem_append.mp h with h | h
        · exact h
        · rw [List.mem_singleton.mp h] at hs
          exact (hs ⟨rfl, rfl⟩).elim
      obtain ⟨b, ⟨pre, post, rfl, hp⟩, hn, hb⟩ := ih ha
      refine ⟨b, ⟨pre, post ++ [c], by simp, fun d hd hdn => ?_⟩, hn, hb⟩
      rcases List.mem_append.mp hd with hd | hd
      · exact hp d hd hdn
      · obtain rfl := List.mem_singleton.mp hd
        exact fun he => hs ⟨hdn.trans hn, he.trans hb⟩

end Attribute

namespace Store

def class? (s : Store) (ref : Nat) : Option String := (s.get? ref).map (·.className)

theorem get?_lt {s : Store} {ref : Nat} {i : Instance} (h : s.get? ref = some i) : ref < s.size :=
  (Array.getElem?_eq_some_iff.mp h).1

theorem get?_of_lt {s : Store} {ref : Nat} (h : ref < s.size) : ∃ i, s.get? ref = some i :=
  ⟨_, Array.getElem?_eq_getElem h⟩

theorem class?_lt {s : Store} {ref : Nat} {name : String} (h : s.class? ref = some name) :
    ref < s.size := by
  obtain ⟨i, hi, -⟩ := Option.map_eq_some_iff.mp h
  exact get?_lt hi

@[simp] theorem size_append (s : Store) (objects : Array Instance) :
    (s.append objects).size = s.size + objects.size := by simp [append, size]

theorem append_append (s : Store) (a b : Array Instance) :
    (s.append a).append b = s.append (a ++ b) := by simp [append, Array.append_assoc]

theorem get?_append_left {s : Store} {ref : Nat} (h : ref < s.size) (objects : Array Instance) :
    (s.append objects).get? ref = s.get? ref := Array.getElem?_append_left h

theorem get?_append_some {s : Store} {ref : Nat} {i : Instance} (h : s.get? ref = some i)
    (objects : Array Instance) : (s.append objects).get? ref = some i := by
  rw [get?_append_left (get?_lt h), h]

theorem get?_append_right {s : Store} {ref : Nat} (h : s.size ≤ ref) (objects : Array Instance) :
    (s.append objects).get? ref = objects[ref - s.size]? := Array.getElem?_append_right h

theorem class?_append {s : Store} {ref : Nat} {name : String} (h : s.class? ref = some name)
    (objects : Array Instance) : (s.append objects).class? ref = some name := by
  rw [class?, get?_append_left (class?_lt h)]
  exact h

@[simp] theorem size_set (s : Store) (ref : Nat) (i : Instance) : (s.set ref i).size = s.size := by
  simp [set, size]

theorem get?_set (s : Store) (ref other : Nat) (i : Instance) :
    (s.set ref i).get? other =
      if other = ref then (s.get? ref).map fun _ => i else s.get? other := by
  by_cases h : other = ref
  · subst h
    by_cases hs : other < s.objects.size
    · simp [set, get?, hs]
    · simp [set, get?, hs]
  · simp [set, get?, h, Ne.symm h]

end Store

namespace Instance

def embedded (i : Instance) : List Nat :=
  (i.objects.flatMap fun e => [e.2]) ++ i.objectArrays.flatMap fun e => e.2

def elements (i : Instance) : List Nat := i.lists.flatMap fun e => e.2

theorem object?_mem_embedded {i : Instance} {name : String} {y : Nat}
    (h : i.object? name = some y) : y ∈ i.embedded :=
  List.mem_append_left _ (List.mem_flatMap.mpr ⟨_, Table.mem_of_get? h, by simp⟩)

theorem objectArray_mem_embedded {i : Instance} {name : String} {y : Nat}
    (h : y ∈ i.objectArray name) : y ∈ i.embedded := by
  unfold objectArray at h
  cases hg : i.objectArrays.get? name with
  | none => simp [hg] at h
  | some refs =>
    rw [hg, Option.getD_some] at h
    exact List.mem_append_right _ (List.mem_flatMap.mpr ⟨_, Table.mem_of_get? hg, h⟩)

theorem list_mem_elements {i : Instance} {name : String} {y : Nat} (h : y ∈ i.list name) :
    y ∈ i.elements := by
  unfold list at h
  cases hg : i.lists.get? name with
  | none => simp [hg] at h
  | some refs =>
    rw [hg, Option.getD_some] at h
    exact List.mem_flatMap.mpr ⟨_, Table.mem_of_get? hg, h⟩

def AgreeAt (i j : Instance) (name : String) : Slot → Prop
  | .word => j.prims.get? name = i.prims.get? name
  | .object => j.objects.get? name = i.objects.get? name
  | .array => j.arrays.get? name = i.arrays.get? name
  | .objects => j.objectArrays.get? name = i.objectArrays.get? name
  | .words => j.primLists.get? name = i.primLists.get? name
  | .list => j.lists.get? name = i.lists.get? name

def Holds (s : Store) (i : Instance) (a : Attribute) : Prop :=
  match a.kind with
  | some (.object name) => ∃ y, i.object? a.name = some y ∧ s.class? y = some name
  | some (.fixedList n e) =>
    if e.isObject then (i.objectArray a.name).length = n.toNat ∧
      ∀ y ∈ i.objectArray a.name, s.class? y = some e.className
    else (i.array a.name).length = n.toNat
  | some (.dynamicList _ e) => if e.isObject then True else (i.primLists.get? a.name).isSome
  | _ => True

theorem Holds.of_agree {s t : Store} {i j : Instance} {a : Attribute} (h : i.Holds s a)
    (hij : i.AgreeAt j a.name a.slot)
    (hst : ∀ y name, s.class? y = some name → t.class? y = some name) : j.Holds t a := by
  by_cases hk : a.kind = none
  · simp [Holds, hk]
  cases Attribute.form hk with
  | word q hk => simp [Holds, hk]
  | object name hk =>
    simp only [Attribute.slot, hk, AgreeAt] at hij
    simp only [Holds, hk, object?] at h ⊢
    obtain ⟨y, hy, hc⟩ := h
    exact ⟨y, hij.trans hy, hst y _ hc⟩
  | array n e hk he =>
    simp only [Attribute.slot, hk, he, AgreeAt, if_neg Bool.false_ne_true] at hij
    simp only [Holds, hk, he, array, if_neg Bool.false_ne_true] at h ⊢
    rwa [hij]
  | objects n e hk he =>
    simp only [Attribute.slot, hk, he, AgreeAt, if_true] at hij
    simp only [Holds, hk, he, objectArray, if_true] at h ⊢
    rw [hij]
    exact ⟨h.1, fun y hy => hst y _ (h.2 y hy)⟩
  | words field e hk he =>
    simp only [Attribute.slot, hk, he, AgreeAt, if_neg Bool.false_ne_true] at hij
    simp only [Holds, hk, he, if_neg Bool.false_ne_true] at h ⊢
    rwa [hij]
  | list field e hk he => simp [Holds, hk, he]

def HasList (i : Instance) (name : String) : Slot → Prop
  | .words => (i.primLists.get? name).isSome
  | .list => (i.lists.get? name).isSome
  | _ => False

theorem HasList.of_agree {i j : Instance} {name : String} {slot : Slot} (h : j.HasList name slot)
    (hij : i.AgreeAt j name slot) : i.HasList name slot := by
  cases slot with
  | words | list =>
    simp only [AgreeAt] at hij
    simpa only [HasList, hij] using h
  | _ => exact h

/-- What is known of the fields of an object, when it has been given some attributes. -/
structure Draft (s : Store) (i : Instance) (attrs : List Attribute) : Prop where
  holds : ∀ a : Attribute, a.LastIn attrs → i.Holds s a
  embedded_lt : ∀ y ∈ i.embedded, y < s.size
  elements_lt : ∀ y ∈ i.elements, y < s.size
  lists : ∀ name slot, i.HasList name slot → ∃ a ∈ attrs, a.name = name ∧ a.slot = slot

theorem Draft.of_store {s t : Store} {i : Instance} {attrs : List Attribute}
    (h : i.Draft s attrs) (hsize : s.size ≤ t.size)
    (hst : ∀ y name, s.class? y = some name → t.class? y = some name) : i.Draft t attrs := by
  refine ⟨fun a ha => (h.holds a ha).of_agree ?_ hst, fun y hy => ?_, fun y hy => ?_, h.lists⟩
  · cases a.slot <;> rfl
  · exact Nat.lt_of_lt_of_le (h.embedded_lt y hy) hsize
  · exact Nat.lt_of_lt_of_le (h.elements_lt y hy) hsize

theorem Draft.append {s : Store} {i : Instance} {attrs : List Attribute} (h : i.Draft s attrs)
    (objects : Array Instance) : i.Draft (s.append objects) attrs :=
  h.of_store (by simp) fun _ _ hy => Store.class?_append hy objects

end Instance

def Store.embedded (s : Store) : List Nat := s.objects.toList.flatMap Instance.embedded

theorem Store.embedded_append (s : Store) (objects : Array Instance) :
    (s.append objects).embedded = s.embedded ++ objects.toList.flatMap Instance.embedded := by
  simp [embedded, append]

namespace Program

def Ready (p : Program) (name : String) : Prop :=
  ∀ n i, ∃ result, p.construct p.initDepth n i name = .ok result

structure ObjectSound (p : Program) (s : Store) (x : Nat) (i : Instance) : Prop where
  ready : p.Ready i.className
  draft : i.Draft s (p.registry.allAttributes i.className)
  below : ∀ y ∈ i.embedded, y < x

structure Sound (p : Program) (s : Store) : Prop where
  object : ∀ (x : Nat) (i : Instance), s.get? x = some i → p.ObjectSound s x i
  owners : s.embedded.Nodup

theorem Sound.empty (p : Program) : p.Sound {} :=
  ⟨fun x i h => by simp [Store.get?] at h, by simp [Store.embedded]⟩

end Program

end PduCompiler
