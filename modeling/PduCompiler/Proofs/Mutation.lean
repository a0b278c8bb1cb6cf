import Mathlib.Logic.Relation
import PduCompiler.Proofs.Construction

/-! Everything that happens to a store after an object was made is a sequence of small steps: a
field of an object is overwritten, or a new object is built. Such steps keep a store sound, and
they leave alone what they are not allowed to write. -/

namespace PduCompiler

namespace Instance

theorem uint_setPrim (i : Instance) (name other : String) (w : Word) :
    (i.setPrim name w).uint other = if other = name then w else i.uint other := by
  unfold uint setPrim
  rw [Table.get?_set]
  split <;> rfl

inductive Change (r : Registry) (s : Store) (i : Instance) (name : String) : Instance → Prop
  | word (w : Word) : Change r s i name (i.setPrim name w)
  | array (ws : List Word) (h : ws.length = (i.array name).length) :
      Change r s i name { i with arrays := i.arrays.set name ws }
  | words (ws : List Word)
      (h : ∃ a ∈ r.allAttributes i.className, a.name = name ∧ a.slot = .words) :
      Change r s i name { i with primLists := i.primLists.set name ws }
  | list (refs : List Nat) (h : ∀ y ∈ refs, y < s.size)
      (hdecl : ∃ a ∈ r.allAttributes i.className, a.name = name ∧ a.slot = .list) :
      Change r s i name { i with lists := i.lists.set name refs }

/-- What stays the same about an object when only some fields of it are overwritten. -/
structure Kept (i : Instance) (writes : String → Prop) (j : Instance) : Prop where
  className : j.className = i.className
  objects : j.objects = i.objects
  objectArrays : j.objectArrays = i.objectArrays
  agree : ∀ name, ¬ writes name → ∀ slot, i.AgreeAt j name slot

theorem AgreeAt.refl (i : Instance) (name : String) (slot : Slot) : i.AgreeAt i name slot := by
  cases slot <;> rfl

theorem AgreeAt.trans {i j k : Instance} {name : String} {slot : Slot}
    (h : i.AgreeAt j name slot) (h' : j.AgreeAt k name slot) : i.AgreeAt k name slot := by
  cases slot <;> exact Eq.trans h' h

theorem Kept.refl (i : Instance) (writes : String → Prop) : i.Kept writes i :=
  ⟨rfl, rfl, rfl, fun name _ slot => .refl i name slot⟩

theorem Kept.trans {i j k : Instance} {writes : String → Prop} (h : i.Kept writes j)
    (h' : j.Kept writes k) : i.Kept writes k :=
  ⟨h'.className.trans h.className, h'.objects.trans h.objects,
    h'.objectArrays.trans h.objectArrays,
    fun name hn slot => (h.agree name hn slot).trans (h'.agree name hn slot)⟩

theorem Kept.mono {i j : Instance} {writes writes' : String → Prop} (h : i.Kept writes j)
    (hw : ∀ name, writes name → writes' name) : i.Kept writes' j :=
  ⟨h.className, h.objects, h.objectArrays, fun name hn => h.agree name fun hh => hn (hw name hh)⟩

theorem Kept.embedded {i j : Instance} {writes : String → Prop} (h : i.Kept writes j) :
    j.embedded = i.embedded := by
  rw [Instance.embedded, Instance.embedded, h.objects, h.objectArrays]

theorem Change.kept {r : Registry} {s : Store} {i j : Instance} {name : String}
    (h : i.Change r s name j) : i.Kept (· = name) j := by
  cases h with
  | word w =>
    refine ⟨rfl, rfl, rfl, fun n hn slot => ?_⟩
    cases slot <;> simp [AgreeAt, setPrim, Table.get?_set, hn]
  | array ws _ | words ws _ | list refs _ _ =>
    refine ⟨rfl, rfl, rfl, fun n hn slot => ?_⟩
    cases slot <;> simp [AgreeAt, Table.get?_set, hn]

theorem Change.holds {r : Registry} {s t : Store} {i j : Instance} {name : String}
    (h : i.Change r s name j) (hst : ∀ y n, s.class? y = some n → t.class? y = some n)
    {a : Attribute} (ha : i.Holds s a) : j.Holds t a := by
  by_cases hn : a.name = name
  · by_cases hk : a.kind = none
    · simp [Holds, hk]
    -- only the slot that was overwritten needs a look
    cases Attribute.form hk with
    | word q hk => simp [Holds, hk]
    | list field e hk he => simp [Holds, hk, he]
    | array n e hk he =>
      simp only [Holds, hk, he, if_neg Bool.false_ne_true] at ha ⊢
      cases h with
      | array ws hlen => simpa [Instance.array, Table.get?_set, hn, hlen] using ha
      | _ => exact ha
    | words field e hk he =>
      simp only [Holds, hk, he, if_neg Bool.false_ne_true] at ha ⊢
      cases h with
      | words ws _ => simp [Table.get?_set, hn]
      | _ => exact ha
    | object cls hk =>
      refine ha.of_agree ?_ hst
      simp only [Attribute.slot, hk, AgreeAt, h.kept.objects]
    | objects n e hk he =>
      refine ha.of_agree ?_ hst
      simp only [Attribute.slot, hk, he, if_true, AgreeAt, h.kept.objectArrays]
  · exact ha.of_agree (h.kept.agree a.name hn a.slot) hst

theorem Change.draft {r : Registry} {s t : Store} {i j : Instance} {name : String}
    (h : i.Change r s name j) (hsize : t.size = s.size)
    (hst : ∀ y n, s.class? y = some n → t.class? y = some n)
    (hd : i.Draft s (r.allAttributes i.className)) :
    j.Draft t (r.allAttributes j.className) := by
  rw [h.kept.className]
  refine ⟨fun a ha => h.holds hst (hd.holds a ha), ?_, ?_, ?_⟩
  · rw [h.kept.embedded, hsize]
    exact hd.embedded_lt
  · rw [hsize]
    cases h with
    | list refs hrefs _ =>
      intro y hy
      rcases List.mem_append.mp ((Table.set_flatMap_subperm id i.lists name refs).subset hy)
        with hy | hy
      · exact hrefs y hy
      · exact hd.elements_lt y hy
    | _ => exact hd.elements_lt
  · intro n slot hl
    by_cases hn : n = name
    · subst hn
      cases h with
      | words ws hdecl =>
        cases slot with
        | words => exact hdecl
        | _ => exact hd.lists n _ hl
      | list refs _ hdecl =>
        cases slot with
        | list => exact hdecl
        | _ => exact hd.lists n _ hl
      | _ => exact hd.lists n slot hl
    · exact hd.lists n slot (hl.of_agree (h.kept.agree n hn slot))

end Instance

namespace Store

theorem class?_set {s : Store} {x : Nat} {i j : Instance} (hi : s.get? x = some i)
    (hc : j.className = i.className) (y : Nat) : (s.set x j).class? y = s.class? y := by
  by_cases hy : y = x
  · simp [class?, get?_set, hy, hi, hc]
  · simp [class?, get?_set, hy]

theorem embedded_set {s : Store} {x : Nat} {i j : Instance} (hi : s.get? x = some i)
    (he : j.embedded = i.embedded) : (s.set x j).embedded = s.embedded := by
  have hmap : (s.objects.toList.set x j).map Instance.embedded =
      s.objects.toList.map Instance.embedded := by
    have hget : s.objects.toList[x]? = some i := by simpa [get?] using hi
    obtain ⟨hx, hxi⟩ := List.getElem?_eq_some_iff.mp hget
    rw [← hxi] at he
    rw [List.map_set, he]
    refine List.ext_getElem (by simp) fun k _ _ => ?_
    by_cases hk : x = k
    · subst hk
      simp
    · simp [hk]
  simp only [embedded, set, Array.toList_setIfInBounds, List.flatMap_def, hmap]

/-- A store in which only some fields of the objects that were there are overwritten. -/
structure Frame (writes : Nat → String → Prop) (s t : Store) : Prop where
  size_le : s.size ≤ t.size
  object : ∀ (x : Nat) (i : Instance), s.get? x = some i →
    ∃ j, t.get? x = some j ∧ i.Kept (writes x) j

theorem Frame.refl (writes : Nat → String → Prop) (s : Store) : Frame writes s s :=
  ⟨Nat.le_refl _, fun _ i hi => ⟨i, hi, .refl i _⟩⟩

theorem Frame.trans {writes : Nat → String → Prop} {s t u : Store} (h : Frame writes s t)
    (h' : Frame writes t u) : Frame writes s u := by
  refine ⟨Nat.le_trans h.size_le h'.size_le, fun x i hi => ?_⟩
  obtain ⟨j, hj, hij⟩ := h.object x i hi
  obtain ⟨k, hk, hjk⟩ := h'.object x j hj
  exact ⟨k, hk, hij.trans hjk⟩

theorem Frame.mono {writes writes' : Nat → String → Prop} {s t : Store} (h : Frame writes s t)
    (hw : ∀ x name, writes x name → writes' x name) : Frame writes' s t := by
  refine ⟨h.size_le, fun x i hi => ?_⟩
  obtain ⟨j, hj, hij⟩ := h.object x i hi
  exact ⟨j, hj, hij.mono (hw x)⟩

theorem Frame.class? {writes : Nat → String → Prop} {s t : Store} (h : Frame writes s t) {x : Nat}
    {name : String} (hx : s.class? x = some name) : t.class? x = some name := by
  obtain ⟨i, hi, rfl⟩ := Option.map_eq_some_iff.mp hx
  obtain ⟨j, hj, hij⟩ := h.object x i hi
  simp [Store.class?, hj, hij.className]

end Store

namespace Program

/-- A small step over a store, which overwrites no field but those that it may. -/
inductive Step (p : Program) (writes : Nat → String → Prop) : Store → Store → Prop
  | change {s : Store} {x : Nat} {i j : Instance} {name : String} (hi : s.get? x = some i)
      (hw : writes x name) (h : i.Change p.registry s name j) : Step p writes s (s.set x j)
  | grow {s : Store} {name : String} {objects : Array Instance} {ref : Nat}
      (h : p.build s.size name = .ok (objects, ref)) : Step p writes s (s.append objects)

abbrev Steps (p : Program) (writes : Nat → String → Prop) :=
  Relation.ReflTransGen (p.Step writes)

theorem Step.sound {p : Program} (hp : p.Planned) {writes : Nat → String → Prop} {s t : Store}
    (h : p.Step writes s t) (hs : p.Sound s) : p.Sound t := by
  cases h with
  | grow hb => exact (build_grown hp hs hb).1.sound
  | @change x i j name hi hw hc =>
    have hcls := Store.class?_set hi hc.kept.className
    have hst : ∀ y n, s.class? y = some n → (s.set x j).class? y = some n :=
      fun y n hy => (hcls y).trans hy
    refine ⟨fun y k hk => ?_, ?_⟩
    · rw [Store.get?_set] at hk
      by_cases hy : y = x
      · subst hy
        rw [if_pos rfl, hi] at hk
        cases hk
        obtain ⟨h1, h2, h3⟩ := hs.object y i hi
        exact ⟨hc.kept.className ▸ h1, hc.draft (s.size_set y j) hst h2,
          hc.kept.embedded ▸ h3⟩
      · rw [if_neg hy] at hk
        obtain ⟨h1, h2, h3⟩ := hs.object y k hk
        exact ⟨h1, h2.of_store (Nat.le_of_eq (s.size_set x j).symm) hst, h3⟩
    · rw [Store.embedded_set hi hc.kept.embedded]
      exact hs.owners

theorem Step.frame {p : Program} {writes : Nat → String → Prop} {s t : Store}
    (h : p.Step writes s t) : Store.Frame writes s t := by
  cases h with
  | @grow _ objects _ hb =>
    exact ⟨by simp, fun x i hi => ⟨i, Store.get?_append_some hi objects, .refl i _⟩⟩
  | @change x i j name hi hw hc =>
    refine ⟨Nat.le_of_eq (s.size_set x j).symm, fun y k hk => ?_⟩
    by_cases hy : y = x
    · subst hy
      cases Option.some.inj (hi.symm.trans hk)
      refine ⟨j, by simp [Store.get?_set, hi], hc.kept.mono ?_⟩
      rintro n rfl
      exact hw
    · exact ⟨k, by simp [Store.get?_set, hy, hk], .refl k _⟩

theorem Steps.mono {p : Program} {writes writes' : Nat → String → Prop} {s t : Store}
    (h : p.Steps writes s t) (hw : ∀ x name, writes x name → writes' x name) :
    p.Steps writes' s t := by
  refine Relation.ReflTransGen.mono (fun s t hst => ?_) _ _ h
  cases hst with
  | change hi hx hc => exact .change hi (hw _ _ hx) hc
  | grow hb => exact .grow hb

theorem Steps.sound {p : Program} (hp : p.Planned) {writes : Nat → String → Prop} {s t : Store}
    (h : p.Steps writes s t) (hs : p.Sound s) : p.Sound t := by
  induction h with
  | refl => exact hs
  | tail _ hstep ih => exact hstep.sound hp ih

theorem Steps.frame {p : Program} {writes : Nat → String → Prop} {s t : Store}
    (h : p.Steps writes s t) : Store.Frame writes s t := by
  induction h with
  | refl => exact .refl _ _
  | tail _ hstep ih => exact ih.trans hstep.frame

end Program

end PduCompiler
