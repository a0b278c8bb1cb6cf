import Mathlib.Data.List.Nodup
import Mathlib.Data.List.Perm.Subperm
import Mathlib.Logic.Relation
import PduCompiler.Proofs.Operations

/-! How deep objects nest. Without cycles a chain of references is no longer than the store, so the
depth that encoding is given over a store is enough. -/

namespace PduCompiler

open Relation

/-- Every chain from `x` has fewer than so many links. -/
def Height {α : Type} (E : α → α → Prop) : Nat → α → Prop
  | 0, _ => False
  | k + 1, x => ∀ y, E x y → Height E k y

section

variable {α : Type} {E : α → α → Prop} {x y : α}

theorem Height.mono {k m : Nat} (h : Height E k x) (hle : k ≤ m) : Height E m x := by
  induction k generalizing m x with
  | zero => exact h.elim
  | succ k ih =>
    obtain ⟨m, rfl⟩ : ∃ j, m = j + 1 := ⟨m - 1, by omega⟩
    exact fun y hxy => ih (h y hxy) (by omega)

theorem Height.of_reach {k : Nat} (h : Height E k x) (hr : ReflTransGen E x y) :
    ∃ j, j ≤ k ∧ Height E j y := by
  induction hr using ReflTransGen.head_induction_on generalizing k with
  | refl => exact ⟨k, Nat.le_refl _, h⟩
  | head hxz _ ih =>
    cases k with
    | zero => exact h.elim
    | succ k =>
      obtain ⟨j, hj, hy⟩ := ih (h _ hxz)
      exact ⟨j, by omega, hy⟩

theorem Height.acyclic {k : Nat} (h : Height E k x) (hr : ReflTransGen E x y) :
    ¬ TransGen E y y := by
  obtain ⟨j, -, hj⟩ := h.of_reach hr
  clear h hr
  induction j using Nat.strongRecOn with
  | ind j ih =>
    intro hc
    obtain ⟨z, hyz, hzy⟩ := TransGen.head'_iff.mp hc
    cases j with
    | zero => exact hj
    | succ j =>
      obtain ⟨j', hle, hj'⟩ := (hj z hyz).of_reach hzy
      exact ih j' (by omega) hj' hc

theorem exists_chain_of_not_height {k : Nat} (h : ¬ Height E k x) :
    ∃ l : List α, l.length = k ∧ (x :: l).Pairwise (TransGen E) ∧
      ∀ z ∈ x :: l, ReflTransGen E x z := by
  induction k generalizing x with
  | zero => exact ⟨[], rfl, by simp, by simp [ReflTransGen.refl]⟩
  | succ k ih =>
    simp only [Height, not_forall] at h
    obtain ⟨y, hxy, hy⟩ := h
    obtain ⟨l, hl, hpw, hr⟩ := ih hy
    refine ⟨y :: l, by simp [hl], List.pairwise_cons.mpr ⟨fun z hz => ?_, hpw⟩, fun z hz => ?_⟩
    · exact TransGen.head' hxy (hr z hz)
    · rcases List.mem_cons.mp hz with rfl | hz
      · exact .refl
      · exact .head hxy (hr z hz)

theorem height_of_acyclic {all : List α} (hall : ∀ y, ReflTransGen E x y → y ∈ all)
    (hac : ∀ y, ReflTransGen E x y → ¬ TransGen E y y) : Height E all.length x := by
  by_contra hn
  -- a chain with a link for each member of `all` and one more meets some member twice
  obtain ⟨l, hl, hpw, hr⟩ := exists_chain_of_not_height hn
  have hnd : (x :: l).Nodup := by
    refine hpw.imp_of_mem fun {a b} ha _ hab he => ?_
    subst he
    exact hac a (hr a ha) hab
  have hlen := (hnd.subperm fun z hz => hall z (hr z hz)).length_le
  simp only [List.length_cons, hl] at hlen
  omega

end

namespace Store

def Refers (s : Store) (x y : Nat) : Prop :=
  ∃ i, s.get? x = some i ∧ (y ∈ i.embedded ∨ y ∈ i.elements)

/-- No object that is reached from `x` contains itself. -/
def Acyclic (s : Store) (x : Nat) : Prop :=
  ∀ y, ReflTransGen s.Refers x y → ¬ TransGen s.Refers y y

theorem acyclic_of_rank {s : Store} (rank : Nat → Nat)
    (h : ∀ x < s.size, ∀ i, s.get? x = some i → ∀ y ∈ i.embedded ++ i.elements, rank y < rank x)
    (x : Nat) : s.Acyclic x := by
  have hstep : ∀ y z, s.Refers y z → rank z < rank y := by
    rintro y z ⟨i, hi, hz⟩
    exact h y (get?_lt hi) i hi z (List.mem_append.mpr hz)
  have hlt : ∀ y z, TransGen s.Refers y z → rank z < rank y := by
    intro y z hyz
    induction hyz with
    | single hyz => exact hstep _ _ hyz
    | tail _ hzw ih => exact Nat.lt_trans (hstep _ _ hzw) ih
  exact fun y _ hc => Nat.lt_irrefl _ (hlt y y hc)

/-- Whether every reference leads to a lower rank. -/
def isRanked (s : Store) (rank : Nat → Nat) : Bool :=
  (List.range s.size).all fun x =>
    ((s.get? x).elim [] fun i => i.embedded ++ i.elements).all fun y => decide (rank y < rank x)

theorem acyclic_of_isRanked {s : Store} {rank : Nat → Nat} (h : s.isRanked rank = true) (x : Nat) :
    s.Acyclic x := by
  refine acyclic_of_rank rank (fun x hx i hi y hy => ?_) x
  have hh := List.all_eq_true.mp h x (List.mem_range.mpr hx)
  rw [hi] at hh
  simpa using List.all_eq_true.mp hh y hy

end Store

def Instance.refsAt (i : Instance) (a : Attribute) : List Nat :=
  match a.kind with
  | some (.object _) => (i.object? a.name).toList
  | some (.fixedList _ e) => if e.isObject then i.objectArray a.name else []
  | some (.dynamicList _ e) => if e.isObject then i.list a.name else []
  | _ => []

theorem Instance.refsAt_mem {i : Instance} {a : Attribute} {y : Nat} (h : y ∈ i.refsAt a) :
    y ∈ i.embedded ∨ y ∈ i.elements := by
  unfold refsAt at h
  split at h
  · exact .inl (object?_mem_embedded (by simpa using h))
  · split at h
    · exact .inl (objectArray_mem_embedded h)
    · simp at h
  · split at h
    · exact .inr (list_mem_elements h)
    · simp at h
  · simp at h

namespace Store

def WireRefers (r : Registry) (s : Store) (x y : Nat) : Prop :=
  ∃ i, s.get? x = some i ∧ ∃ a ∈ r.serialised i.className, y ∈ i.refsAt a

theorem WireRefers.refers {r : Registry} {s : Store} {x y : Nat} (h : s.WireRefers r x y) :
    s.Refers x y := by
  obtain ⟨i, hi, a, -, hy⟩ := h
  exact ⟨i, hi, Instance.refsAt_mem hy⟩

theorem Refers.lt {p : Program} {s : Store} (hs : p.Sound s) {x y : Nat} (h : s.Refers x y) :
    y < s.size := by
  obtain ⟨i, hi, hy | hy⟩ := h
  · exact (hs.object x i hi).draft.embedded_lt y hy
  · exact (hs.object x i hi).draft.elements_lt y hy

section

variable {p : Program} {s : Store} (hs : p.Sound s) {E : Nat → Nat → Prop}
  (hE : ∀ a b, E a b → s.Refers a b) {x : Nat} (hx : x < s.size)

include hs hE hx

theorem reaches_lt {y : Nat} (h : ReflTransGen E x y) : y < s.size := by
  induction h with
  | refl => exact hx
  | tail _ h _ => exact (hE _ _ h).lt hs

theorem height_size (h : ∀ y, ReflTransGen E x y → ¬ TransGen E y y) : Height E s.size x := by
  have hall := height_of_acyclic (fun y hy => List.mem_range.mpr (reaches_lt hs hE hx hy)) h
  rwa [List.length_range] at hall

end

theorem Acyclic.refers_height {p : Program} {s : Store} (hs : p.Sound s) {x : Nat}
    (hx : x < s.size) (h : s.Acyclic x) : Height s.Refers s.size x :=
  height_size hs (fun _ _ h => h) hx h

theorem Acyclic.height {p : Program} {s : Store} (hs : p.Sound s) {x : Nat} (hx : x < s.size)
    (h : s.Acyclic x) : Height (s.WireRefers p.registry) s.size x := by
  have hmono : ∀ a b, s.WireRefers p.registry a b → s.Refers a b := fun _ _ h => h.refers
  refine height_size hs hmono hx fun y hy hc => ?_
  exact h y (ReflTransGen.mono hmono _ _ hy) (TransGen.mono hmono _ _ hc)

theorem height_le_size {p : Program} {s : Store} (hs : p.Sound s) {x k : Nat} (hx : x < s.size)
    (h : Height (s.WireRefers p.registry) k x) : Height (s.WireRefers p.registry) s.size x :=
  height_size hs (fun _ _ h => h.refers) hx fun _ hy => h.acyclic hy

end Store

end PduCompiler
