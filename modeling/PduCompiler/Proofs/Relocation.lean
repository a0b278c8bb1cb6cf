import PduCompiler.Machine.View
import PduCompiler.Proofs.Depth

/-! Construction does not look at the references it hands out. An object built on top of others is
the object built in an empty store with its references moved, so what a new object shows depends on
its class alone. -/

namespace PduCompiler

theorem Table.map_set {α β : Type} (g : α → β) (t : Table α) (name : String) (v : α) :
    (t.set name v).map (Prod.map id g) = Table.set (t.map (Prod.map id g)) name (g v) := by
  induction t with
  | nil => rfl
  | cons e rest ih =>
    obtain ⟨n, u⟩ := e
    by_cases h : n = name
    · simp [set, h]
    · simp [set, h, ih]

theorem Table.get?_map {α β : Type} (g : α → β) (t : Table α) (name : String) :
    Table.get? (t.map (Prod.map id g)) name = (t.get? name).map g := by
  induction t with
  | nil => rfl
  | cons e rest ih =>
    obtain ⟨n, u⟩ := e
    by_cases h : n = name
    · simp [get?, h]
    · have hh : ∀ {γ : Type} (w : γ) (t : Table γ),
          Table.get? ((n, w) :: t) name = t.get? name := by
        simp [get?, h]
      rw [List.map_cons, Prod.map_apply, hh, id, hh]
      exact ih

theorem foldlM_lockstep {ε α β γ : Type} {f : α → β → Except ε α} {g : γ → β → Except ε γ}
    {Rel : α → γ → Prop} (l : List β)
    (h : ∀ b ∈ l, ∀ x z x' z', Rel x z → f x b = .ok x' → g z b = .ok z' → Rel x' z')
    {x x' : α} {z z' : γ} (hx : Rel x z) (hf : l.foldlM f x = .ok x')
    (hg : l.foldlM g z = .ok z') : Rel x' z' := by
  induction l generalizing x z with
  | nil =>
    cases hf
    cases hg
    exact hx
  | cons b l ih =>
    rw [List.foldlM_cons, bind_eq_ok] at hf hg
    obtain ⟨x₁, hx₁, hf⟩ := hf
    obtain ⟨z₁, hz₁, hg⟩ := hg
    exact ih (fun c hc => h c (List.mem_cons_of_mem _ hc))
      (h b List.mem_cons_self x z x₁ z₁ hx hx₁ hz₁) hf hg

namespace Instance

def shift (d : Nat) (i : Instance) : Instance :=
  { i with
    objects := i.objects.map (Prod.map id (· + d))
    objectArrays := i.objectArrays.map (Prod.map id (List.map (· + d)))
    lists := i.lists.map (Prod.map id (List.map (· + d))) }

theorem object?_shift (d : Nat) (i : Instance) (name : String) :
    (i.shift d).object? name = (i.object? name).map (· + d) := Table.get?_map _ _ _

theorem objectArray_shift (d : Nat) (i : Instance) (name : String) :
    (i.shift d).objectArray name = (i.objectArray name).map (· + d) := by
  simp only [objectArray, shift, Table.get?_map]
  cases i.objectArrays.get? name <;> rfl

theorem list_shift (d : Nat) (i : Instance) (name : String) :
    (i.shift d).list name = (i.list name).map (· + d) := by
  simp only [list, shift, Table.get?_map]
  cases i.lists.get? name <;> rfl

theorem viewField_shift (d : Nat) (i : Instance) (shown : Nat → View) (a : Attribute) :
    (i.shift d).viewField shown a = i.viewField (fun y => shown (y + d)) a := by
  unfold viewField
  rw [object?_shift, objectArray_shift, list_shift, List.map_map, List.map_map]
  cases i.object? a.name <;> rfl

theorem refsAt_of_agree {i j : Instance} {a : Attribute} (h : i.AgreeAt j a.name a.slot) :
    j.refsAt a = i.refsAt a := by
  by_cases hk : a.kind = none
  · simp [refsAt, hk]
  cases Attribute.form hk with
  | word q hk => simp [refsAt, hk]
  | object name hk =>
    simp only [Attribute.slot, hk, AgreeAt] at h
    simp only [refsAt, hk, object?, h]
  | array n e hk he | words field e hk he => simp [refsAt, hk, he]
  | objects n e hk he =>
    simp only [Attribute.slot, hk, he, AgreeAt, if_true] at h
    simp only [refsAt, hk, he, objectArray, h]
  | list field e hk he =>
    simp only [Attribute.slot, hk, he, AgreeAt, if_true] at h
    simp only [refsAt, hk, he, list, h]

theorem viewField_congr {i j : Instance} {shown other : Nat → View} {a : Attribute}
    (h : i.AgreeAt j a.name a.slot) (hv : ∀ y ∈ i.refsAt a, other y = shown y) :
    j.viewField other a = i.viewField shown a := by
  by_cases hk : a.kind = none
  · simp [viewField, hk]
  cases Attribute.form hk with
  | word q hk =>
    simp only [Attribute.slot, hk, AgreeAt] at h
    simp only [viewField, hk, uint, h]
  | object name hk =>
    simp only [Attribute.slot, hk, AgreeAt] at h
    simp only [viewField, hk, object?, h]
    cases ho : i.objects.get? a.name with
    | none => rfl
    | some y => exact hv y (by simp [refsAt, hk, object?, ho])
  | array n e hk he =>
    simp only [Attribute.slot, hk, he, AgreeAt, if_neg Bool.false_ne_true] at h
    simp only [viewField, hk, he, array, h, if_neg Bool.false_ne_true]
  | words field e hk he =>
    simp only [Attribute.slot, hk, he, AgreeAt, if_neg Bool.false_ne_true] at h
    simp only [viewField, hk, he, primList, h, if_neg Bool.false_ne_true]
  | objects n e hk he =>
    simp only [Attribute.slot, hk, he, AgreeAt, if_true] at h
    simp only [refsAt, hk, he, if_true] at hv
    simp only [viewField, hk, he, if_true, View.list.injEq]
    rw [show j.objectArray a.name = i.objectArray a.name by rw [objectArray, h, objectArray]]
    exact List.map_congr_left hv
  | list field e hk he =>
    simp only [Attribute.slot, hk, he, AgreeAt, if_true] at h
    simp only [refsAt, hk, he, if_true] at hv
    simp only [viewField, hk, he, if_true, View.list.injEq]
    rw [show j.list a.name = i.list a.name by rw [list, h, list]]
    exact List.map_congr_left hv

end Instance

namespace Nursery

def next (n : Nursery) : Nat := n.first + n.objects.size

def moved (n base : Nursery) : Nursery :=
  ⟨base.first, base.objects ++ n.objects.map (Instance.shift base.next)⟩

/-- A construction on top of other objects is at the same point as one in an empty store. -/
structure Copied (base : Nursery) (x y : Nursery × Instance) : Prop where
  first : x.1.first = 0
  nursery : y.1 = x.1.moved base
  object : y.2 = x.2.shift base.next

theorem Copied.blank (base : Nursery) (name : String) :
    base.Copied (⟨0, #[]⟩, { className := name }) (base, { className := name }) :=
  ⟨rfl, by simp [moved], rfl⟩

theorem Copied.push {base : Nursery} {x y : Nursery × Instance} (h : base.Copied x y) :
    (y.1.push y.2).1 = (x.1.push x.2).1.moved base ∧
      (y.1.push y.2).2 = (x.1.push x.2).2 + base.next := by
  obtain ⟨hf, hn, ho⟩ := h
  refine ⟨?_, ?_⟩
  · simp [Nursery.push, hn, ho, moved]
  · simp only [Nursery.push, hn, moved, hf, next, Array.size_append, Array.size_map]
    exact (by omega : ∀ a b c : Nat, a + (b + c) = 0 + c + (a + b)) _ _ _

end Nursery

namespace Program

/-- Two builders that do the same in an empty store and on top of other objects. -/
def Copies (base : Nursery) (build build' : Builder) : Prop :=
  ∀ x y name x' y', base.Copied x y → build x.1 x.2 name = .ok x' →
    build' y.1 y.2 name = .ok y' → base.Copied x' y'

theorem buildMany_copies {base : Nursery} {build build' : Builder} (h : Copies base build build')
    {name : String} (count : Nat) {n n' : Nursery} {refs refs' : List Nat} {m : Nursery}
    (hn : n.first = 0) (hx : buildMany build name count n = .ok (m, refs))
    (hy : buildMany build' name count (n.moved base) = .ok (n', refs')) :
    m.first = 0 ∧ n' = m.moved base ∧ refs' = refs.map (· + base.next) := by
  induction count generalizing n refs refs' with
  | zero =>
    cases hx
    cases hy
    exact ⟨hn, rfl, rfl⟩
  | succ count ih =>
    simp only [buildMany, bind_eq_ok] at hx hy
    obtain ⟨x, hx, ⟨m₁, rest⟩, hrest, hpair⟩ := hx
    obtain ⟨y, hy, ⟨n₁, rest'⟩, hrest', hpair'⟩ := hy
    cases hpair
    cases hpair'
    have hc : base.Copied (n, { className := name }) (n.moved base, { className := name }) :=
      ⟨hn, rfl, rfl⟩
    have hxy := h _ _ name x y hc hx hy
    obtain ⟨hpush, href⟩ := hxy.push
    rw [hpush] at hrest'
    obtain ⟨h1, h2, h3⟩ := ih (n := (x.1.push x.2).1) hxy.first hrest hrest'
    exact ⟨h1, h2, by rw [h3, href, List.map_cons]⟩

theorem initStep_copies {base : Nursery} {build build' : Builder} (h : Copies base build build')
    {name : String} {act : Action} {x y x' y' : Nursery × Instance} (hxy : base.Copied x y)
    (hx : initStep build name x act = .ok x') (hy : initStep build' name y act = .ok y') :
    base.Copied x' y' := by
  obtain ⟨n, i⟩ := x
  obtain ⟨m, j⟩ := y
  obtain ⟨hfirst, hm, hj⟩ := hxy
  dsimp only at hfirst hm hj
  subst hm hj
  have hcopied : ∀ i, base.Copied (n, i) (n.moved base, i.shift base.next) :=
    fun i => ⟨hfirst, rfl, rfl⟩
  unfold initStep at hx hy
  cases hop : act.op with
  | super =>
    simp only [hop] at hx hy
    exact h _ _ _ _ _ (hcopied i) hx hy
  | initValue | assign =>
    simp only [hop] at hx hy
    cases hl : act.type.readLiteral act.value with
    | error e => simp [hl] at hx
    | ok w =>
      rw [hl] at hx hy
      cases hx
      cases hy
      exact hcopied _
  | initObject =>
    simp only [hop, bind_eq_ok] at hx hy
    obtain ⟨x, hx, hpair⟩ := hx
    obtain ⟨y, hy, hpair'⟩ := hy
    cases hpair
    cases hpair'
    have hxy := h _ _ _ x y (hcopied { className := act.className }) hx hy
    obtain ⟨hpush, href⟩ := hxy.push
    refine ⟨hxy.first, hpush, ?_⟩
    simp only [Instance.shift, href, Table.map_set]
  | initArray =>
    simp only [hop] at hx hy
    cases hx
    cases hy
    exact hcopied _
  | initObjectArray =>
    simp only [hop, bind_eq_ok] at hx hy
    obtain ⟨⟨n₁, refs⟩, hx, hpair⟩ := hx
    obtain ⟨⟨m₁, refs'⟩, hy, hpair'⟩ := hy
    cases hpair
    cases hpair'
    obtain ⟨h1, rfl, rfl⟩ := buildMany_copies h _ hfirst hx hy
    refine ⟨h1, rfl, ?_⟩
    simp only [Instance.shift, Table.map_set]
  | initList =>
    simp only [hop] at hx hy
    by_cases hc : act.className = ""
    · rw [if_pos (by simpa using hc)] at hx hy
      cases hx
      cases hy
      exact hcopied _
    · rw [if_neg (by simpa using hc)] at hx hy
      cases hx
      cases hy
      refine ⟨hfirst, rfl, ?_⟩
      simp only [Instance.shift, Table.map_set, List.map_nil]
  | _ => simp [hop] at hx

theorem construct_copies (p : Program) (base : Nursery) (depth depth' : Nat) :
    Copies base (p.construct depth) (p.construct depth') := by
  induction depth generalizing depth' with
  | zero => intro x y name x' y' _ hx; simp [construct] at hx
  | succ depth ih =>
    intro x y name x' y' hxy hx hy
    cases depth' with
    | zero => simp [construct] at hy
    | succ depth' =>
      simp only [construct] at hx hy
      cases hplan : p.plan? name with
      | none => simp [hplan] at hx
      | some plan =>
        rw [hplan] at hx hy
        have hstep : ∀ act ∈ plan.init, ∀ x y x' y', base.Copied x y →
            initStep (p.construct depth) name x act = .ok x' →
            initStep (p.construct depth') name y act = .ok y' → base.Copied x' y' :=
          fun act _ x y x' y' hc hx hy => initStep_copies (ih depth') hc hx hy
        exact foldlM_lockstep plan.init hstep hxy hx hy

def Born (p : Program) (s : Store) (name : String) (z : Nat) : Prop :=
  ∃ objects ref d, p.build 0 name = .ok (objects, ref) ∧ z = ref + d ∧
    ∀ (x : Nat) (o : Instance), objects[x]? = some o → s.get? (x + d) = some (o.shift d)

theorem Born.append {p : Program} {s : Store} {name : String} {z : Nat} (h : p.Born s name z)
    (objects : Array Instance) : p.Born (s.append objects) name z := by
  obtain ⟨own, ref, d, hb, hz, hget⟩ := h
  exact ⟨own, ref, d, hb, hz, fun x o ho => Store.get?_append_some (hget x o ho) objects⟩

theorem Born.class? {p : Program} (hp : p.Planned) {s : Store} {name : String} {z : Nat}
    (h : p.Born s name z) : s.class? z = some name := by
  obtain ⟨objects, ref, d, hb, rfl, hget⟩ := h
  obtain ⟨-, -, hcls, -⟩ := build_grown hp (Sound.empty p) hb
  obtain ⟨o, ho, rfl⟩ := Option.map_eq_some_iff.mp hcls
  have hos := hget ref o (by simpa [Store.get?, Store.append] using ho)
  simp [Store.class?, hos, Instance.shift]

def newView (p : Program) (name : String) (depth : Nat) : View :=
  match p.new {} name with
  | .ok (s, ref) => s.viewTo p.registry depth ref
  | .error _ => .missing

theorem Born.view {p : Program} (hp : p.Planned) {s : Store} {name : String} {z : Nat}
    (h : p.Born s name z) (depth : Nat) :
    s.viewTo p.registry depth z = p.newView name depth := by
  obtain ⟨objects, ref, d, hb, rfl, hget⟩ := h
  obtain ⟨hg, -, hcls, -⟩ := build_grown hp (Sound.empty p) hb
  have hnew : p.new {} name = .ok (Store.append {} objects, ref) :=
    bind_eq_ok.mpr ⟨_, hb, rfl⟩
  rw [newView, hnew]
  have hlt := Store.class?_lt hcls
  -- the copy is closed under references, so the induction may go through any object of it
  generalize ref = x at hlt
  induction depth generalizing x with
  | zero => rfl
  | succ depth ih =>
    obtain ⟨o, ho⟩ := Store.get?_of_lt hlt
    have hos : s.get? (x + d) = some (o.shift d) :=
      hget x o (by simpa [Store.get?, Store.append] using ho)
    have hdraft := (hg.sound.object x o ho).draft
    simp only [Store.viewTo, ho, hos]
    congr 1
    refine List.map_congr_left fun a _ => ?_
    rw [Instance.viewField_shift]
    refine congrArg _ (Instance.viewField_congr (.refl o _ _) fun y hy => ih y ?_)
    rcases Instance.refsAt_mem hy with hy | hy
    · exact hdraft.embedded_lt y hy
    · exact hdraft.elements_lt y hy

def Bears (p : Program) (s t : Store) : Prop :=
  ∃ objects, t = s.append objects ∧ ∀ z, s.size ≤ z → z < t.size → ∃ name, p.Born t name z

theorem Bears.refl (p : Program) (s : Store) : p.Bears s s :=
  ⟨#[], by simp [Store.append], fun z h1 h2 => by omega⟩

theorem Bears.trans {p : Program} {s t u : Store} (h : p.Bears s t) (h' : p.Bears t u) :
    p.Bears s u := by
  obtain ⟨a, rfl, ha⟩ := h
  obtain ⟨b, rfl, hb⟩ := h'
  refine ⟨a ++ b, s.append_append a b, fun z hz hlt => ?_⟩
  by_cases hzs : z < (s.append a).size
  · obtain ⟨name, hborn⟩ := ha z hz hzs
    exact ⟨name, hborn.append b⟩
  · exact hb z (by omega) hlt

/-- A builder that adds objects just built, and gives a new object what its class asks for. -/
def Bearing (p : Program) (s : Store) (build : Builder) : Prop :=
  ∀ n i name m j, n.first = s.size → build n i name = .ok (m, j) →
    m.first = s.size ∧ p.Bears (n.atop s) (m.atop s) ∧
      (i = { className := name } → p.Born ((m.push j).1.atop s) name (m.push j).2)

theorem Bearing.object {p : Program} {s : Store} {build : Builder} (hb : p.Bearing s build)
    {n m : Nursery} {name : String} {j : Instance} (hn : n.first = s.size)
    (h : build n { className := name } name = .ok (m, j)) :
    (m.push j).1.first = s.size ∧ p.Bears (n.atop s) ((m.push j).1.atop s) := by
  obtain ⟨hm, hbears, hborn⟩ := hb n _ name m j hn h
  refine ⟨hm, hbears.trans ⟨#[j], m.push_atop s j, fun z hz hlt => ⟨name, ?_⟩⟩⟩
  have hz : z = (m.push j).2 := by
    rw [Nursery.push_ref hm]
    simp only [Nursery.push_atop, Store.size_append, List.size_toArray, List.length_singleton]
      at hlt
    omega
  exact hz ▸ hborn rfl

theorem Bearing.many {p : Program} {s : Store} {build : Builder} (hb : p.Bearing s build)
    {name : String} (count : Nat) {n m : Nursery} {refs : List Nat} (hn : n.first = s.size)
    (h : buildMany build name count n = .ok (m, refs)) :
    m.first = s.size ∧ p.Bears (n.atop s) (m.atop s) := by
  induction count generalizing n refs with
  | zero =>
    cases h
    exact ⟨hn, .refl p _⟩
  | succ count ih =>
    simp only [buildMany, bind_eq_ok] at h
    obtain ⟨⟨k, j⟩, hk, ⟨k', rest⟩, hrest, hpair⟩ := h
    cases hpair
    obtain ⟨h1, h2⟩ := hb.object hn hk
    obtain ⟨h3, h4⟩ := ih h1 hrest
    exact ⟨h3, h2.trans h4⟩

theorem Bearing.step {p : Program} {s : Store} {build : Builder} (hb : p.Bearing s build)
    {name : String} {act : Action} {x y : Nursery × Instance} (hn : x.1.first = s.size)
    (h : initStep build name x act = .ok y) :
    y.1.first = s.size ∧ p.Bears (x.1.atop s) (y.1.atop s) := by
  obtain ⟨n, i⟩ := x
  unfold initStep at h
  cases hop : act.op with
  | super =>
    simp only [hop] at h
    obtain ⟨h1, h2, -⟩ := hb n i _ _ _ hn h
    exact ⟨h1, h2⟩
  | initValue | assign =>
    simp only [hop] at h
    cases hl : act.type.readLiteral act.value with
    | error e => simp [hl] at h
    | ok w =>
      rw [hl] at h
      cases h
      exact ⟨hn, .refl p _⟩
  | initObject =>
    simp only [hop, bind_eq_ok] at h
    obtain ⟨⟨m, j⟩, hm, hpair⟩ := h
    cases hpair
    exact hb.object hn hm
  | initArray =>
    simp only [hop] at h
    cases h
    exact ⟨hn, .refl p _⟩
  | initObjectArray =>
    simp only [hop, bind_eq_ok] at h
    obtain ⟨⟨m, refs⟩, hm, hpair⟩ := h
    cases hpair
    exact hb.many _ hn hm
  | initList =>
    simp only [hop] at h
    split at h <;> cases h <;> exact ⟨hn, .refl p _⟩
  | _ => simp [hop] at h

theorem construct_born {p : Program} {s : Store} {depth : Nat} (hd : depth ≤ p.initDepth)
    {n m : Nursery} {name : String} {j : Instance} (hn : n.first = s.size)
    (h : p.construct depth n { className := name } name = .ok (m, j)) :
    p.Born ((m.push j).1.atop s) name (m.push j).2 := by
  -- what can be constructed here can be in an empty store, perhaps at another depth
  obtain ⟨⟨m₀, i₀⟩, h₀⟩ := Ready.of_construct hd h ⟨0, #[]⟩ { className := name }
  have hc := construct_copies p n _ _ _ _ name _ _ (.blank n name) h₀ h
  obtain ⟨hpush, href⟩ := hc.push
  refine ⟨_, _, n.next, bind_eq_ok.mpr ⟨_, h₀, rfl⟩, href, fun x o ho => ?_⟩
  have hsize : x + n.next = (n.atop s).size + x := by
    simp only [Nursery.next, Nursery.atop, Store.size_append, hn]
    omega
  have hover : (m.push j).1.atop s =
      (n.atop s).append ((m₀.push i₀).1.objects.map (Instance.shift n.next)) := by
    simp only [hpush, Nursery.atop, Nursery.moved, Store.append_append]
  have hx : (m₀.push i₀).1.objects[x]? = some o := ho
  rw [hover, hsize, Store.get?_append_right (Nat.le_add_right _ _), Nat.add_sub_cancel_left,
    Array.getElem?_map, hx, Option.map_some]

theorem construct_bearing (p : Program) (s : Store) (depth : Nat) (hd : depth ≤ p.initDepth) :
    p.Bearing s (p.construct depth) := by
  induction depth with
  | zero => intro n i name m j _ h; simp [construct] at h
  | succ depth ih =>
    intro n i name m j hn h
    have hb := ih (by omega)
    suffices hm : m.first = s.size ∧ p.Bears (n.atop s) (m.atop s) from
      ⟨hm.1, hm.2, fun hi => construct_born hd hn (hi ▸ h)⟩
    rw [construct] at h
    cases hplan : p.plan? name with
    | none => simp [hplan] at h
    | some plan =>
      simp only [hplan] at h
      generalize plan.init = acts at h
      induction acts generalizing n i with
      | nil =>
        cases h
        exact ⟨hn, .refl p _⟩
      | cons act acts ihacts =>
        rw [List.foldlM_cons, bind_eq_ok] at h
        obtain ⟨y, hy, h⟩ := h
        obtain ⟨h1, h2⟩ := hb.step hn hy
        obtain ⟨h3, h4⟩ := ihacts y.1 y.2 h1 h
        exact ⟨h3, h2.trans h4⟩

theorem build_bears {p : Program} {s : Store} {name : String} {objects : Array Instance}
    {ref : Nat} (h : p.build s.size name = .ok (objects, ref)) :
    p.Bears s (s.append objects) := by
  simp only [build, bind_eq_ok] at h
  obtain ⟨⟨n, i⟩, hc, he⟩ := h
  cases he
  have hover : Nursery.atop { first := s.size } s = s := by simp [Nursery.atop, Store.append]
  obtain ⟨-, hb⟩ := (construct_bearing p s p.initDepth (Nat.le_refl _)).object rfl hc
  rwa [hover] at hb

end Program

end PduCompiler
