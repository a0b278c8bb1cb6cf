import Mathlib.Data.List.Forall2
import PduCompiler.Machine.Encode
import PduCompiler.Proofs.Depth

/-! Encoding attribute by attribute. The encoding of an object is that of the fields inherited from
the parent, followed by one part for each serialised attribute of the class, and in a sound store
every object without cycles has one. -/

namespace PduCompiler

theorem mapM_eq_ok {ε α β : Type} {f : α → Except ε β} {l : List α} {bs : List β} :
    l.mapM f = .ok bs ↔ List.Forall₂ (fun a b => f a = .ok b) l bs := by
  induction l generalizing bs with
  | nil => simp [pure, Except.pure, eq_comm]
  | cons a l ih =>
    simp only [List.mapM_cons, bind_eq_ok, List.forall₂_cons_left_iff, ih]
    constructor
    · rintro ⟨b, hb, rest, hrest, he⟩
      cases he
      exact ⟨b, rest, hb, hrest, rfl⟩
    · rintro ⟨b, rest, hb, hrest, rfl⟩
      exact ⟨b, hb, rest, hrest, rfl⟩

theorem exists_forall₂ {α β : Type} {R : α → β → Prop} {l : List α} (h : ∀ a ∈ l, ∃ b, R a b) :
    ∃ bs, List.Forall₂ R l bs := by
  induction l with
  | nil => exact ⟨[], .nil⟩
  | cons a l ih =>
    obtain ⟨b, hb⟩ := h a List.mem_cons_self
    obtain ⟨bs, hbs⟩ := ih fun c hc => h c (List.mem_cons_of_mem _ hc)
    exact ⟨b :: bs, .cons hb hbs⟩

theorem forall₂_unique {α β : Type} {R S : α → β → Prop} {l : List α}
    (h : ∀ a ∈ l, ∀ b c, R a b → S a c → b = c) {u v : List β} (hu : List.Forall₂ R l u)
    (hv : List.Forall₂ S l v) : u = v := by
  induction hu generalizing v with
  | nil =>
    cases hv
    rfl
  | cons hr _ ih =>
    cases hv with
    | cons hs hv =>
      rw [h _ List.mem_cons_self _ _ hr hs, ih (fun a ha => h a (List.mem_cons_of_mem _ ha)) hv]

/-- The word that is written for a primitive attribute: the live length of the list that it counts,
or else its value. -/
def Instance.written (i : Instance) (name : String) (q : Primitive) : Word :=
  if q.countFor == "" then i.uint name else BitVec.ofNat 64 (i.listLength q.countFor)

theorem forall₂_of_mem {α β : Type} {R : α → β → Prop} {l : List α} {u : List β}
    (h : List.Forall₂ R l u) {a : α} (ha : a ∈ l) : ∃ b ∈ u, R a b := by
  induction h with
  | nil => simp at ha
  | cons hr _ ih =>
    rcases List.mem_cons.mp ha with rfl | ha
    · exact ⟨_, List.mem_cons_self, hr⟩
    · obtain ⟨b, hb, hab⟩ := ih ha
      exact ⟨b, List.mem_cons_of_mem _ hb, hab⟩

theorem forall₂_append_left {α β : Type} {R : α → β → Prop} {l l' : List α} {u : List β}
    (h : List.Forall₂ R (l ++ l') u) :
    ∃ v v', u = v ++ v' ∧ List.Forall₂ R l v ∧ List.Forall₂ R l' v' := by
  induction l generalizing u with
  | nil => exact ⟨[], u, rfl, .nil, h⟩
  | cons a l ih =>
    cases h with
    | @cons _ b _ u hr h =>
      obtain ⟨v, v', rfl, hv, hv'⟩ := ih h
      exact ⟨b :: v, v', rfl, .cons hr hv, hv'⟩

namespace Program

def encodeRef (s : Store) (below : Instance → String → Except MachineError (List UInt8))
    (ref : Option Nat) : Except MachineError (List UInt8) :=
  match ref.bind s.get? with
  | none => .error .noObject
  | some obj => below obj obj.className

section

variable {s : Store} {below : Instance → String → Except MachineError (List UInt8)}
  {name : String} {i : Instance} {a : Attribute} {bytes : List UInt8}

theorem encodeRef_eq_ok {y : Nat} : encodeRef s below (some y) = .ok bytes ↔
    ∃ obj, s.get? y = some obj ∧ below obj obj.className = .ok bytes := by
  unfold encodeRef
  cases h : s.get? y <;> simp [h]

theorem encodeRefs_eq_ok {refs : List Nat} :
    (return (← refs.mapM fun y => encodeRef s below (some y)).flatten :
      Except MachineError (List UInt8)) = .ok bytes ↔
    ∃ parts, List.Forall₂ (fun y part => encodeRef s below (some y) = .ok part) refs parts ∧
      parts.flatten = bytes := by
  simp only [bind_eq_ok, mapM_eq_ok, pure, Except.pure, Except.ok.injEq]

theorem encodeAction_word {q : Primitive} (h : a.kind = some (.primitive q)) :
    encodeAction s below name i (Plan.wire a).marshal =
      .ok (q.type.encode (i.written a.name q)) := by
  by_cases hc : q.countFor = ""
  · simp [Plan.wire, Plan.wireActions, h, hc, Except.toOption, encodeAction, Instance.written]
  · simp [Plan.wire, Plan.wireActions, h, hc, Except.toOption, encodeAction, Instance.written]

theorem encodeAction_object {cls : String} (h : a.kind = some (.object cls)) :
    encodeAction s below name i (Plan.wire a).marshal = encodeRef s below (i.object? a.name) := by
  simp only [Plan.wire, Plan.wireActions, h, Except.toOption, Option.getD_some, encodeAction]
  rfl

theorem encodeAction_array {n : Int} {e : Element} (h : a.kind = some (.fixedList n e))
    (he : e.isObject = false) :
    encodeAction s below name i (Plan.wire a).marshal =
      .ok ((i.array a.name).flatMap e.type.encode) := by
  simp [Plan.wire, Plan.wireActions, h, he, Except.toOption, encodeAction]

theorem encodeAction_objects {n : Int} {e : Element} (h : a.kind = some (.fixedList n e))
    (he : e.isObject = true) :
    encodeAction s below name i (Plan.wire a).marshal =
      return (← (i.objectArray a.name).mapM fun y => encodeRef s below (some y)).flatten := by
  simp only [Plan.wire, Plan.wireActions, h, he, if_true, Except.toOption, Option.getD_some,
    encodeAction]
  rfl

theorem encodeAction_words {field : String} {e : Element}
    (h : a.kind = some (.dynamicList field e)) (he : e.isObject = false) :
    encodeAction s below name i (Plan.wire a).marshal =
      .ok ((i.primList a.name).flatMap e.type.encode) := by
  simp [Plan.wire, Plan.wireActions, h, he, Except.toOption, encodeAction]

theorem encodeAction_list {field : String} {e : Element}
    (h : a.kind = some (.dynamicList field e)) (he : e.isObject = true) :
    encodeAction s below name i (Plan.wire a).marshal =
      return (← (i.list a.name).mapM fun y => encodeRef s below (some y)).flatten := by
  simp only [Plan.wire, Plan.wireActions, h, he, if_true, Except.toOption, Option.getD_some,
    encodeAction]
  rfl

end

variable {p : Program} {s : Store}

theorem encode_succ_eq_ok (hp : p.Planned) {c : ClassDescription}
    (hc : c ∈ p.registry.classes) {depth : Nat} {i : Instance} {bytes : List UInt8} :
    p.encode s (depth + 1) i c.name = .ok bytes ↔
      ∃ front parts, (if c.hasParent then p.encode s depth i c.parent = .ok front
        else front = []) ∧
      List.Forall₂ (fun a part =>
        encodeAction s (p.encode s depth) c.name i (Plan.wire a).marshal = .ok part)
        c.serialised parts ∧ bytes = front ++ parts.flatten := by
  obtain ⟨plan, hplan, hf⟩ := hp.plan c hc
  simp only [encode, hplan, bind_eq_ok, mapM_eq_ok, hf.marshal, pure, Except.pure,
    Except.ok.injEq]
  by_cases hpar : c.hasParent = true
  · have hsuper : ∀ act : Action, act = { op := .super, className := c.parent } →
        encodeAction s (p.encode s depth) c.name i act = p.encode s depth i c.parent := by
      rintro _ rfl
      rfl
    simp only [Plan.superStep, hpar, if_true, List.singleton_append,
      List.forall₂_cons_left_iff, List.forall₂_map_left_iff, hsuper _ rfl]
    constructor
    · rintro ⟨_, ⟨front, parts, hfront, hparts, rfl⟩, rfl⟩
      exact ⟨front, parts, hfront, hparts, by simp⟩
    · rintro ⟨front, parts, hfront, hparts, rfl⟩
      exact ⟨_, ⟨front, parts, hfront, hparts, rfl⟩, by simp⟩
  · simp only [Plan.superStep, hpar, if_neg Bool.false_ne_true, List.nil_append,
      List.forall₂_map_left_iff]
    constructor
    · rintro ⟨parts, hparts, rfl⟩
      exact ⟨[], parts, by simp, hparts, by simp⟩
    · rintro ⟨front, parts, hfront, hparts, rfl⟩
      exact ⟨parts, hparts, by simp [hfront]⟩

theorem Sound.last (hs : p.Sound s) {x : Nat} {i : Instance} (hi : s.get? x = some i)
    {a : Attribute} (ha : a ∈ p.registry.allAttributes i.className) :
    ∃ b : Attribute, b.LastIn (p.registry.allAttributes i.className) ∧ b.name = a.name ∧
      b.slot = a.slot ∧ i.Holds s b := by
  obtain ⟨b, hb, hn, hslot⟩ := Attribute.exists_lastIn ha
  exact ⟨b, hb, hn, hslot, (hs.object x i hi).draft.holds b hb⟩

theorem Sound.names_nodup (hp : p.Planned) (hs : p.Sound s) (hno : p.registry.NoRedeclaration)
    {x : Nat} {i : Instance} (hi : s.get? x = some i) :
    ((p.registry.allAttributes i.className).map (·.name)).Nodup := by
  obtain ⟨c, hc, hcn⟩ := (hs.object x i hi).ready.class hp
  exact hcn ▸ hno.names_nodup hp.rooted hp.consistent c hc

theorem Sound.holds (hp : p.Planned) (hs : p.Sound s) (hno : p.registry.NoRedeclaration)
    {x : Nat} {i : Instance} (hi : s.get? x = some i) {a : Attribute}
    (ha : a ∈ p.registry.allAttributes i.className) : i.Holds s a :=
  (hs.object x i hi).draft.holds a (Attribute.lastIn_of_nodup (hs.names_nodup hp hno hi) ha)

theorem Sound.listLength (hp : p.Planned) (hs : p.Sound s) (hno : p.registry.NoRedeclaration)
    {x : Nat} {i : Instance} (hi : s.get? x = some i) {l : Attribute}
    (hl : l ∈ p.registry.allAttributes i.className) {field : String} {e : Element}
    (hk : l.kind = some (.dynamicList field e)) : i.listLength l.name =
      if e.isObject then (i.list l.name).length else (i.primList l.name).length := by
  unfold Instance.listLength
  cases he : e.isObject with
  | false =>
    have hh := hs.holds hp hno hi hl
    simp only [Instance.Holds, hk, he, if_neg Bool.false_ne_true] at hh
    obtain ⟨ws, hws⟩ := Option.isSome_iff_exists.mp hh
    simp [hws, Instance.primList]
  | true =>
    have hnone : i.primLists.get? l.name = none := by
      by_contra hsome
      obtain ⟨a, ha, han, hslot⟩ :=
        (hs.object x i hi).draft.lists l.name .words (Option.isSome_iff_ne_none.mpr hsome)
      rw [List.inj_on_of_nodup_map (hs.names_nodup hp hno hi) ha hl han] at hslot
      simp [Attribute.slot, hk, he] at hslot
    simp [hnone]

theorem Sound.object? (hs : p.Sound s) {x : Nat} {i : Instance} (hi : s.get? x = some i)
    {a : Attribute} (ha : a ∈ p.registry.allAttributes i.className) {cls : String}
    (hk : a.kind = some (.object cls)) : ∃ y, i.object? a.name = some y ∧ y ∈ i.refsAt a := by
  obtain ⟨b, -, hn, hslot, hb⟩ := hs.last hi ha
  rw [show a.slot = .object by simp [Attribute.slot, hk]] at hslot
  unfold Attribute.slot at hslot
  split at hslot
  · cases hslot
  · next hbk =>
    simp only [Instance.Holds, hbk, hn] at hb
    obtain ⟨y, hy, -⟩ := hb
    exact ⟨y, hy, by simp [Instance.refsAt, hk, hy]⟩
  · split at hslot <;> cases hslot
  · split at hslot <;> cases hslot
  · cases hslot

theorem Sound.class_of (hp : p.Planned) (hs : p.Sound s) {x : Nat} (hx : x < s.size) :
    ∃ i, s.get? x = some i ∧ ∃ c ∈ p.registry.classes, c.name = i.className := by
  obtain ⟨i, hi⟩ := Store.get?_of_lt hx
  exact ⟨i, hi, (hs.object x i hi).ready.class hp⟩

theorem encodeAction_ok (hs : p.Sound s) {x : Nat} {i : Instance} (hi : s.get? x = some i)
    {a : Attribute} (ha : a ∈ p.registry.allAttributes i.className) (hk : a.kind ≠ none)
    {below : Instance → String → Except MachineError (List UInt8)} {name : String}
    (hbelow : ∀ y ∈ i.refsAt a, ∃ part, encodeRef s below (some y) = .ok part) :
    ∃ part, encodeAction s below name i (Plan.wire a).marshal = .ok part := by
  cases Attribute.form hk with
  | word q hk => exact ⟨_, encodeAction_word hk⟩
  | object cls hk =>
    obtain ⟨y, hy, hr⟩ := hs.object? hi ha hk
    rw [encodeAction_object hk, hy]
    exact hbelow y hr
  | array n e hk he => exact ⟨_, encodeAction_array hk he⟩
  | objects n e hk he =>
    have hrefs : i.refsAt a = i.objectArray a.name := by simp [Instance.refsAt, hk, he]
    obtain ⟨parts, hparts⟩ := exists_forall₂ (hrefs ▸ hbelow)
    rw [encodeAction_objects hk he]
    exact ⟨_, encodeRefs_eq_ok.mpr ⟨parts, hparts, rfl⟩⟩
  | words field e hk he => exact ⟨_, encodeAction_words hk he⟩
  | list field e hk he =>
    have hrefs : i.refsAt a = i.list a.name := by simp [Instance.refsAt, hk, he]
    obtain ⟨parts, hparts⟩ := exists_forall₂ (hrefs ▸ hbelow)
    rw [encodeAction_list hk he]
    exact ⟨_, encodeRefs_eq_ok.mpr ⟨parts, hparts, rfl⟩⟩

/-- Encoding by the plan of a class succeeds at a depth for the height of what the object refers to
and for the classes above. -/
theorem encode_ok (hp : p.Planned) (hs : p.Sound s) (depth : Nat) {k x : Nat} {i : Instance}
    {c : ClassDescription} (hc : c ∈ p.registry.classes) (hi : s.get? x = some i)
    (hsub : ∀ a ∈ p.registry.serialised c.name, a ∈ p.registry.allAttributes i.className)
    (hk : ∀ a ∈ p.registry.serialised c.name, ∀ y ∈ i.refsAt a,
      Height (s.WireRefers p.registry) k y)
    (hd : k * (p.plans.length + 1) + p.registry.level c.name < depth) :
    ∃ bytes, p.encode s depth i c.name = .ok bytes := by
  induction depth generalizing k x i c with
  | zero => omega
  | succ depth ih =>
    have hn := hp.consistent.names_nodup
    obtain ⟨front, hfront⟩ : ∃ front, if c.hasParent then p.encode s depth i c.parent = .ok front
        else front = [] := by
      by_cases hpar : c.hasParent = true
      · obtain ⟨q, hq, hqn, hin, hlevel⟩ := hp.parent hc hpar
        obtain ⟨front, hfront⟩ := ih hq hi (fun a ha => hsub a (hin ha))
          (fun a ha => hk a (hin ha)) (by omega)
        exact ⟨front, by rwa [if_pos hpar, ← hqn]⟩
      · exact ⟨[], by rw [if_neg hpar]⟩
    obtain ⟨parts, hparts⟩ : ∃ parts, List.Forall₂ (fun a part =>
        encodeAction s (p.encode s depth) c.name i (Plan.wire a).marshal = .ok part)
        c.serialised parts := by
      refine exists_forall₂ fun a ha => ?_
      have has := hp.serialised_own hc ha
      refine encodeAction_ok hs hi (hsub a has) (hp.kind_ne_none hc (List.mem_filter.mp ha).1)
        fun y hy => ?_
      obtain ⟨obj, hobj, d, hdc, hdn⟩ := hs.class_of hp
        (Store.Refers.lt hs ⟨i, hi, Instance.refsAt_mem hy⟩)
      have hh := hk a has y hy
      -- below an object a whole chain of parents may follow, which is what one step of `k` pays for
      cases k with
      | zero => exact hh.elim
      | succ k =>
        have hlevel := hp.rooted.level_lt hn hdc
        have hle := hp.classes_le
        obtain ⟨part, hpart⟩ := ih hdc hobj (hdn ▸ serialised_sub _ _)
          (fun b hb z hz => hh z ⟨obj, hobj, b, hdn ▸ hb, hz⟩)
          (by rw [Nat.succ_mul] at hd; omega)
        exact ⟨part, encodeRef_eq_ok.mpr ⟨obj, hobj, hdn ▸ hpart⟩⟩
    exact ⟨_, (encode_succ_eq_ok hp hc).mpr ⟨front, parts, hfront, hparts, rfl⟩⟩

theorem marshal_ok (hp : p.Planned) (hs : p.Sound s) {x : Nat} {i : Instance}
    (hi : s.get? x = some i) (h : Height (s.WireRefers p.registry) s.size x) :
    ∃ bytes, p.marshal s i = .ok bytes := by
  obtain ⟨c, hc, hcn⟩ := (hs.object x i hi).ready.class hp
  have hlevel := hp.rooted.level_lt hp.consistent.names_nodup hc
  have hle := hp.classes_le
  have hlt := Store.get?_lt hi
  obtain ⟨m, hm⟩ : ∃ m, s.size = m + 1 := ⟨s.size - 1, by omega⟩
  rw [hm] at h
  rw [marshal, ← hcn]
  refine encode_ok hp hs _ hc hi (hcn ▸ serialised_sub _ _)
    (fun a ha y hy => h y ⟨i, hi, a, hcn ▸ ha, hy⟩) ?_
  rw [depthOver, hm, Nat.succ_mul, Nat.succ_mul]
  omega

end Program

end PduCompiler
