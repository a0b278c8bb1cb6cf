import PduCompiler.Proofs.Reading
import PduCompiler.Proofs.Relocation

/-! Attributes that still show what a new object shows. Writing elsewhere does not disturb them, so
decoding leaves the transient attributes of the objects it fills at their defaults. -/

namespace PduCompiler

theorem Instance.refsAt_inside {i : Instance} {a : Attribute} (h : i.list a.name = []) {y : Nat}
    (hy : y ∈ i.refsAt a) : y ∈ i.inside a := by
  cases hk : a.kind with
  | none => simp [refsAt, hk] at hy
  | some k =>
    cases k with
    | primitive q => simp [refsAt, hk] at hy
    | object name | fixedList n e => simpa only [refsAt, inside, hk] using hy
    | dynamicList field e => simp [refsAt, hk, h] at hy

/-- Objects that refer only to each other, and of which nothing is written, show what they
showed. -/
theorem Store.Frame.viewTo_of_closed {s t : Store} {writes : Nat → String → Prop}
    (hf : Frame writes s t) {r : Registry} {C : Nat → Prop} (hlt : ∀ x, C x → x < s.size)
    (hC : ∀ x i a y, C x → s.get? x = some i → y ∈ i.refsAt a → C y)
    (hw : ∀ x f, C x → ¬ writes x f) {x : Nat} (hx : C x) (depth : Nat) :
    t.viewTo r depth x = s.viewTo r depth x := by
  induction depth generalizing x with
  | zero => rfl
  | succ depth ih =>
    obtain ⟨i, hi⟩ := Store.get?_of_lt (hlt x hx)
    obtain ⟨j, hj, hk⟩ := hf.object x i hi
    simp only [Store.viewTo, hi, hj, hk.className]
    congr 1
    refine List.map_congr_left fun a _ => congrArg _ ?_
    exact Instance.viewField_congr (hk.agree a.name (hw x _ hx) a.slot) fun y hy =>
      ih (hC x i a y hx hi hy)

theorem Store.Frame.viewTo {p : Program} {s t : Store} {writes : Nat → String → Prop}
    (hf : Frame writes s t) (hs : p.Sound s) {x : Nat} (hx : x < s.size)
    (hw : ∀ z f, s.Owns x z → ¬ writes z f)
    (hempty : ∀ z o, s.Owns x z → s.get? z = some o → ∀ name, o.list name = []) (depth : Nat) :
    t.viewTo p.registry depth x = s.viewTo p.registry depth x := by
  refine hf.viewTo_of_closed (fun z hz => hz.lt_size hs hx) (fun z o a y hz ho hy => ?_) hw .refl
    depth
  have hin := Instance.refsAt_inside (hempty z o hz ho a.name) hy
  exact hz.tail ⟨o, ho, Instance.inside_embedded hin⟩

namespace Program

def newField (p : Program) (name : String) (depth : Nat) (a : Attribute) : View :=
  match p.new {} name with
  | .ok (s, ref) =>
    (s.get? ref).elim .missing fun i => i.viewField (s.viewTo p.registry depth) a
  | .error _ => .missing

theorem Born.newField {p : Program} (hp : p.Planned) {s : Store} {z : Nat} {o : Instance}
    (h : p.Born s o.className z) (ho : s.get? z = some o) {a : Attribute}
    (ha : a ∈ p.registry.allAttributes o.className) (depth : Nat) :
    o.viewField (s.viewTo p.registry depth) a = p.newField o.className depth a := by
  have hview := h.view hp (depth + 1)
  obtain ⟨objects, ref, d, hb, -, -⟩ := h
  obtain ⟨-, -, hcls, -⟩ := build_grown hp (Sound.empty p) hb
  obtain ⟨i, hi, hcls⟩ := Option.map_eq_some_iff.mp hcls
  have hnew : p.new {} o.className = .ok (Store.append {} objects, ref) :=
    bind_eq_ok.mpr ⟨_, hb, rfl⟩
  simp only [newView, hnew, Store.viewTo, ho, hi, hcls, View.object.injEq, true_and] at hview
  have hh := List.map_inj_left.mp hview a ha
  simp only [Program.newField, hnew, hi, Option.elim_some]
  exact (Prod.mk.inj hh).2

/-- An attribute that shows what a new object shows for it, in objects that lie inside. -/
def Untouched (p : Program) (s : Store) (x : Nat) (a : Attribute) : Prop :=
  ∃ i, s.get? x = some i ∧
    (∀ depth, i.viewField (s.viewTo p.registry depth) a = p.newField i.className depth a) ∧
    ∀ y ∈ i.refsAt a, y ∈ i.inside a ∧
      ∀ z o, s.Owns y z → s.get? z = some o → ∀ name, o.list name = []

theorem Untouched.frame {p : Program} {s t : Store} {writes : Nat → String → Prop} {x : Nat}
    {a : Attribute} (hs : p.Sound s) (hf : Store.Frame writes s t)
    (hw : ∀ z f, s.Zone x [a] z f → ¬ writes z f) (h : p.Untouched s x a) :
    p.Untouched t x a := by
  obtain ⟨i, hi, hview, hrefs⟩ := h
  obtain ⟨j, hj, hk⟩ := hf.object x i hi
  have hag := hk.agree a.name (hw x _ ⟨i, hi, a, by simp, .inl ⟨rfl, rfl⟩⟩) a.slot
  -- all that the attribute shows lies inside, where nothing is written
  have hquiet : ∀ y ∈ i.refsAt a, ∀ z f, s.Owns y z → ¬ writes z f := fun y hy z f hz =>
    hw z f ⟨i, hi, a, by simp, .inr ⟨y, (hrefs y hy).1, hz⟩⟩
  have hlt : ∀ y ∈ i.refsAt a, y < s.size := fun y hy =>
    Store.Embeds.lt_size hs ⟨i, hi, Instance.inside_embedded (hrefs y hy).1⟩
  refine ⟨j, hj, fun depth => ?_, fun y hy => ?_⟩
  · rw [hk.className, ← hview depth]
    exact Instance.viewField_congr hag fun y hy =>
      hf.viewTo hs (hlt y hy) (hquiet y hy) (hrefs y hy).2 depth
  · rw [Instance.refsAt_of_agree hag] at hy
    refine ⟨by rw [hk.inside]; exact (hrefs y hy).1, fun z o hz ho name => ?_⟩
    have hz := hf.owns hs (hlt y hy) hz
    obtain ⟨o', ho'⟩ := Store.get?_of_lt (hz.lt_size hs (hlt y hy))
    obtain ⟨o'', ho'', hk'⟩ := hf.object z o' ho'
    cases Option.some.inj (ho.symm.trans ho'')
    have hlist : o.lists.get? name = o'.lists.get? name :=
      hk'.agree name (hquiet y hy z name hz) .list
    rw [Instance.list, hlist]
    exact (hrefs y hy).2 z o' hz ho' name

theorem Untouched.of_build {p : Program} (hp : p.Planned) {s : Store} {name : String}
    {objects : Array Instance} {ref : Nat} (hs : p.Sound s)
    (h : p.build s.size name = .ok (objects, ref)) {z : Nat} {o : Instance} (hz : s.size ≤ z)
    (ho : (s.append objects).get? z = some o) {a : Attribute}
    (ha : a ∈ p.registry.allAttributes o.className) : p.Untouched (s.append objects) z a := by
  obtain ⟨hg, -, -, -⟩ := build_grown hp hs h
  obtain ⟨-, -, hbirth⟩ := build_bears h
  obtain ⟨own, hborn⟩ := hbirth z hz (Store.get?_lt ho)
  obtain rfl : o.className = own := by
    simpa [Store.class?, ho] using hborn.class? hp
  have hempty : ∀ w o, s.size ≤ w → (s.append objects).get? w = some o →
      ∀ name, o.list name = [] := by
    intro w o hw ho name
    obtain ⟨⟨all, hall, hnone⟩, -⟩ := hg
    rw [hall, Store.get?_append_right hw] at ho
    refine List.eq_nil_iff_forall_not_mem.mpr fun y hy => ?_
    simpa [(hnone o (Array.mem_of_getElem? ho)).2] using Instance.list_mem_elements hy
  refine ⟨o, ho, fun depth => ?_, fun y hy => ?_⟩
  · exact hborn.newField hp ho ha depth
  · have hin := Instance.refsAt_inside (hempty z o hz ho a.name) hy
    have hy : (s.append objects).Owns z y := .single ⟨o, ho, Instance.inside_embedded hin⟩
    exact ⟨hin, fun w o hw => hempty w o (Store.Owns.of_grown hg hz (hy.trans hw))⟩

theorem Persists.untouched {p : Program} (hp : p.Planned) : p.Persists p.Untouched where
  frame hs _ hf hw h := h.frame hs hf hw
  build hs h _ _ hz ho _ ha _ := Untouched.of_build hp hs h hz ho ha

theorem Born.of_build {p : Program} (hp : p.Planned) {s : Store} (hs : p.Sound s) {name : String}
    {objects : Array Instance} {ref : Nat} (h : p.build s.size name = .ok (objects, ref)) :
    p.Born (s.append objects) name ref := by
  obtain ⟨-, hge, hcls, -⟩ := build_grown hp hs h
  obtain ⟨-, -, hbirth⟩ := build_bears h
  obtain ⟨own, hborn⟩ := hbirth ref hge (Store.class?_lt hcls)
  have hown := hborn.class? hp
  rw [hcls] at hown
  exact Option.some.inj hown ▸ hborn

theorem build_object {p : Program} (hp : p.Planned) {name : String} {objects : Array Instance}
    {ref : Nat} (h : p.build 0 name = .ok (objects, ref)) : ∃ n o,
      p.construct p.initDepth { first := 0 } { className := name } name = .ok (n, o) ∧
        objects[ref]? = some o := by
  simp only [build, bind_eq_ok] at h
  obtain ⟨⟨n, o⟩, ho, hpush⟩ := h
  cases hpush
  have hover : Nursery.atop { first := 0 } {} = ({} : Store) := by simp [Nursery.atop, Store.append]
  obtain ⟨hfirst, -⟩ := construct_builds hp {} p.initDepth (Nat.le_refl _) _ name name n o
    rfl (hover.symm ▸ Sound.empty p) ho
  exact ⟨n, o, ho, by simp [Nursery.push, hfirst, Store.size]⟩

def Typed (p : Program) (s : Store) : Prop :=
  ∀ (x : Nat) (i : Instance), s.get? x = some i → ∃ objects ref o,
    p.build 0 i.className = .ok (objects, ref) ∧ objects[ref]? = some o ∧ i.types = o.types

theorem Born.typed {p : Program} (hp : p.Planned) {s : Store} {name : String} {z : Nat}
    (h : p.Born s name z) {i : Instance} (hi : s.get? z = some i) : ∃ objects ref o,
      p.build 0 i.className = .ok (objects, ref) ∧ objects[ref]? = some o ∧ i.types = o.types := by
  have hcls := h.class? hp
  simp only [Store.class?, hi, Option.map_some, Option.some.injEq] at hcls
  obtain ⟨objects, ref, d, hb, rfl, hget⟩ := h
  obtain ⟨-, o, -, ho⟩ := build_object hp hb
  refine ⟨objects, ref, o, hcls ▸ hb, ho, ?_⟩
  rw [Option.some.inj (hi.symm.trans (hget ref o ho)), Instance.shift]

/-- What new objects have, and no write to a field takes away, all objects have. -/
theorem Step.keeps {p : Program} {P : Instance → Prop}
    (hborn : ∀ s name z i, p.Born s name z → s.get? z = some i → P i)
    (hchange : ∀ s i name j, i.Change p.registry s name j → P i → P j)
    {writes : Nat → String → Prop} {s t : Store} (h : p.Step writes s t)
    (hs : ∀ x i, s.get? x = some i → P i) : ∀ x i, t.get? x = some i → P i := by
  intro y k hk
  cases h with
  | @grow _ objects _ hb =>
    by_cases hy : y < s.size
    · rw [Store.get?_append_left hy] at hk
      exact hs y k hk
    · obtain ⟨-, -, hbirth⟩ := build_bears hb
      obtain ⟨name, hz⟩ := hbirth y (Nat.not_lt.mp hy) (Store.get?_lt hk)
      exact hborn _ name y k hz hk
  | @change x i j name hi hw hc =>
    rw [Store.get?_set] at hk
    by_cases hy : y = x
    · subst hy
      rw [if_pos rfl, hi] at hk
      cases hk
      exact hchange s i name j hc (hs y i hi)
    · rw [if_neg hy] at hk
      exact hs y k hk

theorem run_keeps {p : Program} (hp : p.Planned) {P : Instance → Prop}
    (hborn : ∀ s name z i, p.Born s name z → s.get? z = some i → P i)
    (hchange : ∀ s i name j, i.Change p.registry s name j → P i → P j) (ops : List Operation) :
    ∀ x i, (p.run ops).get? x = some i → P i := by
  have hsteps : ∀ {s t : Store}, p.Steps anyField s t → (∀ x i, s.get? x = some i → P i) →
      ∀ x i, t.get? x = some i → P i := by
    intro s t h hs
    induction h with
    | refl => exact hs
    | tail _ hstep ih => exact hstep.keeps hborn hchange ih
  induction ops using List.reverseRecOn with
  | nil => exact fun x i h => by simp [run, Store.get?] at h
  | append_singleton ops op ih =>
    rw [run_concat]
    exact hsteps (perform_steps hp (run_sound hp ops) op) ih

theorem run_typed {p : Program} (hp : p.Planned) (ops : List Operation) : p.Typed (p.run ops) := by
  refine run_keeps hp (fun s name z i hz hi => hz.typed hp hi) (fun s i name j hc hi => ?_) ops
  cases hc <;> exact hi

end Program

end PduCompiler
