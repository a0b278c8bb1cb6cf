import PduCompiler.Proofs.Operations

/-! Which objects lie inside which. An object lies inside at most one other, so the objects below
two attributes of an object are different ones, and what is written for one attribute leaves the
other alone. -/

namespace PduCompiler

open Relation

theorem eq_of_mem_flatMap {α β : Type} {f : α → List β} {l : List α} (h : (l.flatMap f).Nodup)
    {a b : α} {y : β} (ha : a ∈ l) (hb : b ∈ l) (hya : y ∈ f a) (hyb : y ∈ f b) : a = b := by
  obtain ⟨-, hpair⟩ := List.nodup_flatMap.mp h
  have hsymm : Std.Symm (Function.onFun List.Disjoint f) := ⟨fun _ _ hd _ hb ha => hd ha hb⟩
  by_contra hne
  exact hpair.forall ha hb hne hya hyb

theorem Instance.inside_unique {i : Instance} (h : i.embedded.Nodup) {a b : Attribute} {y : Nat}
    (ha : y ∈ i.inside a) (hb : y ∈ i.inside b) : a.name = b.name := by
  obtain ⟨hobjects, harrays, hdisj⟩ := List.nodup_append.mp h
  have hcases : ∀ c : Attribute, y ∈ i.inside c →
      (c.name, y) ∈ i.objects ∨ ∃ refs, (c.name, refs) ∈ i.objectArrays ∧ y ∈ refs := by
    intro c hc
    unfold Instance.inside at hc
    split at hc
    · exact .inl (Table.mem_of_get? (by simpa [Instance.object?] using hc))
    · split at hc
      · cases hg : i.objectArrays.get? c.name with
        | none => simp [Instance.objectArray, hg] at hc
        | some refs =>
          simp only [Instance.objectArray, hg, Option.getD_some] at hc
          exact .inr ⟨refs, Table.mem_of_get? hg, hc⟩
      · simp at hc
    · simp at hc
  rcases hcases a ha with ha | ⟨refs, ha, hya⟩
  · rcases hcases b hb with hb | ⟨refs', hb, hyb⟩
    · have heq := eq_of_mem_flatMap (y := y) hobjects ha hb (by simp) (by simp)
      exact congrArg Prod.fst heq
    · exact (hdisj y (List.mem_flatMap.mpr ⟨_, ha, by simp⟩) y
        (List.mem_flatMap.mpr ⟨_, hb, hyb⟩) rfl).elim
  · rcases hcases b hb with hb | ⟨refs', hb, hyb⟩
    · exact (hdisj y (List.mem_flatMap.mpr ⟨_, hb, by simp⟩) y
        (List.mem_flatMap.mpr ⟨_, ha, hya⟩) rfl).elim
    · exact congrArg Prod.fst (eq_of_mem_flatMap harrays ha hb hya hyb)

theorem Program.Sound.embedded_nodup {p : Program} {s : Store} (hs : p.Sound s) {x : Nat}
    {i : Instance} (hi : s.get? x = some i) : i.embedded.Nodup :=
  (List.nodup_flatMap.mp hs.owners).1 i (Array.mem_toList_iff.mpr (Array.mem_of_getElem? hi))

theorem Program.Sound.objectArray_nodup {p : Program} {s : Store} (hs : p.Sound s) {x : Nat}
    {i : Instance} (hi : s.get? x = some i) (name : String) : (i.objectArray name).Nodup := by
  have hnd := (List.nodup_append.mp (hs.embedded_nodup hi)).2.1
  unfold Instance.objectArray
  cases hg : i.objectArrays.get? name with
  | none => exact List.nodup_nil
  | some refs => exact (List.nodup_flatMap.mp hnd).1 _ (Table.mem_of_get? hg)

namespace Store

def Embeds (s : Store) (x y : Nat) : Prop := ∃ i, s.get? x = some i ∧ y ∈ i.embedded

abbrev Owns (s : Store) := ReflTransGen s.Embeds

variable {p : Program} {s t : Store} {writes : Nat → String → Prop} {x y z : Nat}

theorem Embeds.lt (hs : p.Sound s) (h : s.Embeds x y) : y < x := by
  obtain ⟨i, hi, hy⟩ := h
  exact (hs.object x i hi).below y hy

theorem Embeds.lt_size (hs : p.Sound s) (h : s.Embeds x y) : y < s.size := by
  have hlt := h.lt hs
  obtain ⟨i, hi, -⟩ := h
  exact Nat.lt_trans hlt (get?_lt hi)

theorem Owns.le (hs : p.Sound s) (h : s.Owns x y) : y ≤ x := by
  induction h with
  | refl => exact Nat.le_refl _
  | tail _ hyz ih => exact Nat.le_of_lt (Nat.lt_of_lt_of_le (hyz.lt hs) ih)

theorem holder_unique {refs : Instance → List Nat} (h : (s.objects.toList.flatMap refs).Nodup)
    {i j : Instance} (hi : s.get? x = some i) (hj : s.get? y = some j) (hzi : z ∈ refs i)
    (hzj : z ∈ refs j) : x = y := by
  have hpair := (List.nodup_flatMap.mp h).2
  have hlist : ∀ w i, s.get? w = some i → s.objects.toList[w]? = some i := by
    intro w i hi
    simpa [get?] using hi
  have hlt : ∀ (v w : Nat) i j, s.get? v = some i → s.get? w = some j → z ∈ refs i → z ∈ refs j →
      ¬ v < w := by
    intro v w i j hi hj hzi hzj hvw
    obtain ⟨hv, hvi⟩ := List.getElem?_eq_some_iff.mp (hlist v i hi)
    obtain ⟨hw, hwj⟩ := List.getElem?_eq_some_iff.mp (hlist w j hj)
    have hd := List.pairwise_iff_getElem.mp hpair v w hv hw hvw
    simp only [hvi, hwj, Function.onFun] at hd
    exact hd hzi hzj
  have h1 := hlt x y i j hi hj hzi hzj
  have h2 := hlt y x j i hj hi hzj hzi
  omega

theorem Embeds.unique (hs : p.Sound s) (hx : s.Embeds x z) (hy : s.Embeds y z) : x = y := by
  obtain ⟨i, hi, hzi⟩ := hx
  obtain ⟨j, hj, hzj⟩ := hy
  exact holder_unique hs.owners hi hj hzi hzj

/-- Of two objects directly inside a third, no object is below both. -/
theorem Owns.unique_child (hs : p.Sound s) {u v : Nat} (hu : s.Embeds x u) (hv : s.Embeds x v)
    (huz : s.Owns u z) (hvz : s.Owns v z) : u = v := by
  have hcases : ∀ {a b : Nat}, s.Embeds x a → s.Embeds x b → s.Owns a b → a = b := by
    intro a b ha hb hab
    rcases ReflTransGen.cases_tail hab with h | ⟨c, hac, hcb⟩
    · exact h.symm
    · cases Embeds.unique hs hcb hb
      have h1 := ha.lt hs
      have h2 := Owns.le hs hac
      omega
  induction huz with
  | refl => exact (hcases hv hu hvz).symm
  | @tail b c hub hbc ih =>
    rcases ReflTransGen.cases_tail hvz with h | ⟨d, hvd, hdc⟩
    · subst h
      exact hcases hu hv (hub.tail hbc)
    · cases Embeds.unique hs hdc hbc
      exact ih hvd

theorem Embeds.apart (hs : p.Sound s) {others : List Nat} (hin : ∀ w ∈ y :: others, s.Embeds x w)
    (hnot : y ∉ others) (h : ∃ w ∈ others, s.Owns w z) : ¬ s.Owns y z := by
  intro hyz
  obtain ⟨w, hw, hwz⟩ := h
  have heq := Owns.unique_child hs (hin w (List.mem_cons_of_mem _ hw)) (hin y List.mem_cons_self)
    hwz hyz
  exact hnot (heq ▸ hw)

theorem Owns.lt_size (hs : p.Sound s) (hx : x < s.size) (h : s.Owns x y) : y < s.size :=
  Nat.lt_of_le_of_lt (Owns.le hs h) hx

theorem Owns.of_grown (hg : p.Grown s t) (hx : s.size ≤ x) (h : t.Owns x y) : s.size ≤ y := by
  induction h with
  | refl => exact hx
  | tail _ hyz ih =>
    obtain ⟨⟨objects, rfl, ho⟩, -⟩ := hg
    obtain ⟨i, hi, hz⟩ := hyz
    rw [get?_append_right ih] at hi
    exact (ho i (Array.mem_of_getElem? hi)).1 _ hz

theorem Frame.embeds (hf : Frame writes s t) (hx : x < s.size) :
    t.Embeds x y ↔ s.Embeds x y := by
  obtain ⟨i, hi⟩ := get?_of_lt hx
  obtain ⟨j, hj, hk⟩ := hf.object x i hi
  constructor
  · rintro ⟨k, hk', hy⟩
    cases Option.some.inj (hj.symm.trans hk')
    exact ⟨i, hi, by rwa [← hk.embedded]⟩
  · rintro ⟨k, hk', hy⟩
    cases Option.some.inj (hi.symm.trans hk')
    exact ⟨j, hj, by rwa [hk.embedded]⟩

theorem Frame.owns (hf : Frame writes s t) (hs : p.Sound s) (hx : x < s.size)
    (h : t.Owns x y) : s.Owns x y := by
  induction h with
  | refl => exact .refl
  | tail _ hyz ih => exact ih.tail ((hf.embeds (Owns.lt_size hs hx ih)).mp hyz)

/-- The fields that attributes of an object take up: their own, and all of the objects inside. -/
def Zone (s : Store) (x : Nat) (attrs : List Attribute) (z : Nat) (field : String) : Prop :=
  ∃ i, s.get? x = some i ∧ ∃ a ∈ attrs, (z = x ∧ field = a.name) ∨ ∃ y ∈ i.inside a, s.Owns y z

variable {attrs attrs' : List Attribute} {field : String}

theorem Zone.mono (h : s.Zone x attrs z field) (hsub : attrs ⊆ attrs') :
    s.Zone x attrs' z field := by
  obtain ⟨i, hi, a, ha, hz⟩ := h
  exact ⟨i, hi, a, hsub ha, hz⟩

theorem Zone.owns (h : s.Zone x attrs z field) : s.Owns x z := by
  obtain ⟨i, hi, a, -, ⟨rfl, -⟩ | ⟨y, hy, hyz⟩⟩ := h
  · exact .refl
  · exact .head ⟨i, hi, Instance.inside_embedded hy⟩ hyz

theorem Zone.le (hs : p.Sound s) (h : s.Zone x attrs z field) : z ≤ x := h.owns.le hs

theorem Zone.lt_size (hs : p.Sound s) (h : s.Zone x attrs z field) : z < s.size := by
  have hle := h.le hs
  obtain ⟨i, hi, -⟩ := h
  exact Nat.lt_of_le_of_lt hle (get?_lt hi)

theorem Frame.zone (hf : Frame writes s t) (hs : p.Sound s) (hx : x < s.size)
    (h : t.Zone x attrs z field) : s.Zone x attrs z field := by
  obtain ⟨i, hi⟩ := get?_of_lt hx
  obtain ⟨j, hj, hk⟩ := hf.object x i hi
  obtain ⟨k, hk', a, ha, hz⟩ := h
  cases Option.some.inj (hj.symm.trans hk')
  refine ⟨i, hi, a, ha, hz.imp_right fun ⟨y, hy, hyz⟩ => ?_⟩
  rw [hk.inside] at hy
  have hlt := Embeds.lt hs ⟨i, hi, Instance.inside_embedded hy⟩
  exact ⟨y, hy, hf.owns hs (Nat.lt_trans hlt hx) hyz⟩

theorem Touches.owns {r : Registry} (h : Touches r s x attrs z field) : s.Owns x z := by
  induction h with
  | field => exact .refl
  | inside hi _ hy _ _ ih => exact .head ⟨_, hi, Instance.inside_embedded hy⟩ ih

theorem Touches.zone {r : Registry} (h : Touches r s x attrs z field)
    (hx : ∃ i, s.get? x = some i) : s.Zone x attrs z field := by
  obtain ⟨i, hi⟩ := hx
  cases h with
  | field ha => exact ⟨i, hi, _, ha, .inl ⟨rfl, rfl⟩⟩
  | @inside _ y _ _ a j _ _ hj ha hy _ hrest =>
    cases Option.some.inj (hi.symm.trans hj)
    exact ⟨i, hi, a, ha, .inr ⟨y, hy, hrest.owns⟩⟩

theorem Zone.disjoint (hs : p.Sound s) (hnames : ∀ a ∈ attrs, ∀ b ∈ attrs', a.name ≠ b.name)
    (h : s.Zone x attrs z field) : ¬ s.Zone x attrs' z field := by
  rintro ⟨i, hi, b, hb, hzb⟩
  obtain ⟨j, hj, a, ha, hza⟩ := h
  cases Option.some.inj (hi.symm.trans hj)
  have hnd := hs.embedded_nodup hi
  have hbelow : ∀ c : Attribute, ∀ y ∈ i.inside c, s.Owns y z → z < x := by
    intro c y hy hyz
    have h1 := Embeds.lt hs ⟨i, hi, Instance.inside_embedded hy⟩
    have h2 := Owns.le hs hyz
    omega
  rcases hza with ⟨rfl, rfl⟩ | ⟨y, hy, hyz⟩
  · rcases hzb with ⟨-, hab⟩ | ⟨y, hy, hyz⟩
    · exact hnames a ha b hb hab
    · exact Nat.lt_irrefl _ (hbelow b y hy hyz)
  · rcases hzb with ⟨rfl, -⟩ | ⟨w, hw, hwz⟩
    · exact Nat.lt_irrefl _ (hbelow a y hy hyz)
    · have heq := Owns.unique_child hs ⟨i, hi, Instance.inside_embedded hy⟩
        ⟨i, hi, Instance.inside_embedded hw⟩ hyz hwz
      subst heq
      exact hnames a ha b hb (Instance.inside_unique hnd hy hw)

end Store

end PduCompiler
