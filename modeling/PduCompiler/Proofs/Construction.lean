import PduCompiler.Proofs.Storage

/-! Construction adds complete objects to a store. Whether a class can be constructed depends on
the class alone. The objects inside a new object are new as well, and it has no list elements
yet. -/

namespace PduCompiler

theorem bind_eq_ok {ε α β : Type} {x : Except ε α} {f : α → Except ε β} {b : β} :
    (x >>= f) = .ok b ↔ ∃ a, x = .ok a ∧ f a = .ok b := by
  cases x <;> simp [bind, Except.bind]

theorem foldlM_covers {ε α β : Type} {f g : α → β → Except ε α} (l : List β)
    (h : ∀ b ∈ l, ∀ x y, f x b = .ok y → ∀ x', ∃ y', g x' b = .ok y') {x y : α}
    (hf : l.foldlM f x = .ok y) (x' : α) : ∃ y', l.foldlM g x' = .ok y' := by
  induction l generalizing x x' with
  | nil => exact ⟨x', rfl⟩
  | cons b l ih =>
    rw [List.foldlM_cons] at hf
    obtain ⟨z, hz, hf⟩ := bind_eq_ok.mp hf
    obtain ⟨z', hz'⟩ := h b List.mem_cons_self x z hz x'
    obtain ⟨y', hy'⟩ := ih (fun c hc => h c (List.mem_cons_of_mem _ hc)) hf z'
    exact ⟨y', by rw [List.foldlM_cons, hz']; exact hy'⟩

theorem bind_eq_error {ε α β : Type} {x : Except ε α} {f : α → Except ε β} {e : ε} :
    (x >>= f) = .error e ↔ x = .error e ∨ ∃ a, x = .ok a ∧ f a = .error e := by
  cases x <;> simp [bind, Except.bind]

theorem foldlM_error {ε α β : Type} {f : α → β → Except ε α} {P : ε → Prop} {l : List β}
    (h : ∀ b ∈ l, ∀ x e, f x b = .error e → P e) {x : α} {e : ε}
    (he : l.foldlM f x = .error e) : P e := by
  induction l generalizing x with
  | nil => cases he
  | cons b l ih =>
    rw [List.foldlM_cons] at he
    rcases bind_eq_error.mp he with hb | ⟨y, -, hl⟩
    · exact h b List.mem_cons_self x e hb
    · exact ih (fun c hc => h c (List.mem_cons_of_mem _ hc)) hl

theorem foldlM_eq_ok {ε α β : Type} {f : α → β → Except ε α} {l : List β} {x y : α}
    (h : l.foldlM f x = .ok y) : ∀ b ∈ l, ∃ u v, f u b = .ok v := by
  induction l generalizing x with
  | nil => simp
  | cons b l ih =>
    rw [List.foldlM_cons] at h
    obtain ⟨z, hz, hl⟩ := bind_eq_ok.mp h
    intro c hc
    rcases List.mem_cons.mp hc with rfl | hc
    · exact ⟨x, z, hz⟩
    · exact ih hl c hc

theorem foldlM_congr {ε α β : Type} {f g : α → β → Except ε α} {l : List β}
    (h : ∀ b ∈ l, ∀ x, f x b = g x b) (x : α) : l.foldlM f x = l.foldlM g x := by
  induction l generalizing x with
  | nil => rfl
  | cons b l ih =>
    rw [List.foldlM_cons, List.foldlM_cons, h b List.mem_cons_self]
    congr 1
    funext y
    exact ih (fun c hc => h c (List.mem_cons_of_mem _ hc)) y

def Action.HandsTo (act : Action) (name : String) : Prop :=
  act.className = name ∧ (act.op = .super ∨ act.op = .initObject ∨
    act.op = .initObjectArray ∧ 0 < act.length.toNat)

def Action.ReadsLiteral (act : Action) : Prop := act.op = .initValue ∨ act.op = .assign

namespace Program

abbrev Builder := Nursery → Instance → String → Except MachineError (Nursery × Instance)

/-- Where one builder has a result, another has one too, whatever it starts from. -/
def Covers (build build' : Builder) : Prop :=
  ∀ n i name result, build n i name = .ok result →
    ∀ n' i', ∃ result', build' n' i' name = .ok result'

theorem buildMany_total {build build' : Builder} (h : Covers build build') {name : String}
    (count : Nat) {n : Nursery} {result : Nursery × List Ref}
    (hb : buildMany build name count n = .ok result) (n' : Nursery) :
    ∃ result', buildMany build' name count n' = .ok result' := by
  induction count generalizing n n' result with
  | zero => exact ⟨_, rfl⟩
  | succ count ih =>
    simp only [buildMany, bind_eq_ok] at hb ⊢
    obtain ⟨⟨m, obj⟩, hm, ⟨m', refs⟩, hrest, -⟩ := hb
    obtain ⟨⟨k, obj'⟩, hk⟩ := h _ _ _ _ hm n' { className := name }
    obtain ⟨⟨k', refs'⟩, hk'⟩ := ih hrest (k.push obj').1
    exact ⟨_, _, hk, _, hk', rfl⟩

theorem initStep_total {build build' : Builder} (h : Covers build build') {name : String}
    {state result : Nursery × Instance} {act : Action}
    (hs : initStep build name state act = .ok result) (state' : Nursery × Instance) :
    ∃ result', initStep build' name state' act = .ok result' := by
  obtain ⟨n, i⟩ := state
  obtain ⟨n', i'⟩ := state'
  unfold initStep at hs ⊢
  cases hop : act.op with
  | super =>
    simp only [hop] at hs ⊢
    exact h _ _ _ _ hs n' i'
  | initValue | assign =>
    simp only [hop] at hs ⊢
    cases hl : act.type.readLiteral act.value with
    | error e => simp [hl] at hs
    | ok w => exact ⟨_, rfl⟩
  | initObject =>
    simp only [hop, bind_eq_ok] at hs ⊢
    obtain ⟨⟨m, obj⟩, hm, -⟩ := hs
    obtain ⟨⟨k, obj'⟩, hk⟩ := h _ _ _ _ hm n' { className := act.className }
    exact ⟨_, _, hk, rfl⟩
  | initArray => exact ⟨_, rfl⟩
  | initObjectArray =>
    simp only [hop, bind_eq_ok] at hs ⊢
    obtain ⟨⟨m, refs⟩, hm, -⟩ := hs
    obtain ⟨⟨k, refs'⟩, hk⟩ := buildMany_total h _ hm n'
    exact ⟨_, _, hk, rfl⟩
  | initList =>
    simp only [hop] at hs ⊢
    by_cases hc : act.className = ""
    · exact ⟨_, by rw [if_pos (by simpa using hc)]⟩
    · exact ⟨_, by rw [if_neg (by simpa using hc)]⟩
  | _ => simp [hop] at hs

def initOps : List Op :=
  [.super, .initValue, .assign, .initObject, .initArray, .initObjectArray, .initList]

theorem buildMany_eq_error {build : Builder} {name : String} {count : Nat} {n : Nursery}
    {e : MachineError} (h : buildMany build name count n = .error e) :
    0 < count ∧ ∃ n i, build n i name = .error e := by
  induction count generalizing n with
  | zero => cases h
  | succ count ih =>
    refine ⟨Nat.succ_pos _, ?_⟩
    rw [buildMany] at h
    rcases bind_eq_error.mp h with hm | ⟨made, -, h⟩
    · exact ⟨_, _, hm⟩
    · rcases bind_eq_error.mp h with hr | ⟨result, -, h⟩
      · exact (ih hr).2
      · cases h

theorem initStep_eq_error {build : Builder} {name : String} {state : Nursery × Instance}
    {act : Action} {e : MachineError} (h : initStep build name state act = .error e) :
    (∃ inner, act.HandsTo inner ∧ ∃ n i, build n i inner = .error e) ∨
    (act.ReadsLiteral ∧ ∃ le, act.type.readLiteral act.value = .error le ∧
      e = .within name act.attr (.badLiteral le)) ∨
    act.op ∉ initOps ∧ e = .inClass name (.unexpected .init act.op) := by
  obtain ⟨n, i⟩ := state
  unfold initStep at h
  cases hop : act.op with
  | super =>
    simp only [hop] at h
    exact .inl ⟨_, ⟨rfl, .inl hop⟩, _, _, h⟩
  | initValue | assign =>
    simp only [hop] at h
    cases hl : act.type.readLiteral act.value with
    | error le =>
      rw [hl] at h
      cases h
      exact .inr (.inl ⟨by simp [Action.ReadsLiteral, hop], le, rfl, rfl⟩)
    | ok w =>
      rw [hl] at h
      cases h
  | initObject =>
    simp only [hop] at h
    rcases bind_eq_error.mp h with hm | ⟨made, -, h⟩
    · exact .inl ⟨_, ⟨rfl, .inr (.inl hop)⟩, _, _, hm⟩
    · cases h
  | initArray =>
    simp only [hop] at h
    cases h
  | initObjectArray =>
    simp only [hop] at h
    rcases bind_eq_error.mp h with hm | ⟨made, -, h⟩
    · obtain ⟨hpos, hb⟩ := buildMany_eq_error hm
      exact .inl ⟨_, ⟨rfl, .inr (.inr ⟨hop, hpos⟩)⟩, hb⟩
    · cases h
  | initList =>
    simp only [hop] at h
    split at h <;> cases h
  | _ =>
    simp only [hop] at h
    cases h
    exact .inr (.inr ⟨by simp [initOps], rfl⟩)

theorem initStep_eq_ok {build : Builder} {name : String} {state result : Nursery × Instance}
    {act : Action} (h : initStep build name state act = .ok result) :
    (∀ inner, act.HandsTo inner → ∃ n i made, build n i inner = .ok made) ∧
    (act.ReadsLiteral → ∃ w, act.type.readLiteral act.value = .ok w) := by
  obtain ⟨n, i⟩ := state
  unfold initStep at h
  constructor
  · rintro inner ⟨rfl, hop | hop | ⟨hop, hpos⟩⟩
    · simp only [hop] at h
      exact ⟨_, _, _, h⟩
    · simp only [hop, bind_eq_ok] at h
      obtain ⟨made, hm, -⟩ := h
      exact ⟨_, _, _, hm⟩
    · simp only [hop, bind_eq_ok] at h
      obtain ⟨made, hm, -⟩ := h
      obtain ⟨k, hk⟩ : ∃ k, act.length.toNat = k + 1 := ⟨act.length.toNat - 1, by omega⟩
      rw [hk, buildMany, bind_eq_ok] at hm
      obtain ⟨first, hf, -⟩ := hm
      exact ⟨_, _, _, hf⟩
  · intro hop
    cases hl : act.type.readLiteral act.value with
    | ok w => exact ⟨w, rfl⟩
    | error le => rcases hop with hop | hop <;> simp [hop, hl] at h

theorem buildMany_congr {build build' : Builder} {name : String} {count : Nat}
    (h : 0 < count → ∀ n i, build n i name = build' n i name) (n : Nursery) :
    buildMany build name count n = buildMany build' name count n := by
  induction count generalizing n with
  | zero => rfl
  | succ count ih =>
    have hfirst := h (Nat.succ_pos _)
    simp only [buildMany, hfirst, ih fun _ => hfirst]

theorem initStep_congr {build build' : Builder} {act : Action}
    (h : ∀ inner, act.HandsTo inner → ∀ n i, build n i inner = build' n i inner) (name : String)
    (state : Nursery × Instance) : initStep build name state act = initStep build' name state act := by
  obtain ⟨n, i⟩ := state
  unfold initStep
  cases hop : act.op with
  | super => exact h _ ⟨rfl, .inl hop⟩ n i
  | initObject => simp only [h _ ⟨rfl, .inr (.inl hop)⟩]
  | initObjectArray =>
    simp only [buildMany_congr fun hpos => h _ ⟨rfl, .inr (.inr ⟨hop, hpos⟩)⟩]
  | _ => rfl

/-- Construction succeeds or not by the class alone, and more depth does no harm. -/
theorem construct_covers (p : Program) (depth more : Nat) (h : depth ≤ more) :
    Covers (p.construct depth) (p.construct more) := by
  induction depth generalizing more with
  | zero => intro n i name result hr; simp [construct] at hr
  | succ depth ih =>
    intro n i name result hr n' i'
    obtain ⟨more, rfl⟩ : ∃ m, more = m + 1 := ⟨more - 1, by omega⟩
    simp only [construct] at hr ⊢
    cases hp : p.plan? name with
    | none => simp [hp] at hr
    | some plan =>
      simp only [hp] at hr
      have hstep : ∀ act ∈ plan.init, ∀ x y, initStep (p.construct depth) name x act = .ok y →
          ∀ x', ∃ y', initStep (p.construct more) name x' act = .ok y' :=
        fun act _ x y hy x' => initStep_total (ih more (by omega)) hy x'
      exact foldlM_covers plan.init hstep hr _

theorem Ready.of_construct {p : Program} {depth : Nat} (hd : depth ≤ p.initDepth)
    {n : Nursery} {i : Instance} {name : String} {result : Nursery × Instance}
    (h : p.construct depth n i name = .ok result) : p.Ready name :=
  fun n' i' => construct_covers p depth p.initDepth hd n i name result h n' i'

theorem Ready.class {p : Program} (hp : p.Planned) {name : String} (h : p.Ready name) :
    ∃ c ∈ p.registry.classes, c.name = name := by
  obtain ⟨result, hr⟩ := h ⟨0, #[]⟩ { className := "" }
  rw [show p.initDepth = (p.initDepth - 1) + 1 by
    have : 0 < p.initDepth := Nat.mul_pos (by omega) (by omega)
    omega, construct] at hr
  cases hplan : p.plan? name with
  | none => simp [hplan] at hr
  | some plan =>
    obtain ⟨c, hc, hn, -⟩ := hp.class_of_plan name plan hplan
    exact ⟨c, hc, hn⟩

/-- A sound store that comes from another by new objects. -/
structure Grown (p : Program) (s t : Store) : Prop where
  grows : ∃ objects, t = s.append objects ∧
    ∀ o ∈ objects, (∀ y ∈ o.embedded, s.size ≤ y) ∧ o.elements = []
  sound : p.Sound t

theorem Grown.refl {p : Program} {s : Store} (hs : p.Sound s) : p.Grown s s :=
  ⟨⟨#[], by simp [Store.append], by simp⟩, hs⟩

theorem Grown.size_le {p : Program} {s t : Store} (h : p.Grown s t) : s.size ≤ t.size := by
  obtain ⟨⟨objects, rfl, -⟩, -⟩ := h
  simp

theorem Grown.trans {p : Program} {s t u : Store} (h : p.Grown s t) (h' : p.Grown t u) :
    p.Grown s u := by
  have hle := h.size_le
  obtain ⟨⟨a, rfl, ha⟩, -⟩ := h
  obtain ⟨⟨b, rfl, hb⟩, hu⟩ := h'
  refine ⟨⟨a ++ b, s.append_append a b, fun o ho => ?_⟩, hu⟩
  rcases Array.mem_append.mp ho with ho | ho
  · exact ha o ho
  · exact ⟨fun y hy => Nat.le_trans hle ((hb o ho).1 y hy), (hb o ho).2⟩

theorem Grown.owners {p : Program} {s t : Store} (h : p.Grown s t) {refs : List Nat}
    (hr : ∀ y ∈ refs, y < s.size) (hn : (refs ++ s.embedded).Nodup) :
    (refs ++ t.embedded).Nodup := by
  have ht := h.sound.owners
  obtain ⟨⟨objects, rfl, ho⟩, -⟩ := h
  rw [Store.embedded_append] at ht ⊢
  obtain ⟨h1, -, h2⟩ := List.nodup_append.mp hn
  refine List.nodup_append.mpr ⟨h1, ht, fun x hx y hy => ?_⟩
  rcases List.mem_append.mp hy with hy | hy
  · exact h2 x hx y hy
  · obtain ⟨o, hom, hyo⟩ := List.mem_flatMap.mp hy
    have hge := (ho o (by simpa using hom)).1 y hyo
    have hlt := hr x hx
    omega

/-- A new object that has been given some attributes, with the objects inside it. -/
structure Made (p : Program) (s t : Store) (i : Instance) (attrs : List Attribute) : Prop where
  grown : p.Grown s t
  draft : i.Draft t attrs
  fresh : ∀ y ∈ i.embedded, s.size ≤ y
  owners : (i.embedded ++ t.embedded).Nodup
  empty : i.elements = []

theorem Made.blank {p : Program} {s : Store} (hs : p.Sound s) (name : String) :
    p.Made s s { className := name } [] := by
  refine ⟨.refl hs, ⟨?_, ?_, ?_, ?_⟩, ?_, ?_, rfl⟩
  · intro a ha
    simpa using ha.mem
  · simp [Instance.embedded]
  · simp [Instance.elements]
  · intro name slot hl
    cases slot <;> simp [Instance.HasList, Table.get?] at hl
  · simp [Instance.embedded]
  · simpa [Instance.embedded] using hs.owners

theorem Made.grow {p : Program} {s t u : Store} {i : Instance} {attrs : List Attribute}
    (h : p.Made s t i attrs) (hu : p.Grown t u) : p.Made s u i attrs := by
  have ho := hu.owners h.draft.embedded_lt h.owners
  refine ⟨h.grown.trans hu, ?_, h.fresh, ho, h.empty⟩
  obtain ⟨⟨objects, rfl, -⟩, -⟩ := hu
  exact h.draft.append objects

theorem Made.push {p : Program} {s t : Store} {i : Instance}
    (h : p.Made s t i (p.registry.allAttributes i.className)) (hr : p.Ready i.className) :
    p.Grown s (t.append #[i]) := by
  refine ⟨?_, ?_, ?_⟩
  · obtain ⟨objects, rfl, ho⟩ := h.grown.grows
    refine ⟨objects ++ #[i], s.append_append _ _, fun o hom => ?_⟩
    rcases Array.mem_append.mp hom with hom | hom
    · exact ho o hom
    · obtain rfl : o = i := by simpa using hom
      exact ⟨h.fresh, h.empty⟩
  · intro x j hj
    by_cases hx : x < t.size
    · rw [Store.get?_append_left hx] at hj
      obtain ⟨h1, h2, h3⟩ := h.grown.sound.object x j hj
      exact ⟨h1, h2.append _, h3⟩
    · have hlt := Store.get?_lt hj
      rw [Store.size_append] at hlt
      have hx : x = t.size := by
        simp only [List.size_toArray, List.length_cons, List.length_nil] at hlt
        omega
      subst hx
      obtain rfl : i = j := by
        simpa [Store.get?_append_right (Nat.le_refl _)] using hj
      exact ⟨hr, h.draft.append _, h.draft.embedded_lt⟩
  · rw [Store.embedded_append]
    simpa using (List.nodup_append_comm.mp h.owners)

theorem Made.fill {p : Program} {s t : Store} {i j : Instance} {attrs : List Attribute}
    (h : p.Made s t i attrs) (a : Attribute) (refs : List Nat)
    (hagree : ∀ name slot, (name = a.name → slot ≠ a.slot) → i.AgreeAt j name slot)
    (ha : j.Holds t a) (hempty : j.elements = [])
    (hsub : j.embedded.Subperm (refs ++ i.embedded))
    (hrefs : ∀ y ∈ refs, s.size ≤ y ∧ y < t.size)
    (howners : (refs ++ (i.embedded ++ t.embedded)).Nodup) :
    p.Made s t j (attrs ++ [a]) := by
  have hmem : ∀ y ∈ j.embedded, s.size ≤ y ∧ y < t.size := by
    intro y hy
    rcases List.mem_append.mp (hsub.subset hy) with hy | hy
    · exact hrefs y hy
    · exact ⟨h.fresh y hy, h.draft.embedded_lt y hy⟩
  refine ⟨h.grown, ⟨?_, fun y hy => (hmem y hy).2, by simp [hempty], ?_⟩,
    fun y hy => (hmem y hy).1, ?_, hempty⟩
  · intro b hb
    rcases hb.of_append_singleton with rfl | ⟨hb, hne⟩
    · exact ha
    · exact (h.draft.holds b hb).of_agree
        (hagree b.name b.slot fun hn hs => hne hn.symm hs.symm) fun _ _ hy => hy
  · intro name slot hl
    by_cases hs : name = a.name ∧ a.slot = slot
    · exact ⟨a, by simp, hs.1.symm, hs.2⟩
    · have hag := hagree name slot fun he hw => hs ⟨he, hw.symm⟩
      obtain ⟨b, hb, hbn, hbs⟩ := h.draft.lists name slot (hl.of_agree hag)
      exact ⟨b, by simp [hb], hbn, hbs⟩
  · obtain ⟨l, hl, hls⟩ := (List.subperm_append_right t.embedded).mpr hsub
    rw [← List.append_assoc] at howners
    exact hl.nodup_iff.mp (howners.sublist hls)

theorem Sound.embedded_lt {p : Program} {s : Store} (hs : p.Sound s) :
    ∀ y ∈ s.embedded, y < s.size := by
  intro y hy
  obtain ⟨o, ho, hyo⟩ := List.mem_flatMap.mp hy
  obtain ⟨x, hx⟩ := List.mem_iff_getElem?.mp ho
  have hget : s.get? x = some o := by simpa [Store.get?] using hx
  exact (hs.object x o hget).draft.embedded_lt y hyo

end Program

namespace Nursery

def atop (n : Nursery) (s : Store) : Store := s.append n.objects

theorem push_atop (n : Nursery) (s : Store) (i : Instance) :
    (n.push i).1.atop s = (n.atop s).append #[i] := by
  simp [push, atop, Store.append]

theorem push_ref {n : Nursery} {s : Store} (h : n.first = s.size) (i : Instance) :
    (n.push i).2 = (n.atop s).size := by
  simp [push, atop, h]

end Nursery

namespace Program

/-- A builder that gives a new object the attributes of a class. -/
def Builds (p : Program) (s : Store) (build : Builder) : Prop :=
  ∀ n name own n' i, n.first = s.size → p.Sound (n.atop s) →
    build n { className := own } name = .ok (n', i) →
    n'.first = s.size ∧ i.className = own ∧ p.Ready name ∧
      p.Made (n.atop s) (n'.atop s) i (p.registry.allAttributes name)

theorem Builds.object {p : Program} {s : Store} {build : Builder} (hb : p.Builds s build)
    {n n' : Nursery} {name : String} {obj : Instance} (hn : n.first = s.size)
    (hs : p.Sound (n.atop s)) (h : build n { className := name } name = .ok (n', obj)) :
    (n'.push obj).1.first = s.size ∧ p.Grown (n.atop s) ((n'.push obj).1.atop s) ∧
      (n.atop s).size ≤ (n'.push obj).2 ∧
      ((n'.push obj).1.atop s).class? (n'.push obj).2 = some name ∧
      ((n'.push obj).2 :: ((n'.push obj).1.atop s).embedded).Nodup := by
  obtain ⟨hn', rfl, hr, hm⟩ := hb n name _ n' obj hn hs h
  have hg := hm.push hr
  rw [Nursery.push_ref hn', Nursery.push_atop]
  refine ⟨hn', hg, hm.grown.size_le, ?_, List.nodup_cons.mpr ⟨fun hmem => ?_, hg.sound.owners⟩⟩
  · simp [Store.class?, Store.get?_append_right (Nat.le_refl _)]
  · rw [Store.embedded_append] at hmem
    rcases List.mem_append.mp hmem with hmem | hmem
    · exact Nat.lt_irrefl _ (hm.grown.sound.embedded_lt _ hmem)
    · exact Nat.lt_irrefl _ (hm.draft.embedded_lt _ (by simpa using hmem))

theorem Builds.many {p : Program} {s : Store} {build : Builder} (hb : p.Builds s build)
    {name : String} (count : Nat) {n n' : Nursery} {refs : List Nat} (hn : n.first = s.size)
    (hs : p.Sound (n.atop s)) (h : buildMany build name count n = .ok (n', refs)) :
    n'.first = s.size ∧ p.Grown (n.atop s) (n'.atop s) ∧ refs.length = count ∧
      (∀ y ∈ refs, (n.atop s).size ≤ y ∧ (n'.atop s).class? y = some name) ∧
      (refs ++ (n'.atop s).embedded).Nodup := by
  induction count generalizing n refs with
  | zero =>
    cases h
    exact ⟨hn, .refl hs, rfl, by simp, by simpa using hs.owners⟩
  | succ count ih =>
    simp only [buildMany, bind_eq_ok] at h
    obtain ⟨⟨m, obj⟩, hm, ⟨m', rest⟩, hrest, hpair⟩ := h
    cases hpair
    obtain ⟨hf, hg, hge, hc, hnd⟩ := hb.object hn hs hm
    obtain ⟨hf', hg', hlen, hrefs, hnd'⟩ := ih hf hg.sound hrest
    have hlt := Store.class?_lt hc
    refine ⟨hf', hg.trans hg', by simp [hlen], fun y hy => ?_, ?_⟩
    · rcases List.mem_cons.mp hy with rfl | hy
      · refine ⟨hge, ?_⟩
        obtain ⟨⟨objects, he, -⟩, -⟩ := hg'
        rw [he]
        exact Store.class?_append hc objects
      · exact ⟨Nat.le_trans hg.size_le (hrefs y hy).1, (hrefs y hy).2⟩
    · have hown := hg'.owners (fun y hy => by rw [List.mem_singleton.mp hy]; exact hlt) hnd
      refine List.nodup_cons.mpr ⟨fun hmem => ?_, hnd'⟩
      rcases List.mem_append.mp hmem with hmem | hmem
      · exact Nat.lt_irrefl _ (Nat.lt_of_lt_of_le hlt (hrefs _ hmem).1)
      · exact (List.nodup_cons.mp hown).1 hmem

section

variable {p : Program} {s₀ s : Store} {build : Builder} {a : Attribute} {name : String}
  {overrides : Table String} {n n' : Nursery} {i i' : Instance} {attrs : List Attribute}

theorem Made.object (hb : p.Builds s build) {cls : String} (hk : a.kind = some (.object cls))
    (hn : n.first = s.size) (hm : p.Made s₀ (n.atop s) i attrs)
    (h : initStep build name (n, i) (Plan.initAction overrides a) = .ok (n', i')) :
    n'.first = s.size ∧ i'.className = i.className ∧
      p.Made s₀ (n'.atop s) i' (attrs ++ [a]) := by
  simp only [Plan.initAction, hk, initStep, bind_eq_ok] at h
  obtain ⟨⟨m, obj⟩, hobj, he⟩ := h
  cases he
  obtain ⟨hf, hg, hge, hc, hnd⟩ := hb.object hn hm.grown.sound hobj
  have hm' := hm.grow hg
  refine ⟨hf, rfl, hm'.fill a [(m.push obj).2] ?_ ?_ hm.empty ?_ ?_ ?_⟩
  · intro name slot hne
    cases slot <;> simp_all [Instance.AgreeAt, Table.get?_set, Attribute.slot]
  · simp only [Instance.Holds, hk, Instance.object?, Table.get?_set, if_true]
    exact ⟨_, rfl, hc⟩
  · rw [Instance.embedded, Instance.embedded, ← List.append_assoc]
    exact (List.subperm_append_right _).mpr
      (Table.set_flatMap_subperm (fun y => [y]) i.objects a.name (m.push obj).2)
  · intro y hy
    rw [List.mem_singleton.mp hy]
    exact ⟨Nat.le_trans hm.grown.size_le hge, Store.class?_lt hc⟩
  · have hd := hm.draft.embedded_lt
    rw [List.singleton_append]
    refine List.nodup_cons.mpr ⟨fun hmem => ?_, hm'.owners⟩
    rcases List.mem_append.mp hmem with hmem | hmem
    · exact Nat.lt_irrefl _ (Nat.lt_of_lt_of_le (hd _ hmem) hge)
    · exact (List.nodup_cons.mp hnd).1 hmem

theorem Made.objects (hb : p.Builds s build) {len : Int} {e : Element}
    (hk : a.kind = some (.fixedList len e)) (he : e.isObject = true) (hn : n.first = s.size)
    (hm : p.Made s₀ (n.atop s) i attrs)
    (h : initStep build name (n, i) (Plan.initAction overrides a) = .ok (n', i')) :
    n'.first = s.size ∧ i'.className = i.className ∧
      p.Made s₀ (n'.atop s) i' (attrs ++ [a]) := by
  simp only [Plan.initAction, hk, he, initStep, if_true, bind_eq_ok] at h
  obtain ⟨⟨m, refs⟩, hrefs, hpair⟩ := h
  cases hpair
  obtain ⟨hf, hg, hlen, hall, hnd⟩ := hb.many _ hn hm.grown.sound hrefs
  have hm' := hm.grow hg
  refine ⟨hf, rfl, hm'.fill a refs ?_ ?_ hm.empty ?_ ?_ ?_⟩
  · intro name slot hne
    cases slot <;> simp_all [Instance.AgreeAt, Table.get?_set, Attribute.slot]
  · simp only [Instance.Holds, hk, he, Instance.objectArray, Table.get?_set, if_true,
      Option.getD_some]
    exact ⟨hlen, fun y hy => (hall y hy).2⟩
  · rw [Instance.embedded, Instance.embedded]
    refine ((List.subperm_append_left _).mpr
      (Table.set_flatMap_subperm id i.objectArrays a.name refs)).trans (List.Perm.subperm ?_)
    rw [← List.append_assoc, ← List.append_assoc]
    exact List.perm_append_comm.append_right _
  · intro y hy
    exact ⟨Nat.le_trans hm.grown.size_le (hall y hy).1, Store.class?_lt (hall y hy).2⟩
  · obtain ⟨h1, -, h2⟩ := List.nodup_append.mp hnd
    refine List.nodup_append.mpr ⟨h1, hm'.owners, fun x hx y hy => ?_⟩
    rcases List.mem_append.mp hy with hy | hy
    · have hge := (hall x hx).1
      have hlt := hm.draft.embedded_lt y hy
      omega
    · exact h2 x hx y hy

theorem Made.attribute (hb : p.Builds s build) (hk : a.kind ≠ none) (hn : n.first = s.size)
    (hm : p.Made s₀ (n.atop s) i attrs)
    (h : initStep build name (n, i) (Plan.initAction overrides a) = .ok (n', i')) :
    n'.first = s.size ∧ i'.className = i.className ∧
      p.Made s₀ (n'.atop s) i' (attrs ++ [a]) := by
  have hself := (List.Subperm.refl i.embedded)
  cases Attribute.form hk with
  | word q hk =>
    simp only [Plan.initAction, hk, initStep] at h
    cases hl : q.type.readLiteral ((overrides.get? a.name).getD
        (if q.default == "" then "0" else q.default)) with
    | error e =>
      rw [hl] at h
      cases h
    | ok w =>
      rw [hl] at h
      cases h
      refine ⟨hn, rfl, hm.fill a [] ?_ (by simp [Instance.Holds, hk]) hm.empty hself (by simp)
        hm.owners⟩
      intro name slot hne
      cases slot <;>
        simp_all [Instance.AgreeAt, Table.get?_set, Attribute.slot]
  | object cls hk => exact hm.object hb hk hn h
  | array len e hk he =>
    simp only [Plan.initAction, hk, he, initStep, if_neg Bool.false_ne_true] at h
    cases h
    refine ⟨hn, rfl, hm.fill a [] ?_ ?_ hm.empty hself (by simp) hm.owners⟩
    · intro name slot hne
      cases slot <;> simp_all [Instance.AgreeAt, Table.get?_set, Attribute.slot]
    · simp [Instance.Holds, hk, he, Instance.array, Table.get?_set]
  | objects len e hk he => exact hm.objects hb hk he hn h
  | words field e hk he =>
    simp only [Plan.initAction, hk, initStep] at h
    rw [if_pos (by simpa [Element.isObject] using he)] at h
    cases h
    refine ⟨hn, rfl, hm.fill a [] ?_ ?_ hm.empty hself (by simp) hm.owners⟩
    · intro name slot hne
      cases slot <;> simp_all [Instance.AgreeAt, Table.get?_set, Attribute.slot]
    · simp [Instance.Holds, hk, he, Table.get?_set]
  | list field e hk he =>
    simp only [Plan.initAction, hk, initStep] at h
    rw [if_neg (by simpa [Element.isObject] using he)] at h
    cases h
    refine ⟨hn, rfl, hm.fill a [] ?_ (by simp [Instance.Holds, hk, he]) ?_ hself (by simp)
      hm.owners⟩
    · intro name slot hne
      cases slot <;> simp_all [Instance.AgreeAt, Table.get?_set, Attribute.slot]
    · have hsub := Table.set_flatMap_subperm id i.lists a.name []
      have hnil : (i.lists.flatMap fun e => id e.2) = [] := hm.empty
      rw [hnil] at hsub
      exact List.subperm_nil.mp hsub

end

theorem Made.attributes {p : Program} {s₀ s : Store} {build : Builder} (hb : p.Builds s build)
    {name : String} {overrides : Table String} (new : List Attribute)
    (hk : ∀ a ∈ new, a.kind ≠ none) {n n' : Nursery} {i i' : Instance} {attrs : List Attribute}
    (hn : n.first = s.size) (hm : p.Made s₀ (n.atop s) i attrs)
    (h : (new.map (Plan.initAction overrides)).foldlM (initStep build name) (n, i) =
      .ok (n', i')) :
    n'.first = s.size ∧ i'.className = i.className ∧ p.Made s₀ (n'.atop s) i' (attrs ++ new) := by
  induction new generalizing n i attrs with
  | nil =>
    cases h
    exact ⟨hn, rfl, by simpa using hm⟩
  | cons a rest ih =>
    rw [List.map_cons, List.foldlM_cons, bind_eq_ok] at h
    obtain ⟨⟨m, j⟩, hstep, hrest⟩ := h
    obtain ⟨hf, hc, hmade⟩ := hm.attribute hb (hk a List.mem_cons_self) hn hstep
    obtain ⟨hf', hc', hmade'⟩ := ih (fun b hb => hk b (List.mem_cons_of_mem _ hb)) hf hmade hrest
    exact ⟨hf', hc'.trans hc, by simpa using hmade'⟩

theorem Made.assigns {p : Program} {s₀ s : Store} {build : Builder} {name : String}
    (acts : List Action) (hop : ∀ act ∈ acts, act.op = .assign) {n n' : Nursery}
    {i i' : Instance} {attrs : List Attribute} (hm : p.Made s₀ (n.atop s) i attrs)
    (h : acts.foldlM (initStep build name) (n, i) = .ok (n', i')) :
    n' = n ∧ i'.className = i.className ∧ p.Made s₀ (n.atop s) i' attrs := by
  induction acts generalizing i with
  | nil =>
    cases h
    exact ⟨rfl, rfl, hm⟩
  | cons act rest ih =>
    rw [List.foldlM_cons, bind_eq_ok] at h
    obtain ⟨⟨m, j⟩, hstep, hrest⟩ := h
    simp only [initStep, hop act List.mem_cons_self] at hstep
    cases hl : act.type.readLiteral act.value with
    | error e =>
      rw [hl] at hstep
      cases hstep
    | ok w =>
      rw [hl] at hstep
      cases hstep
      have hm' : p.Made s₀ (n.atop s) { i with
          types := i.types.set act.attr act.type, prims := i.prims.set act.attr w } attrs :=
        ⟨hm.grown, ⟨hm.draft.holds, hm.draft.embedded_lt, hm.draft.elements_lt, hm.draft.lists⟩,
          hm.fresh, hm.owners, hm.empty⟩
      have hh := ih (fun b hb => hop b (List.mem_cons_of_mem _ hb)) hm' hrest
      exact hh

theorem construct_builds {p : Program} (hp : p.Planned) (s : Store) (depth : Nat)
    (hd : depth ≤ p.initDepth) : p.Builds s (p.construct depth) := by
  induction depth with
  | zero => intro n name own n' i _ _ h; simp [construct] at h
  | succ depth ih =>
    intro n name own n' i hn hs h
    have hready := Ready.of_construct hd h
    have hb := ih (by omega)
    rw [construct] at h
    cases hplan : p.plan? name with
    | none => simp [hplan] at h
    | some plan =>
      obtain ⟨c, hc, rfl, hf⟩ := hp.class_of_plan name plan hplan
      obtain ⟨overrides, assigns, hop, hinit⟩ := hf.init
      simp only [hplan, hinit, List.foldlM_append, bind_eq_ok] at h
      obtain ⟨⟨n₂, i₂⟩, ⟨⟨n₁, i₁⟩, hsuper, hattrs⟩, hassign⟩ := h
      -- the parent's attributes come first, then the class's own
      obtain ⟨hf₁, hc₁, hm₁⟩ : n₁.first = s.size ∧ i₁.className = own ∧
          p.Made (n.atop s) (n₁.atop s) i₁
            (Plan.inherited c p.registry.allAttributes) := by
        by_cases hpar : c.hasParent = true
        · simp only [Plan.superStep, hpar, if_true, List.foldlM_cons, bind_eq_ok] at hsuper
          obtain ⟨⟨m, j⟩, hstep, hnil⟩ := hsuper
          cases hnil
          obtain ⟨h1, h2, -, h4⟩ := hb n c.parent own n₁ i₁ hn hs hstep
          exact ⟨h1, h2, by rwa [Plan.inherited, if_pos hpar]⟩
        · simp only [Plan.superStep, hpar] at hsuper
          cases hsuper
          exact ⟨hn, rfl, by rw [Plan.inherited, if_neg hpar]; exact .blank hs own⟩
      obtain ⟨hf₂, hc₂, hm₂⟩ := hm₁.attributes hb c.attributes
        (fun a ha => hp.kind_ne_none hc ha) hf₁ hattrs
      obtain ⟨rfl, hc₃, hm₃⟩ := hm₂.assigns assigns hop hassign
      exact ⟨hf₂, hc₃.trans (hc₂.trans hc₁), hready, hp.allAttributes_eq hc ▸ hm₃⟩

theorem build_grown {p : Program} (hp : p.Planned) {s : Store} (hs : p.Sound s) {name : String}
    {objects : Array Instance} {ref : Nat} (h : p.build s.size name = .ok (objects, ref)) :
    p.Grown s (s.append objects) ∧ s.size ≤ ref ∧ (s.append objects).class? ref = some name ∧
      ref ∉ (s.append objects).embedded := by
  simp only [build, bind_eq_ok] at h
  obtain ⟨⟨n, i⟩, hc, he⟩ := h
  cases he
  have hover : Nursery.atop { first := s.size } s = s := by simp [Nursery.atop, Store.append]
  have hb := construct_builds hp s p.initDepth (Nat.le_refl _)
  obtain ⟨-, hg, hge, hcls, hnd⟩ := hb.object rfl (hover.symm ▸ hs) hc
  rw [hover] at hg hge
  exact ⟨hg, hge, hcls, (List.nodup_cons.mp hnd).1⟩

theorem Ready.build {p : Program} {name : String} (h : p.Ready name) (first : Nat) :
    ∃ objects ref, p.build first name = .ok (objects, ref) := by
  obtain ⟨⟨n, i⟩, hc⟩ := h { first } { className := name }
  exact ⟨_, _, bind_eq_ok.mpr ⟨_, hc, rfl⟩⟩

theorem Ready.of_build {p : Program} {name : String} {first : Nat} {result : Array Instance × Nat}
    (h : p.build first name = .ok result) : p.Ready name := by
  simp only [Program.build, bind_eq_ok] at h
  obtain ⟨⟨n, i⟩, hc, -⟩ := h
  exact .of_construct (Nat.le_refl _) hc

end Program

end PduCompiler
