import PduCompiler.Proofs.Construction

/-! What init plans write into the object under construction. A step hands over to the plan of the
parent or sets one slot. So a new object has what the step of an attribute leaves in it, if no other
step takes that away. -/

namespace PduCompiler

theorem foldlM_keeps {ε α β : Type} {f : α → β → Except ε α} {P : α → Prop} {l : List β}
    (h : ∀ b ∈ l, ∀ x y, f x b = .ok y → P x → P y) {x y : α} (hf : l.foldlM f x = .ok y)
    (hx : P x) : P y := by
  induction l generalizing x with
  | nil =>
    cases hf
    exact hx
  | cons b l ih =>
    rw [List.foldlM_cons, bind_eq_ok] at hf
    obtain ⟨z, hz, hrest⟩ := hf
    exact ih (fun c hc => h c (List.mem_cons_of_mem _ hc)) hrest (h b List.mem_cons_self x z hz hx)

inductive Instance.Initialised (i : Instance) (act : Action) : Instance → Prop
  | word {w : Word} (hop : act.ReadsLiteral) (hw : act.type.readLiteral act.value = .ok w) :
      Initialised i act { i with
        types := i.types.set act.attr act.type, prims := i.prims.set act.attr w }
  | object (hop : act.op = .initObject) (ref : Nat) :
      Initialised i act { i with objects := i.objects.set act.attr ref }
  | array (hop : act.op = .initArray) :
      Initialised i act { i with
        arrays := i.arrays.set act.attr (List.replicate act.length.toNat 0) }
  | objects (hop : act.op = .initObjectArray) (refs : List Nat) :
      Initialised i act { i with objectArrays := i.objectArrays.set act.attr refs }
  | words (hop : act.op = .initList) (hn : act.className = "") :
      Initialised i act { i with primLists := i.primLists.set act.attr [] }
  | list (hop : act.op = .initList) (hn : act.className ≠ "") :
      Initialised i act { i with lists := i.lists.set act.attr [] }

theorem Plan.initAction_ne_super (overrides : Table String) (a : Attribute) :
    (Plan.initAction overrides a).op ≠ .super := by
  unfold Plan.initAction
  split
  · simp
  · simp
  · split <;> simp
  · simp
  · simp

theorem Plan.initAction_attr (overrides : Table String) (a : Attribute) :
    (Plan.initAction overrides a).attr = a.name := by
  unfold Plan.initAction
  split
  · rfl
  · rfl
  · split <;> rfl
  · rfl
  · rfl

theorem Plan.initAction_literal {overrides : Table String} {a : Attribute}
    (h : (Plan.initAction overrides a).ReadsLiteral) : ∃ q, a.kind = some (.primitive q) ∧
      (Plan.initAction overrides a).attr = a.name ∧
      (Plan.initAction overrides a).type = q.type := by
  cases hk : a.kind with
  | none => simp [Plan.initAction, hk, Action.ReadsLiteral] at h
  | some k =>
    cases k with
    | primitive q => exact ⟨q, rfl, Plan.initAction_attr overrides a, by simp [Plan.initAction, hk]⟩
    | object name => simp [Plan.initAction, hk, Action.ReadsLiteral] at h
    | fixedList n e =>
      cases he : e.isObject <;> simp [Plan.initAction, hk, he, Action.ReadsLiteral] at h
    | dynamicList field e => simp [Plan.initAction, hk, Action.ReadsLiteral] at h

theorem ClassPlan.Follows.init_super {plan : ClassPlan} {c : ClassDescription}
    (h : plan.Follows c) {act : Action} (hact : act ∈ plan.init) (hop : act.op = .super) :
    c.hasParent = true ∧ act.className = c.parent := by
  obtain ⟨overrides, assigns, hassigns, hinit⟩ := h.init
  rw [hinit, List.mem_append, List.mem_append] at hact
  rcases hact with (hact | hact) | hact
  · unfold Plan.superStep at hact
    split at hact
    · next hpar => exact ⟨hpar, by rw [List.mem_singleton.mp hact]⟩
    · simp at hact
  · obtain ⟨a, -, rfl⟩ := List.mem_map.mp hact
    exact (Plan.initAction_ne_super overrides a hop).elim
  · rw [hassigns act hact] at hop
    cases hop

namespace Program

theorem Compiled.init_literal {p : Program} {source : Registry} {options : PlanOptions}
    (h : p.Compiled source options) {name : String} {plan : ClassPlan}
    (hplan : p.plan? name = some plan) {act : Action} (hact : act ∈ plan.init)
    (hlit : act.ReadsLiteral) : ∃ a ∈ p.registry.allAttributes name, a.name = act.attr ∧
      ∃ q, a.kind = some (.primitive q) ∧ q.type = act.type := by
  obtain ⟨c, hc, hcp⟩ := h.plan_class (List.mem_of_find?_eq_some hplan)
  obtain ⟨wire, -, hdesc, hinit, -⟩ := Registry.plan_eq_ok hcp
  obtain rfl : c.name = name := by
    rw [← hdesc]
    simpa [ClassPlan.name] using List.find?_some hplan
  rw [hinit, List.mem_append, List.mem_append] at hact
  rcases hact with (hact | hact) | hact
  · unfold Plan.superStep at hact
    split at hact
    · rw [List.mem_singleton.mp hact] at hlit
      simp [Action.ReadsLiteral] at hlit
    · simp at hact
  · obtain ⟨a, ha, rfl⟩ := List.mem_map.mp hact
    obtain ⟨q, hq, hattr, htype⟩ := Plan.initAction_literal hlit
    have hown : a ∈ p.registry.allAttributes c.name := by
      rw [h.toPlanned.allAttributes_eq hc]
      exact List.mem_append_right _ ha
    exact ⟨a, hown, hattr.symm, q, hq, htype.symm⟩
  · refine Plan.initialValues_assigns (P := fun act => ∃ a ∈ p.registry.allAttributes c.name,
      a.name = act.attr ∧ ∃ q, a.kind = some (.primitive q) ∧ q.type = act.type)
      (fun owner ho a ha q hq value => ?_) true act hact
    have hin : a ∈ p.registry.allAttributes c.name :=
      List.mem_flatMap.mpr ⟨owner, List.mem_reverse.mpr ho, ha⟩
    exact ⟨a, hin, rfl, q, Attribute.primitive?_eq_some.mp hq, rfl⟩

theorem initStep_initialised {build : Builder} {name : String} {n n' : Nursery} {i i' : Instance}
    {act : Action} (h : initStep build name (n, i) act = .ok (n', i')) :
    act.op = .super ∧ build n i act.className = .ok (n', i') ∨ i.Initialised act i' := by
  unfold initStep at h
  cases hop : act.op with
  | super =>
    simp only [hop] at h
    exact .inl ⟨rfl, h⟩
  | initValue | assign =>
    simp only [hop] at h
    cases hl : act.type.readLiteral act.value with
    | error e => simp [hl] at h
    | ok w =>
      rw [hl] at h
      cases h
      exact .inr (.word (by simp [Action.ReadsLiteral, hop]) hl)
  | initObject =>
    simp only [hop, bind_eq_ok] at h
    obtain ⟨made, -, hpair⟩ := h
    cases hpair
    exact .inr (.object hop _)
  | initArray =>
    simp only [hop] at h
    cases h
    exact .inr (.array hop)
  | initObjectArray =>
    simp only [hop, bind_eq_ok] at h
    obtain ⟨made, -, hpair⟩ := h
    cases hpair
    exact .inr (.objects hop _)
  | initList =>
    simp only [hop] at h
    by_cases hn : act.className = ""
    · rw [if_pos (by simpa using hn)] at h
      cases h
      exact .inr (.words hop hn)
    · rw [if_neg (by simpa using hn)] at h
      cases h
      exact .inr (.list hop hn)
  | _ => simp [hop] at h

variable {p : Program} {P : Instance → Prop} {n n' : Nursery} {i i' : Instance}

/-- Construction by the plans of some classes keeps what each of their own steps keeps. -/
theorem construct_keeps {N : String → Prop}
    (hsuper : ∀ name plan act, N name → p.plan? name = some plan → act ∈ plan.init →
      act.op = .super → N act.className)
    (hstep : ∀ name plan act (i j : Instance), N name → p.plan? name = some plan → act ∈ plan.init →
      i.Initialised act j → P i → P j) (depth : Nat) {name : String} (hN : N name)
    (h : p.construct depth n i name = .ok (n', i')) (hi : P i) : P i' := by
  induction depth generalizing n i n' i' name with
  | zero => simp [construct] at h
  | succ depth ih =>
    rw [construct] at h
    cases hplan : p.plan? name with
    | none => simp [hplan] at h
    | some plan =>
      rw [hplan] at h
      refine foldlM_keeps (P := fun state => P state.2) (fun act hact x y hxy hx => ?_) h hi
      rcases initStep_initialised hxy with ⟨hop, hbuild⟩ | hinit
      · exact ih (hsuper name plan act hN hplan hact hop) hbuild hx
      · exact hstep name plan act _ _ hN hplan hact hinit hx

/-- What the step of an attribute brings about, and no step takes away, holds of a new object. -/
theorem construct_brings (hp : p.Planned)
    (hkeep : ∀ act (i j : Instance), i.Initialised act j → P i → P j) {a : Attribute}
    (hmake : ∀ overrides (i j : Instance), i.Initialised (Plan.initAction overrides a) j → P j)
    (depth : Nat) {c : ClassDescription} (hc : c ∈ p.registry.classes)
    (ha : a ∈ p.registry.allAttributes c.name)
    (h : p.construct depth n i c.name = .ok (n', i')) : P i' := by
  induction depth generalizing n i n' i' c with
  | zero => simp [construct] at h
  | succ depth ih =>
    have hkeeps : ∀ (acts : List Action) {x y : Nursery × Instance},
        acts.foldlM (initStep (p.construct depth) c.name) x = .ok y → P x.2 → P y.2 := by
      intro acts x y hacts
      refine foldlM_keeps (P := fun state => P state.2) (fun act _ x y hxy hx => ?_) hacts
      rcases initStep_initialised hxy with ⟨-, hbuild⟩ | hinit
      · exact construct_keeps (N := fun _ => True) (fun _ _ _ _ _ _ _ => trivial)
          (fun _ _ act i j _ _ _ => hkeep act i j) depth trivial hbuild hx
      · exact hkeep act _ _ hinit hx
    obtain ⟨plan, hplan, hf⟩ := hp.plan c hc
    obtain ⟨overrides, assigns, -, hinit⟩ := hf.init
    simp only [construct, hplan, hinit, List.foldlM_append, bind_eq_ok] at h
    obtain ⟨⟨n₂, i₂⟩, ⟨⟨n₁, i₁⟩, hsuper, hattrs⟩, hassign⟩ := h
    -- what the assignments at the end of the plan set does not matter any more
    refine hkeeps assigns hassign ?_
    rw [hp.allAttributes_eq hc] at ha
    rcases List.mem_append.mp ha with ha | ha
    · -- an inherited attribute has its step in the plan of an ancestor
      refine hkeeps _ hattrs ?_
      by_cases hpar : c.hasParent = true
      · simp only [Plan.superStep, hpar, if_true, List.foldlM_cons, bind_eq_ok] at hsuper
        obtain ⟨⟨m, j⟩, hstep, hnil⟩ := hsuper
        cases hnil
        obtain ⟨q, hq, hqn, -, -⟩ := hp.parent hc hpar
        rw [Plan.inherited, if_pos hpar, ← hqn] at ha
        rw [initStep, ← hqn] at hstep
        exact ih hq ha hstep
      · simp [Plan.inherited, hpar] at ha
    · obtain ⟨pre, post, hsplit⟩ := List.append_of_mem ha
      simp only [hsplit, List.map_append, List.map_cons, List.foldlM_append, List.foldlM_cons,
        bind_eq_ok] at hattrs
      obtain ⟨⟨m, j⟩, -, ⟨m', j'⟩, hstep, hrest⟩ := hattrs
      refine hkeeps _ hrest ?_
      rcases initStep_initialised hstep with ⟨hop, -⟩ | hinit
      · exact (Plan.initAction_ne_super overrides a hop).elim
      · exact hmake overrides j j' hinit

end Program

end PduCompiler
