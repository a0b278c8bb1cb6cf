import PduCompiler.Proofs.Defaults
import PduCompiler.Proofs.Initialisation
import PduCompiler.Proofs.Widths

/-! Stored words against the widths of fields. Words that are made, decoded or set as integers fit
their fields. Two operations store what they are given as it is: a float goes whole into a field
that is no 32-bit float, and a list of scalars takes any word. So all words fit exactly as long as
these two are given what fits. -/

namespace PduCompiler

open Decode

def Instance.Fits (i : Instance) (a : Attribute) : Prop :=
  match a.kind with
  | some (.primitive q) => q.type.Admits (i.uint a.name)
  | some (.dynamicList _ e) => e.isObject = false → ∀ w ∈ i.primList a.name, e.type.Admits w
  | _ => True

namespace Instance

variable {i : Instance} {a : Attribute} {name : String}

theorem Fits.setPrim (h : i.Fits a) {w : Word}
    (hw : a.name = name → ∀ q, a.kind = some (.primitive q) → q.type.Admits w) :
    (i.setPrim name w).Fits a := by
  unfold Fits at h ⊢
  split
  · next q hk =>
    by_cases hn : a.name = name
    · simpa [Instance.uint, Instance.setPrim, Table.get?_set, hn] using hw hn q hk
    · simpa [hk, Instance.uint, Instance.setPrim, Table.get?_set, hn] using h
  · next field e hk =>
    simp only [hk] at h
    exact h
  · trivial

theorem Fits.setWords (h : i.Fits a) {ws : List Word}
    (hws : a.name = name → ∀ field e, a.kind = some (.dynamicList field e) →
      e.isObject = false → ∀ w ∈ ws, e.type.Admits w) :
    Fits { i with primLists := i.primLists.set name ws } a := by
  unfold Fits at h ⊢
  split
  · next q hk =>
    simp only [hk] at h
    exact h
  · next field e hk =>
    intro he
    by_cases hn : a.name = name
    · simpa [Instance.primList, Table.get?_set, hn] using hws hn field e hk he
    · simp only [hk] at h
      simpa [Instance.primList, Table.get?_set, hn] using h he
  · trivial

/-- An object under construction by some attributes: a field that has a type has that of an attribute
and a word that fits, and nothing is in a list. -/
structure Primed (attrs : List Attribute) (i : Instance) : Prop where
  word : ∀ f t, i.types.get? f = some t → t.Admits (i.uint f) ∧
    ∃ a ∈ attrs, a.name = f ∧ ∃ q, a.kind = some (.primitive q) ∧ q.type = t
  words : ∀ f, i.primList f = []

theorem Primed.blank (attrs : List Attribute) (name : String) :
    Primed attrs { className := name } :=
  ⟨fun f t h => by simp [Table.get?] at h, fun f => rfl⟩

theorem Primed.step {attrs : List Attribute}
    (hcanon : ∀ a ∈ attrs, ∀ q, a.kind = some (.primitive q) → q.type.isCanonical = true)
    {act : Action} (hact : act.ReadsLiteral → ∃ a ∈ attrs, a.name = act.attr ∧
      ∃ q, a.kind = some (.primitive q) ∧ q.type = act.type)
    {j : Instance} (hij : i.Initialised act j) (h : i.Primed attrs) : j.Primed attrs := by
  cases hij with
  | @word w hop hw =>
    obtain ⟨a, ha, hname, q, hq, htype⟩ := hact hop
    have hadmits : act.type.Admits w :=
      TypeName.admits_readLiteral (htype ▸ hcanon a ha q hq) hw
    refine ⟨fun f t ht => ?_, h.words⟩
    by_cases hf : f = act.attr
    · rw [Table.get?_set, if_pos hf, Option.some.injEq] at ht
      subst ht
      refine ⟨by simpa [Instance.uint, Table.get?_set, hf] using hadmits, ?_⟩
      exact ⟨a, ha, hname.trans hf.symm, q, hq, htype⟩
    · rw [Table.get?_set, if_neg hf] at ht
      simpa [Instance.uint, Table.get?_set, hf] using h.word f t ht
  | words _ _ =>
    refine ⟨h.word, fun f => ?_⟩
    by_cases hf : f = act.attr
    · simp [Instance.primList, Table.get?_set, hf]
    · simpa [Instance.primList, Table.get?_set, hf] using h.words f
  | object _ _ | array _ | objects _ _ | list _ _ => exact ⟨h.word, h.words⟩

end Instance

namespace Program

def WordsFit (p : Program) (s : Store) : Prop :=
  ∀ x i, s.get? x = some i → ∀ a ∈ p.registry.allAttributes i.className, i.Fits a

variable {p : Program} {source : Registry} {options : PlanOptions} {s : Store}

theorem Planned.canonical (hp : p.Planned) {c : ClassDescription} (hc : c ∈ p.registry.classes)
    {a : Attribute} (ha : a ∈ p.registry.allAttributes c.name) {q : Primitive}
    (hq : a.kind = some (.primitive q)) : q.type.isCanonical = true := by
  obtain ⟨d, hd, had, -⟩ := hp.declaring hc ha
  simpa only [Registry.KindSound, hq] using hp.consistent.kinds d hd a had

section Constructing

variable (h : p.Compiled source options) {c : ClassDescription} (hc : c ∈ p.registry.classes)
  {n n' : Nursery} {i : Instance}

include h hc

theorem construct_primed (depth : Nat) {own : String}
    (hi : p.construct depth n { className := own } c.name = .ok (n', i)) :
    i.Primed (p.registry.allAttributes c.name) := by
  have hp := h.toPlanned
  -- the plans of ancestors have steps for attributes of the class only
  refine construct_keeps
    (N := fun name => p.registry.allAttributes name ⊆ p.registry.allAttributes c.name)
    (fun name plan act hsub hplan hact hop => ?_)
    (fun name plan act i j hsub hplan hact hij hi => ?_) depth (List.Subset.refl _) hi
    (.blank _ own)
  · obtain ⟨d, hd, rfl, hf⟩ := hp.class_of_plan name plan hplan
    obtain ⟨hpar, hparent⟩ := hf.init_super hact hop
    intro a ha
    apply hsub
    rw [hp.allAttributes_eq hd, Plan.inherited, if_pos hpar]
    exact List.mem_append_left _ (hparent ▸ ha)
  · refine hi.step (fun a ha q hq => hp.canonical hc ha hq) (fun hlit => ?_) hij
    obtain ⟨a, ha, hattr⟩ := h.init_literal hplan hact hlit
    exact ⟨a, hsub ha, hattr⟩

theorem construct_types (depth : Nat) {i₀ : Instance}
    (hi : p.construct depth n i₀ c.name = .ok (n', i)) {a : Attribute}
    (ha : a ∈ p.registry.allAttributes c.name) {q : Primitive} (hq : a.kind = some (.primitive q)) :
    (i.types.get? a.name).isSome = true := by
  refine construct_brings (P := fun i => (i.types.get? a.name).isSome = true) h.toPlanned
    (fun act i j hij hi => ?_) (fun overrides i j hij => ?_) depth hc ha hi
  · cases hij with
    | word _ _ =>
      by_cases hn : a.name = act.attr
      · simp [Table.get?_set, hn]
      · simpa [Table.get?_set, hn] using hi
    | _ => exact hi
  · have hop : (Plan.initAction overrides a).op = .initValue ∧
        (Plan.initAction overrides a).attr = a.name := by simp [Plan.initAction, hq]
    cases hij with
    | word _ _ => simp [Table.get?_set, hop.2]
    | object hop' _ | array hop' | objects hop' _ | words hop' _ | list hop' _ =>
      rw [hop.1] at hop'
      cases hop'

theorem construct_words (hno : p.registry.NoRedeclaration) (depth : Nat) {own : String}
    (hi : p.construct depth n { className := own } c.name = .ok (n', i)) :
    ∀ a ∈ p.registry.allAttributes c.name, i.Fits a ∧
      ∀ q, a.kind = some (.primitive q) → i.types.get? a.name = some q.type := by
  have hp := h.toPlanned
  have hprimed := construct_primed h hc depth hi
  intro a ha
  have hword : ∀ q, a.kind = some (.primitive q) →
      q.type.Admits (i.uint a.name) ∧ i.types.get? a.name = some q.type := by
    intro q hq
    obtain ⟨t, ht⟩ := Option.isSome_iff_exists.mp (construct_types h hc depth hi ha hq)
    obtain ⟨hadmits, b, hb, hbn, q', hq', rfl⟩ := hprimed.word a.name t ht
    obtain rfl : b = a :=
      List.inj_on_of_nodup_map (hno.names_nodup hp.rooted hp.consistent c hc) hb ha hbn
    obtain rfl : q' = q := by simpa [hq'] using hq
    exact ⟨hadmits, ht⟩
  refine ⟨?_, fun q hq => (hword q hq).2⟩
  unfold Instance.Fits
  split
  · next q hq => exact (hword q hq).1
  · intro _ w hw
    rw [hprimed.words] at hw
    cases hw
  · trivial

end Constructing

section Making

variable (h : p.Compiled source options) (hno : p.registry.NoRedeclaration)

include h hno

theorem build_words {name : String} {objects : Array Instance} {ref : Nat}
    (hb : p.build 0 name = .ok (objects, ref)) {o : Instance} (ho : objects[ref]? = some o) :
    ∀ a ∈ p.registry.allAttributes name, o.Fits a ∧
      ∀ q, a.kind = some (.primitive q) → o.types.get? a.name = some q.type := by
  have hp := h.toPlanned
  obtain ⟨c, hc, rfl⟩ := (Ready.of_build hb).class hp
  obtain ⟨n, i, hi, hlast⟩ := build_object hp hb
  obtain rfl : i = o := Option.some.inj (hlast.symm.trans ho)
  exact construct_words h hc hno _ hi

theorem Born.words {name : String} {z : Nat} (hb : p.Born s name z) {i : Instance}
    (hi : s.get? z = some i) : ∀ a ∈ p.registry.allAttributes i.className, i.Fits a := by
  have hp := h.toPlanned
  have hcls := hb.class? hp
  obtain ⟨objects, ref, d, hbuild, rfl, hget⟩ := hb
  obtain ⟨-, o, -, hoo⟩ := build_object hp hbuild
  -- references may have moved, words have not
  obtain rfl : i = o.shift d := Option.some.inj (hi.symm.trans (hget ref o hoo))
  obtain rfl : (o.shift d).className = name := by simpa [Store.class?, hi] using hcls
  intro a ha
  exact (build_words h hno hbuild hoo a ha).1

theorem WordsFit.append (hfit : p.WordsFit s) {name : String} {objects : Array Instance}
    {ref : Nat} (hb : p.build s.size name = .ok (objects, ref)) :
    p.WordsFit (s.append objects) := by
  intro x i hi
  by_cases hx : x < s.size
  · rw [Store.get?_append_left hx] at hi
    exact hfit x i hi
  · obtain ⟨-, -, hbirth⟩ := build_bears hb
    obtain ⟨own, hborn⟩ := hbirth x (Nat.not_lt.mp hx) (Store.get?_lt hi)
    exact hborn.words h hno hi

theorem run_declared (ops : List Operation) {x : Nat} {i : Instance}
    (hi : (p.run ops).get? x = some i) {a : Attribute}
    (ha : a ∈ p.registry.allAttributes i.className) {q : Primitive}
    (hq : a.kind = some (.primitive q)) : i.types.get? a.name = some q.type := by
  obtain ⟨objects, ref, o, hb, ho, htypes⟩ := run_typed h.toPlanned ops x i hi
  rw [htypes]
  exact (build_words h hno hb ho a ha).2 q hq

theorem run_declared_eq (ops : List Operation) {x : Nat} {i : Instance}
    (hi : (p.run ops).get? x = some i) {a : Attribute}
    (ha : a ∈ p.registry.allAttributes i.className) {q : Primitive}
    (hq : a.kind = some (.primitive q)) {t : TypeName} (ht : i.types.get? a.name = some t) :
    t = q.type :=
  Option.some.inj (ht.symm.trans (run_declared h hno ops hi ha hq))

end Making

theorem WordsFit.set_iff (hfit : p.WordsFit s) {x : Nat} {i j : Instance} (hi : s.get? x = some i)
    (hc : j.className = i.className) :
    p.WordsFit (s.set x j) ↔ ∀ a ∈ p.registry.allAttributes i.className, j.Fits a := by
  constructor
  · intro h
    have hj : (s.set x j).get? x = some j := by simp [Store.get?_set, hi]
    rw [← hc]
    exact h x j hj
  · intro h y k hk
    rw [Store.get?_set] at hk
    by_cases hy : y = x
    · subst hy
      rw [if_pos rfl, hi] at hk
      cases hk
      rw [hc]
      exact h
    · rw [if_neg hy] at hk
      exact hfit y k hk

theorem WordsFit.modify (hfit : p.WordsFit s) {x : Nat} {i : Instance} (hi : s.get? x = some i)
    {change : Instance → Instance} (hc : (change i).className = i.className)
    (hchange : ∀ a ∈ p.registry.allAttributes i.className, i.Fits a → (change i).Fits a) :
    p.WordsFit (s.modify x change) := by
  rw [Store.modify, hi]
  exact (hfit.set_iff hi hc).mpr fun a ha => hchange a ha (hfit x i hi a ha)

section Replacing

variable (hfit : p.WordsFit s) {x : Nat} {i : Instance} (hi : s.get? x = some i)
  (hnames : ((p.registry.allAttributes i.className).map (·.name)).Nodup) {a : Attribute}
  (ha : a ∈ p.registry.allAttributes i.className)

include hfit hi hnames ha

theorem WordsFit.setPrim {q : Primitive} (hk : a.kind = some (.primitive q)) {w : Word}
    (hw : q.type.Admits w) : p.WordsFit (s.modify x (·.setPrim a.name w)) := by
  refine hfit.modify hi rfl fun b hb hbi => hbi.setPrim fun hn q' hq' => ?_
  obtain rfl := List.inj_on_of_nodup_map hnames hb ha hn
  obtain rfl : q = q' := by simpa [hk] using hq'
  exact hw

theorem WordsFit.setWords {field : String} {e : Element}
    (hk : a.kind = some (.dynamicList field e)) {ws : List Word} (hws : ∀ w ∈ ws, e.type.Admits w) :
    p.WordsFit (s.modify x fun i => { i with primLists := i.primLists.set a.name ws }) := by
  refine hfit.modify hi rfl fun b hb hbi => hbi.setWords fun hn field' e' hk' _ => ?_
  obtain rfl := List.inj_on_of_nodup_map hnames hb ha hn
  obtain ⟨rfl, rfl⟩ : field = field' ∧ e = e' := by simpa [hk] using hk'
  exact hws

end Replacing

/-- A computation takes small steps on the store, and words that fit still fit after it, whether it
failed or not. -/
structure KeepsFit (p : Program) {α : Type} (c : Decode α) (d : Decoding) : Prop where
  walks : p.Walks anyField c d
  fits : p.WordsFit d.store → p.WordsFit (after c d).store

theorem KeepsFit.forM {β : Type} {step : β → Decode Unit} (Inv : Store → Prop)
    (hinv : ∀ s t, Inv s → p.Steps anyField s t → Inv t) (l : List β)
    (hstep : ∀ b ∈ l, ∀ d : Decoding, Inv d.store → p.KeepsFit (step b) d) (d : Decoding)
    (hd : Inv d.store) : p.KeepsFit (l.forM step) d := by
  refine ⟨.forM Inv hinv l (fun b hb d h => (hstep b hb d h).walks) d hd, fun hfit => ?_⟩
  induction l generalizing d with
  | nil => exact hfit
  | cons b l ih =>
    obtain ⟨hwalk, hkeep⟩ := hstep b List.mem_cons_self d hd
    have hnext := hkeep hfit
    unfold Walks at hwalk
    unfold after at hwalk hnext ⊢
    rw [show (b :: l).forM step = (step b >>= fun _ => l.forM step) from rfl, bind_apply]
    cases hb : step b d with
    | error e d' => simpa only [hb] using hnext
    | ok u d' =>
      simp only [hb] at hwalk hnext ⊢
      exact ih (fun c hc => hstep c (List.mem_cons_of_mem _ hc)) d' (hinv _ _ hd hwalk) hnext

section Filling

variable {below : Nat → String → Decode Unit} {a : Attribute} {x : Nat} {d : Decoding}

theorem visit_keepsFit (hbelow : ∀ y name d, p.Scope anyField d.store y (p.registry.serialised name) →
      p.KeepsFit (below y name) d) {refs : List Nat} (hs : p.Opened anyField d.store x a refs)
    {y : Option Nat} (hy : ∀ z, y = some z → z ∈ refs) : p.KeepsFit (visit below y) d := by
  refine ⟨visit_walks (fun y name d h => (hbelow y name d h).walks) hs hy, fun hfit => ?_⟩
  cases y with
  | none => exact hfit
  | some z =>
    have hb := hbelow z
    unfold after visit
    cases hz : d.store.get? z with
    | none => simpa only [hz] using hfit
    | some obj =>
      simp only [hz]
      exact (hb _ d (hs.object (hy z rfl) hz)).fits hfit

variable (h : p.Compiled source options) (hno : p.registry.NoRedeclaration)

include h hno

theorem elements_fits
    (hbelow : ∀ y name d, p.Scope anyField d.store y (p.registry.serialised name) →
      p.KeepsFit (below y name) d) {name : String} {n : Nat} {d : Decoding} (hs : p.Sound d.store)
    (hfit : p.WordsFit d.store) {refs : List Nat} {error : Option MachineError} {d' : Decoding}
    (hel : elements (p.make name) (below · name) n d = .ok (refs, error) d') :
    p.WordsFit d'.store := by
  induction n generalizing d refs with
  | zero =>
    cases hel
    exact hfit
  | succ n ih =>
    simp only [elements, bind_apply, outcome_apply, make] at hel
    cases hb : p.build d.store.size name with
    | error e =>
      simp only [hb] at hel
      cases hel
      exact hfit
    | ok made =>
      obtain ⟨objects, ref⟩ := made
      have hscope : p.Scope anyField (d.store.append objects) ref (p.registry.serialised name) :=
        .element h.toPlanned hs (fun _ _ _ => trivial) hb
      obtain ⟨hwalk, hkeep⟩ := hbelow ref name { d with store := d.store.append objects } hscope
      have hfill := hkeep (hfit.append h hno hb)
      unfold Walks at hwalk
      unfold after at hwalk hfill
      simp only [hb, bind_apply, outcome_apply] at hel
      cases hf : below ref name { d with store := d.store.append objects } with
      | error e d₁ =>
        -- an element that failed stays in the store with what was read of it
        simp only [hf] at hel hfill
        cases hel
        exact hfill
      | ok u d₁ =>
        simp only [hf] at hel hfill hwalk
        obtain ⟨rest, e, d₂, hrest, -, -⟩ := elements_walks h.toPlanned
          (fun y name d hd => (hbelow y name d hd).walks) name n d₁
          (hwalk.sound h.toPlanned hscope.sound) (fun _ _ _ => trivial)
        simp only [hrest, bind_apply] at hel
        cases hel
        exact ih (hwalk.sound h.toPlanned hscope.sound) hfill hrest

theorem decodeAction_keepsFit
    (hbelow : ∀ y name d, p.Scope anyField d.store y (p.registry.serialised name) →
      p.KeepsFit (below y name) d) (hk : a.kind ≠ none) {i : Instance}
    (hs : p.Scope anyField d.store x [a]) (hi : d.store.get? x = some i) :
    p.KeepsFit (p.decodeAction below x i (Plan.wire a).unmarshal) d := by
  have hp := h.toPlanned
  have hwalks := fun y name d hd => (hbelow y name d hd).walks
  refine ⟨decodeAction_walks hp hwalks hk hs hi, fun hfit => ?_⟩
  have hdeclared : a ∈ p.registry.allAttributes i.className := by
    obtain ⟨j, hj, ha⟩ := hs.declared
    obtain rfl : i = j := Option.some.inj (hi.symm.trans hj)
    exact ha a List.mem_cons_self
  have hnames := hs.sound.names_nodup hp hno hi
  cases Attribute.form hk with
  | word q hk =>
    have hst := scalar_store q.type d
    unfold after at *
    rw [decodeAction_word p below x i d hk]
    cases hsc : scalar q.type d with
    | ok w d' =>
      simp only [hsc] at hst ⊢
      rw [hst]
      exact hfit.setPrim hi hnames hdeclared hk (scalar_admits hsc)
    | error e d' =>
      simp only [hsc] at hst ⊢
      rw [hst]
      exact hfit.setPrim hi hnames hdeclared hk q.type.admits_zero
  | object name hk =>
    have hv : p.KeepsFit (visit below (i.object? a.name)) d :=
      visit_keepsFit hbelow ⟨hs, i, hi, rfl⟩ fun z hz => by simp [Instance.inside, hk, hz]
    have hfits := hv.fits hfit
    unfold after at *
    rwa [decodeAction_object p below x i d hk]
  | array n e hk he =>
    obtain ⟨ws, error, d', hsc, hst, -⟩ := scalars_apply e.type n.toNat d
    have heq := decodeAction_array p below x i d hk he hsc
    by_cases hb : (i.array a.name).length < ws.length
    · rw [if_pos hb] at heq
      unfold after
      rw [heq, hst]
      exact hfit
    · rw [if_neg hb] at heq
      rw [after_of_failWith heq]
      split
      · rwa [hst]
      · rw [hst]
        exact hfit.modify hi rfl fun b _ hbi => hbi
  | objects n e hk he =>
    have hv : p.KeepsFit ((i.objectArray a.name).forM fun y => visit below (some y)) d := by
      refine KeepsFit.forM (fun s => p.Opened anyField s x a (i.objectArray a.name))
        (fun s t h ht => h.steps hp ht) _ (fun y hy d hd => visit_keepsFit hbelow hd fun z hz => ?_) d
        ⟨hs, i, hi, by simp [Instance.inside, hk, he]⟩
      cases hz
      exact hy
    have hfits := hv.fits hfit
    unfold after at *
    rwa [decodeAction_objects p below x i d hk he]
  | words field e hk he =>
    by_cases hc : maxListCount < (i.uint field).toNat
    · unfold after
      rw [decodeAction_tooMany p below x i d hk hc]
      exact hfit
    · obtain ⟨ws, error, d', hsc, hst, -⟩ := scalars_apply e.type (i.uint field).toNat d
      rw [after_of_failWith (decodeAction_words p below x i d hk he (Nat.not_lt.mp hc) hsc), hst]
      exact hfit.setWords hi hnames hdeclared hk (scalars_admits hsc)
  | list field e hk he =>
    by_cases hc : maxListCount < (i.uint field).toNat
    · unfold after
      rw [decodeAction_tooMany p below x i d hk hc]
      exact hfit
    · obtain ⟨refs, error, d', hel, hsteps, -⟩ := elements_walks hp hwalks e.className
        (i.uint field).toNat d hs.sound hs.new
      rw [after_of_failWith (decodeAction_list p below x i d hk he (Nat.not_lt.mp hc) hel)]
      obtain ⟨j, hj, -⟩ := hsteps.frame.object x i hi
      exact (elements_fits h hno hbelow hs.sound hfit hel).modify hj rfl fun b _ hbi => hbi

theorem decodeInto_keepsFit (depth x : Nat) (name : String) (d : Decoding)
    (hs : p.Scope anyField d.store x (p.registry.serialised name)) :
    p.KeepsFit (p.decodeInto depth x name) d := by
  have hp := h.toPlanned
  induction depth generalizing x name d with
  | zero => exact ⟨.refl, fun hfit => hfit⟩
  | succ depth ih =>
    rw [decodeInto_succ]
    cases hplan : p.plan? name with
    | none => exact ⟨.refl, fun hfit => hfit⟩
    | some plan =>
      obtain ⟨c, hc, rfl, hf⟩ := hp.class_of_plan name plan hplan
      refine KeepsFit.forM (fun s => p.Scope anyField s x (p.registry.serialised c.name))
        (fun s t h ht => h.steps hp ht) _ (fun act hact d hd => ?_) d hs
      have hact' : ∀ i, d.store.get? x = some i →
          p.KeepsFit (p.decodeAction (p.decodeInto depth) x i act) d := by
        intro i hi
        rcases hf.unmarshal_step hact with ⟨hpar, rfl⟩ | ⟨a, ha, rfl⟩
        · exact ih x c.parent d (hd.sub (hp.serialised_parent hc hpar))
        · exact decodeAction_keepsFit h hno ih (hp.kind_ne_none hc (List.mem_filter.mp ha).1)
            (hd.sub (by simpa using hp.serialised_own hc ha)) hi
      refine ⟨decodeStep_walks fun i hi => (hact' i hi).walks, fun hfit => ?_⟩
      unfold after decodeStep
      cases hi : d.store.get? x with
      | none => exact hfit
      | some i =>
        have hh := (hact' i hi).fits hfit
        unfold after at hh
        simp only
        cases hd' : p.decodeAction (p.decodeInto depth) x i act d <;> simpa only [hd'] using hh

theorem unmarshal_fits {s : Store} (hs : p.Sound s) (hfit : p.WordsFit s) (ref : Nat)
    (bytes : List UInt8) : p.WordsFit (p.unmarshal s ref bytes).1 := by
  unfold unmarshal
  cases hi : s.get? ref with
  | none => exact hfit
  | some i =>
    have hd := (decodeInto_keepsFit h hno (p.decodeDepth s bytes) ref i.className
      { store := s, rest := bytes }
      ⟨hs, ⟨i, hi, serialised_sub _ _⟩, fun _ _ _ => trivial, fun _ _ _ => trivial⟩).fits hfit
    unfold after at hd
    simp only
    cases hres : p.decodeInto (p.decodeDepth s bytes) ref i.className
        { store := s, rest := bytes } <;> simpa only [hres] using hd

end Filling

end Program

/-- What an operation hands over as it is fits in the field or the list that takes it. -/
def Operation.Fitting (p : Program) (s : Store) : Operation → Prop
  | .setFloat ref field bits => ∀ i, s.get? ref = some i →
      ∀ a ∈ p.registry.allAttributes i.className, a.name = field →
      ∀ q, a.kind = some (.primitive q) → q.type ≠ Scalar.float32.name →
      q.type.Admits (BitVec.ofNat 64 bits)
  | .appendUint ref field w => ∀ i, s.get? ref = some i →
      ∀ a ∈ p.registry.allAttributes i.className, a.name = field →
      ∀ count e, a.kind = some (.dynamicList count e) → e.isObject = false → e.type.Admits w
  | _ => True

namespace Program

variable {p : Program} {source : Registry} {options : PlanOptions} {s : Store}

theorem new_fits (h : p.Compiled source options) (hno : p.registry.NoRedeclaration)
    (hfit : p.WordsFit s) {name : String} :
    p.WordsFit (((p.new s name).toOption.map (·.1)).getD s) := by
  cases hnew : p.new s name with
  | error e => exact hfit
  | ok result =>
    obtain ⟨objects, hb, ht⟩ := new_eq_ok hnew
    simp only [Except.toOption, Option.map_some, Option.getD_some, ht]
    exact hfit.append h hno hb

theorem decode_fits (h : p.Compiled source options) (hno : p.registry.NoRedeclaration)
    (hs : p.Sound s) (hfit : p.WordsFit s) {name : String} {bytes : List UInt8} :
    p.WordsFit (((p.decode s name bytes).toOption.map (·.1)).getD s) := by
  unfold decode
  cases hnew : p.new s name with
  | error e => exact hfit
  | ok result =>
    obtain ⟨t, ref⟩ := result
    obtain ⟨objects, hb, rfl⟩ := new_eq_ok hnew
    have hgrown : p.Sound (s.append objects) := (build_grown h.toPlanned hs hb).1.sound
    have hread := unmarshal_fits h hno hgrown (hfit.append h hno hb) ref bytes
    simp only [bind, Except.bind]
    rcases hun : p.unmarshal (s.append objects) ref bytes with ⟨u, n, _ | e⟩
    · rw [hun] at hread
      exact hread
    · exact hfit

theorem WordsFit.update_iff (hfit : p.WordsFit s) {x : Nat} {change : Instance → Option Instance}
    (hc : ∀ i j, s.get? x = some i → change i = some j → ∃ name, i.Change p.registry s name j) :
    p.WordsFit (s.update x change) ↔ ∀ i j, s.get? x = some i → change i = some j →
      ∀ a ∈ p.registry.allAttributes i.className, j.Fits a := by
  unfold Store.update
  cases hi : s.get? x with
  | none => simpa using hfit
  | some i =>
    cases hj : change i with
    | none =>
      simp only [Option.bind_some, hj]
      refine iff_of_true hfit fun k j hk hkj => ?_
      cases hk
      simp [hj] at hkj
    | some j =>
      obtain ⟨name, hchange⟩ := hc i j hi hj
      simp only [Option.bind_some, hj]
      rw [hfit.set_iff hi hchange.kept.className]
      constructor
      · intro h k l hk hl
        cases hk
        obtain rfl : j = l := Option.some.inj (hj.symm.trans hl)
        exact h
      · intro h
        exact h i j rfl hj

section Performing

variable (h : p.Compiled source options) (hno : p.registry.NoRedeclaration) (ops : List Operation)
  (hfit : p.WordsFit (p.run ops))

include h hno hfit

theorem setUint_fits {x : Nat} {i j : Instance} (hi : (p.run ops).get? x = some i)
    {field : String} {w : Word} (hj : (i.setUint field w).toOption = some j) :
    ∀ a ∈ p.registry.allAttributes i.className, j.Fits a := by
  have hp := h.toPlanned
  intro a ha
  obtain ⟨t, ht, rfl⟩ := setUint_eq_some hj
  refine (hfit x i hi a ha).setPrim fun hn q hq => ?_
  obtain rfl := run_declared_eq h hno ops hi ha hq (hn ▸ ht)
  obtain ⟨c, hc, hcn⟩ := ((run_sound hp ops).object x i hi).ready.class hp
  exact TypeName.admits_truncate (hp.canonical hc (hcn ▸ ha) hq) w

theorem setFloat_fits_iff {x : Nat} {field : String} {bits : Nat} :
    p.WordsFit (p.run (ops ++ [.setFloat x field bits])) ↔
      (Operation.setFloat x field bits).Fitting p (p.run ops) := by
  rw [run_concat, perform, hfit.update_iff fun _ _ _ hj => setFloat_change hj]
  constructor
  · intro hall i hi a ha hn q hq hne
    have ht := run_declared h hno ops hi ha hq
    rw [hn] at ht
    have hj : (i.setFloat field bits).toOption =
        some (i.setPrim field (BitVec.ofNat 64 bits)) := by
      simp [Instance.setFloat, ht, hne, Except.toOption]
    have hfits := hall i _ hi hj a ha
    simpa [Instance.Fits, hq, Instance.uint, Instance.setPrim, Table.get?_set, hn] using hfits
  · intro hop i j hi hj a ha
    obtain ⟨t, ht, rfl⟩ := setFloat_eq_some hj
    refine (hfit x i hi a ha).setPrim fun hn q hq => ?_
    obtain rfl := run_declared_eq h hno ops hi ha hq (hn ▸ ht)
    by_cases hnarrow : q.type = Scalar.float32.name
    · rw [if_pos hnarrow]
      exact TypeName.admits_narrowed hnarrow bits
    · rw [if_neg hnarrow]
      exact hop i hi a ha hn q hq hnarrow

theorem appendUint_fits_iff {x : Nat} {field : String} {w : Word} :
    p.WordsFit (p.run (ops ++ [.appendUint x field w])) ↔
      (Operation.appendUint x field w).Fitting p (p.run ops) := by
  have hp := h.toPlanned
  have hs := run_sound hp ops
  rw [run_concat, perform, hfit.update_iff fun _ _ hi hj => appendUint_change hs hi hj]
  constructor
  · intro hall i hi a ha hn count e hk he
    -- the object has the list that is declared for it
    have hholds := hs.holds hp hno hi ha
    simp only [Instance.Holds, hk, he, if_neg Bool.false_ne_true, hn] at hholds
    obtain ⟨ws, hws⟩ := Option.isSome_iff_exists.mp hholds
    have hj : (i.appendUint field w).toOption =
        some { i with primLists := i.primLists.set field (ws ++ [w]) } := by
      simp [Instance.appendUint, hws, Except.toOption]
    have hfits := hall i _ hi hj a ha
    simp only [Instance.Fits, hk, Instance.primList, Table.get?_set, hn, if_true,
      Option.getD_some] at hfits
    exact hfits he w (by simp)
  · intro hop i j hi hj a ha
    obtain ⟨ws, hws, rfl⟩ := appendUint_eq_some hj
    have hold := hfit x i hi a ha
    refine hold.setWords fun hn count e hk he v hv => ?_
    rcases List.mem_append.mp hv with hv | hv
    · simp only [Instance.Fits, hk, Instance.primList, hn, hws, Option.getD_some] at hold
      exact hold he v hv
    · rw [List.mem_singleton.mp hv]
      exact hop i hi a ha hn count e hk he

theorem perform_fits_iff (op : Operation) :
    p.WordsFit (p.run (ops ++ [op])) ↔ op.Fitting p (p.run ops) := by
  have hs := run_sound h.toPlanned ops
  cases op with
  | setFloat ref field bits => exact setFloat_fits_iff h hno ops hfit
  | appendUint ref field w => exact appendUint_fits_iff h hno ops hfit
  | new className => exact iff_of_true (run_concat p ops _ ▸ new_fits h hno hfit) trivial
  | decode className bytes =>
    exact iff_of_true (run_concat p ops _ ▸ decode_fits h hno hs hfit) trivial
  | unmarshal ref bytes =>
    exact iff_of_true (run_concat p ops _ ▸ unmarshal_fits h hno hs hfit ref bytes) trivial
  | setUint ref field value =>
    refine iff_of_true ?_ trivial
    rw [run_concat, perform, hfit.update_iff fun _ _ _ hj => setUint_change hj]
    exact fun i j hi hj => setUint_fits h hno ops hfit hi hj
  | setBits ref name value =>
    refine iff_of_true ?_ trivial
    rw [run_concat, perform, hfit.update_iff fun _ _ _ hj => setBits_change hj]
    intro i j hi hj
    obtain ⟨field, w, hw⟩ := setBits_eq_some hj
    exact setUint_fits h hno ops hfit hi hw
  | setArray ref field index value =>
    refine iff_of_true ?_ trivial
    rw [run_concat, perform, hfit.update_iff fun _ _ _ hj => setArray_change hj]
    intro i j hi hj
    obtain ⟨-, rfl⟩ := setArray?_eq_some hj
    exact hfit ref i hi
  | append ref field elem =>
    refine iff_of_true ?_ trivial
    rw [run_concat, perform]
    by_cases he : elem < (p.run ops).size
    · rw [if_pos he, hfit.update_iff fun _ _ hi hj => append_change hs he hi hj]
      intro i j hi hj
      obtain ⟨refs, -, rfl⟩ := append_eq_some hj
      exact hfit ref i hi
    · rwa [if_neg he]

end Performing

/-- At every point of a history all words fit in their fields and lists exactly if every operation of
it was given what fits. Only floats for fields that are no 32-bit floats and elements of scalar lists
can fail to. -/
theorem run_fits_iff (h : p.Compiled source options) (hno : p.registry.NoRedeclaration)
    (ops : List Operation) : (∀ pre, pre <+: ops → p.WordsFit (p.run pre)) ↔
      ∀ pre op, pre ++ [op] <+: ops → op.Fitting p (p.run pre) := by
  constructor
  · intro hall pre op hpre
    have hbefore : pre <+: ops := (List.prefix_append pre [op]).trans hpre
    exact (perform_fits_iff h hno pre (hall pre hbefore) op).mp (hall _ hpre)
  · intro hop pre
    -- on the length of the history, as the last operation needs the words before it to fit
    induction pre using List.reverseRecOn with
    | nil => exact fun _ x i hi => by simp [run, Store.get?] at hi
    | append_singleton pre op ih =>
      intro hpre
      have hbefore : pre <+: ops := (List.prefix_append pre [op]).trans hpre
      exact (perform_fits_iff h hno pre (ih hbefore) op).mpr (hop pre op hpre)

end Program

namespace Gauge

def level : Attribute := { name := "level", kind := some (.primitive { type := "uint8" }) }

def marks : Attribute := { name := "marks", kind := some (.dynamicList "count" { type := "uint8" }) }

def source : Registry := .gather [
  { name := "Gauge", attributes := [
      level,
      { name := "rate", kind := some (.primitive { type := "float32", default := "0.5" }) },
      { name := "count", kind := some (.primitive { type := "uint8" }) },
      marks] }]

def options : PlanOptions := { primitiveLists := true }

def program : Program := (Program.compile? source options).getD ⟨{}, []⟩

def plain : List Operation := [
  .new "Gauge", .setUint 0 "level" 300, .unmarshal 0 [7, 63], .decode "Gauge" [1, 0, 0, 0, 0, 1, 9]]

def one : Nat := 0x3ff0000000000000

theorem program_evaluated : (Program.compile? source options).isSome = true ∧
    program.registry.NoRedeclaration ∧
    ((program.run [.new "Gauge"]).get? 0).map (·.className) = some "Gauge" ∧
    level ∈ program.registry.allAttributes "Gauge" ∧
    marks ∈ program.registry.allAttributes "Gauge" ∧
    ((program.run [.new "Gauge", .setFloat 0 "level" one]).get? 0).map (·.uint "level") =
      some 4607182418800017408 ∧
    ((program.run [.new "Gauge", .appendUint 0 "marks" 256]).get? 0).map (·.primList "marks") =
      some [256] := by
  decide +kernel

theorem program_compiled : program.Compiled source options :=
  Program.compiled_getD (Registry.gather_built _) program_evaluated.1 _

end Gauge

/-- The level and the list of a gauge take more than a byte. -/
theorem gauge_fits :
    (∀ pre, pre <+: Gauge.plain → Gauge.program.WordsFit (Gauge.program.run pre)) ∧
    ((Gauge.program.run [.new "Gauge", .setFloat 0 "level" Gauge.one]).get? 0).map
      (·.uint "level") = some 4607182418800017408 ∧
    (¬ ∀ pre, pre <+: [.new "Gauge", .setFloat 0 "level" Gauge.one] →
      Gauge.program.WordsFit (Gauge.program.run pre)) ∧
    ((Gauge.program.run [.new "Gauge", .appendUint 0 "marks" 256]).get? 0).map
      (·.primList "marks") = some [256] ∧
    ¬ ∀ pre, pre <+: [.new "Gauge", .appendUint 0 "marks" 256] →
      Gauge.program.WordsFit (Gauge.program.run pre) := by
  obtain ⟨-, hno, hclass, hlevel, hmarks, hfloat, hword⟩ := Gauge.program_evaluated
  obtain ⟨i, hi, hcn⟩ := Option.map_eq_some_iff.mp hclass
  have hiff := Program.run_fits_iff Gauge.program_compiled hno
  refine ⟨(hiff _).mpr fun pre op hpre => ?_, hfloat, fun hall => ?_, hword, fun hall => ?_⟩
  · have hop : op ∈ Gauge.plain := hpre.subset (by simp)
    simp only [Gauge.plain, List.mem_cons, List.not_mem_nil, or_false] at hop
    rcases hop with rfl | rfl | rfl | rfl <;> trivial
  · have hfits := (hiff _).mp hall [.new "Gauge"] (.setFloat 0 "level" Gauge.one)
      (List.prefix_refl _)
    exact absurd (hfits i hi Gauge.level (hcn ▸ hlevel) rfl _ rfl (by decide)) (by decide)
  · have hfits := (hiff _).mp hall [.new "Gauge"] (.appendUint 0 "marks" 256) (List.prefix_refl _)
    exact absurd (hfits i hi Gauge.marks (hcn ▸ hmarks) rfl _ _ rfl rfl) (by decide)

end PduCompiler
