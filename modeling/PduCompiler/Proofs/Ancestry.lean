import Mathlib.Data.List.Perm.Subperm
import PduCompiler.Lineage
import PduCompiler.Proofs.Sealing

/-! Chains of parents that end at a class without a parent. Along such a chain a class lies after
its parent in the order of a registry, and its attributes follow those of its parent. -/

namespace PduCompiler

theorem split_append {α : Type*} {a b pre post : List α} {x : α} (h : a ++ b = pre ++ x :: post) :
    (∃ mid, a = pre ++ x :: mid ∧ post = mid ++ b) ∨
      ∃ mid, pre = a ++ mid ∧ b = mid ++ x :: post := by
  rcases List.append_eq_append_iff.mp h with ⟨mid, hpre, hb⟩ | ⟨mid, ha, hx⟩
  · exact .inr ⟨mid, hpre, hb⟩
  · cases mid with
    | nil => exact .inr ⟨[], by simpa using ha.symm, by simpa using hx.symm⟩
    | cons y mid =>
      rw [List.cons_append, List.cons.injEq] at hx
      obtain ⟨rfl, rfl⟩ := hx
      exact .inl ⟨mid, ha, rfl⟩

theorem isRoot_rootName : isRoot rootName = true := by
  have hlower : "root".map Char.toLower = "root" := by
    rw [← String.toList_inj, String.toList_map]
    rfl
  simp [isRoot, hlower, rootName]

theorem ClassDescription.parent_ne_rootName {c : ClassDescription} (h : c.hasParent = true) :
    c.parent ≠ rootName := by
  intro he
  rw [hasParent, he, isRoot_rootName] at h
  cases h

namespace Registry

/-- The ancestors of a class, nearest first, up to one without a parent. -/
inductive Line (r : Registry) : ClassDescription → List ClassDescription → Prop
  | root {c : ClassDescription} (h : c.hasParent = false) : Line r c []
  | child {c q : ClassDescription} {l : List ClassDescription} (h : c.hasParent = true)
      (hq : r.lookup c.parent = some q) (hl : Line r q l) : Line r c (q :: l)

theorem Line.unique {r : Registry} {c : ClassDescription} {l l' : List ClassDescription}
    (h : r.Line c l) (h' : r.Line c l') : l = l' := by
  induction h generalizing l' with
  | root hp =>
    cases h' with
    | root => rfl
    | child hp' => simp [hp] at hp'
  | child hp hq _ ih =>
    cases h' with
    | root hp' => simp [hp] at hp'
    | child _ hq' hl' =>
      cases Option.some.inj (hq.symm.trans hq')
      rw [ih hl']

theorem Line.mem {r : Registry} {c : ClassDescription} {l : List ClassDescription}
    (h : r.Line c l) : ∀ q ∈ l, q ∈ r.classes ∧ ∃ l', r.Line q l' ∧ l'.length < l.length := by
  induction h with
  | root => simp
  | child _ hq hl ih =>
    intro x hx
    rcases List.mem_cons.mp hx with rfl | hx
    · exact ⟨lookup_mem hq, _, hl, by simp⟩
    · obtain ⟨hm, l', hl', hlt⟩ := ih x hx
      exact ⟨hm, l', hl', by simp only [List.length_cons]; omega⟩

theorem Line.nodup {r : Registry} {c : ClassDescription} {l : List ClassDescription}
    (h : r.Line c l) : (c :: l).Nodup := by
  have hself : ∀ {c : ClassDescription} {l : List ClassDescription}, r.Line c l → c ∉ l := by
    intro c l hl hm
    obtain ⟨-, l', hl', hlt⟩ := hl.mem c hm
    rw [hl.unique hl'] at hlt
    exact Nat.lt_irrefl _ hlt
  refine List.nodup_cons.mpr ⟨hself h, ?_⟩
  induction h with
  | root => exact List.nodup_nil
  | child _ _ hl ih => exact List.nodup_cons.mpr ⟨hself hl, ih⟩

theorem Line.length_lt {r : Registry} {c : ClassDescription} {l : List ClassDescription}
    (h : r.Line c l) (hc : c ∈ r.classes) : l.length < r.classes.length := by
  have hsub : c :: l ⊆ r.classes := by
    intro x hx
    rcases List.mem_cons.mp hx with rfl | hx
    · exact hc
    · exact (h.mem x hx).1
  exact (h.nodup.subperm hsub).length_le

theorem ancestorsFrom_line (r : Registry) (fuel : Nat) (seen : List String)
    (c : ClassDescription)
    (h : ((r.ancestorsFrom fuel seen c).getLastD c).hasParent = false) :
    r.Line c (r.ancestorsFrom fuel seen c) := by
  induction fuel generalizing seen c with
  | zero => exact .root (by simpa [ancestorsFrom] using h)
  | succ fuel ih =>
    unfold ancestorsFrom at h ⊢
    by_cases hg : (c.hasParent && !seen.contains c.parent) = true
    · have hp := ((Bool.and_eq_true _ _).mp hg).1
      cases hq : r.lookup c.parent with
      | none => simp [hq, hp] at h
      | some q =>
        simp only [hg, hq, if_true, List.getLastD_cons] at h ⊢
        exact .child hp hq (ih _ _ h)
    · simp only [hg] at h ⊢
      exact .root (by simpa using h)

def Rooted (r : Registry) : Prop := ∀ c ∈ r.classes, r.isRooted c = true

theorem order_eq_ok {r : Registry} {classes : List ClassDescription}
    (h : r.order = .ok classes) :
    r.Rooted ∧ classes = r.descendants r.classes.length rootName := by
  unfold order at h
  cases hf : r.classes.filter (!r.isRooted ·) with
  | nil =>
    simp only [hf, Except.ok.injEq] at h
    exact ⟨fun c hc => by simpa using List.filter_eq_nil_iff.mp hf c hc, h.symm⟩
  | cons c l => simp [hf] at h

theorem Rooted.line {r : Registry} (hr : r.Rooted) (hn : r.names.Nodup) {c : ClassDescription}
    (hc : c ∈ r.classes) : r.Line c (r.ancestors c.name) := by
  have h := hr c hc
  simp only [isRooted, ancestors, lookup_of_mem hn hc, Bool.not_eq_true'] at h ⊢
  exact ancestorsFrom_line r _ _ c h

theorem Rooted.parent {r : Registry} (hr : r.Rooted) (hn : r.names.Nodup)
    {c : ClassDescription} (hc : c ∈ r.classes) (hp : c.hasParent = true) :
    ∃ q ∈ r.classes, r.lookup c.parent = some q ∧
      r.ancestors c.name = q :: r.ancestors c.parent := by
  have hl := hr.line hn hc
  generalize he : r.ancestors c.name = l at hl
  cases hl with
  | root hp' => simp [hp] at hp'
  | @child _ q l _ hq hl =>
    refine ⟨q, lookup_mem hq, hq, ?_⟩
    rw [← lookup_name hq, hl.unique (hr.line hn (lookup_mem hq))]

theorem Rooted.no_parent {r : Registry} (hr : r.Rooted) (hn : r.names.Nodup)
    {c : ClassDescription} (hc : c ∈ r.classes) (hp : c.hasParent = false) :
    r.ancestors c.name = [] := (hr.line hn hc).unique (.root hp)

def level (r : Registry) (name : String) : Nat := (r.ancestors name).length

theorem Rooted.level_lt {r : Registry} (hr : r.Rooted) (hn : r.names.Nodup)
    {c : ClassDescription} (hc : c ∈ r.classes) : r.level c.name < r.classes.length :=
  (hr.line hn hc).length_lt hc

def allAttributes (r : Registry) (name : String) : List Attribute :=
  (r.chain name).reverse.flatMap (·.attributes)

/-- The attributes that take part in the encoding of an object. -/
def serialised (r : Registry) (name : String) : List Attribute :=
  (r.allAttributes name).filter (!·.transient)

theorem Rooted.allAttributes_root {r : Registry} (hr : r.Rooted) (hn : r.names.Nodup)
    {c : ClassDescription} (hc : c ∈ r.classes) (hp : c.hasParent = false) :
    r.allAttributes c.name = c.attributes := by
  simp [allAttributes, chain, lookup_of_mem hn hc, hr.no_parent hn hc hp]

theorem Rooted.allAttributes_child {r : Registry} (hr : r.Rooted) (hn : r.names.Nodup)
    {c : ClassDescription} (hc : c ∈ r.classes) (hp : c.hasParent = true) :
    r.allAttributes c.name = r.allAttributes c.parent ++ c.attributes := by
  obtain ⟨q, -, hq, ha⟩ := hr.parent hn hc hp
  simp [allAttributes, chain, lookup_of_mem hn hc, ha, hq]

/-- A fact holds of every class if it holds of the classes without a parent and passes from a parent
to a child. -/
theorem Rooted.induction {r : Registry} (hr : r.Rooted) (hn : r.names.Nodup)
    {motive : ClassDescription → Prop}
    (root : ∀ c ∈ r.classes, c.hasParent = false → motive c)
    (child : ∀ c ∈ r.classes, ∀ q ∈ r.classes, c.hasParent = true → r.lookup c.parent = some q →
      motive q → motive c) : ∀ c ∈ r.classes, motive c := by
  intro c hc
  have hl := hr.line hn hc
  generalize r.ancestors c.name = l at hl
  induction hl with
  | root hp => exact root _ hc hp
  | child hp hq _ ih => exact child _ hc _ (lookup_mem hq) hp hq (ih (lookup_mem hq))

theorem mem_allAttributes {r : Registry} (hn : r.names.Nodup) {c : ClassDescription}
    (hc : c ∈ r.classes) {a : Attribute} :
    a ∈ r.allAttributes c.name ↔
      (∃ q ∈ r.ancestors c.name, a ∈ q.attributes) ∨ a ∈ c.attributes := by
  simp [allAttributes, chain, lookup_of_mem hn hc]

/-- No class declares an attribute by a name that an ancestor has. -/
def NoRedeclaration (r : Registry) : Prop :=
  ∀ c ∈ r.classes, ∀ q ∈ r.ancestors c.name, ∀ a ∈ c.attributes, ∀ b ∈ q.attributes,
    a.name ≠ b.name

instance (r : Registry) : Decidable r.NoRedeclaration :=
  inferInstanceAs (Decidable (∀ c ∈ r.classes, ∀ q ∈ r.ancestors c.name, ∀ a ∈ c.attributes,
    ∀ b ∈ q.attributes, a.name ≠ b.name))

theorem NoRedeclaration.names_nodup {r : Registry} (h : r.NoRedeclaration) (hr : r.Rooted)
    (hs : r.Consistent) :
    ∀ c ∈ r.classes, ((r.allAttributes c.name).map (·.name)).Nodup := by
  have hn := hs.names_nodup
  refine hr.induction hn (fun c hc hp => ?_) (fun c hc q hq hp hl ih => ?_)
  · rw [hr.allAttributes_root hn hc hp]
    exact hs.attributes_nodup c hc
  · rw [hr.allAttributes_child hn hc hp, ← lookup_name hl, List.map_append]
    refine List.nodup_append.mpr ⟨ih, hs.attributes_nodup c hc, ?_⟩
    intro x hx y hy he
    obtain ⟨b, hb, rfl⟩ := List.mem_map.mp hx
    obtain ⟨a, ha, rfl⟩ := List.mem_map.mp hy
    obtain ⟨q', -, hl', hanc⟩ := hr.parent hn hc hp
    cases Option.some.inj (hl.symm.trans hl')
    rw [← lookup_name hl] at hanc
    rcases (mem_allAttributes hn hq).mp hb with ⟨d, hd, hbd⟩ | hbq
    · exact h c hc d (by simp [hanc, hd]) a ha b hbd he.symm
    · exact h c hc q (by simp [hanc]) a ha b hbq he.symm

theorem mem_children_root {r : Registry} {c : ClassDescription} (hc : c ∈ r.classes)
    (hp : c.hasParent = false) : c ∈ r.children rootName := by
  simp [children, hc, ClassDescription.parentName, hp]

theorem mem_children_parent {r : Registry} {c q : ClassDescription} (hc : c ∈ r.classes)
    (hp : c.hasParent = true) (hq : r.lookup c.parent = some q) : c ∈ r.children q.name := by
  simp [children, hc, ClassDescription.parentName, hp, lookup_name hq]

theorem descendants_child {r : Registry} {c q : ClassDescription} (hc : c ∈ r.children q.name)
    (depth : Nat) (top : String) (hq : q ∈ r.descendants depth top) :
    c ∈ r.descendants (depth + 1) top := by
  induction depth generalizing top with
  | zero => simp [descendants] at hq
  | succ depth ih =>
    obtain ⟨e, he, hqe⟩ := List.mem_flatMap.mp hq
    refine List.mem_flatMap.mpr ⟨e, he, List.mem_cons_of_mem _ ?_⟩
    rcases List.mem_cons.mp hqe with rfl | hqe
    · exact List.mem_flatMap.mpr ⟨c, hc, List.mem_cons_self⟩
    · exact ih _ hqe

theorem Line.mem_descendants {r : Registry} {c : ClassDescription} {l : List ClassDescription}
    (h : r.Line c l) (hc : c ∈ r.classes) :
    ∀ depth, l.length < depth → c ∈ r.descendants depth rootName := by
  induction h with
  | root hp =>
    intro depth hd
    obtain ⟨d, rfl⟩ : ∃ d, depth = d + 1 := ⟨depth - 1, by omega⟩
    exact List.mem_flatMap.mpr ⟨_, mem_children_root hc hp, List.mem_cons_self⟩
  | child hp hq _ ih =>
    intro depth hd
    simp only [List.length_cons] at hd
    obtain ⟨d, rfl⟩ : ∃ d, depth = d + 1 := ⟨depth - 1, by omega⟩
    exact descendants_child (mem_children_parent hc hp hq) d _
      (ih (lookup_mem hq) d (by omega))

theorem mem_order {r : Registry} (hn : r.names.Nodup) {classes : List ClassDescription}
    (h : r.order = .ok classes) {c : ClassDescription} (hc : c ∈ r.classes) : c ∈ classes := by
  obtain ⟨hr, rfl⟩ := order_eq_ok h
  exact (hr.line hn hc).mem_descendants hc _ (hr.level_lt hn hc)

theorem mem_descendants_classes {r : Registry} {c : ClassDescription} (depth : Nat) (top : String)
    (h : c ∈ r.descendants depth top) : c ∈ r.classes := by
  induction depth generalizing top with
  | zero => simp [descendants] at h
  | succ depth ih =>
    obtain ⟨e, he, hce⟩ := List.mem_flatMap.mp h
    rcases List.mem_cons.mp hce with rfl | hce
    · exact (List.mem_filter.mp he).1
    · exact ih _ hce

section Mapped

variable {r : Registry} {f : ClassDescription → ClassDescription}
  (hname : ∀ c, (f c).name = c.name) (hparent : ∀ c, (f c).parent = c.parent) (isSealed : Bool)

include hname

theorem lookup_map (name : String) :
    (Registry.mk (r.classes.map f) isSealed).lookup name = (r.lookup name).map f := by
  simp only [lookup, List.find?_map, Function.comp_def, hname]

include hparent

theorem ancestorsFrom_map (fuel : Nat) (seen : List String) (c : ClassDescription) :
    (Registry.mk (r.classes.map f) isSealed).ancestorsFrom fuel seen (f c) =
      (r.ancestorsFrom fuel seen c).map f := by
  induction fuel generalizing seen c with
  | zero => rfl
  | succ fuel ih =>
    have hpar : (f c).hasParent = c.hasParent := by simp only [ClassDescription.hasParent, hparent]
    simp only [ancestorsFrom, hpar, hparent, lookup_map hname isSealed]
    by_cases hgo : (c.hasParent && !seen.contains c.parent) = true
    · simp only [if_pos hgo]
      cases r.lookup c.parent with
      | none => rfl
      | some d => simp only [Option.map_some, ih, List.map_cons]
    · simp only [if_neg hgo, List.map_nil]

theorem ancestors_map (name : String) :
    (Registry.mk (r.classes.map f) isSealed).ancestors name = (r.ancestors name).map f := by
  simp only [ancestors, lookup_map hname isSealed]
  cases r.lookup name with
  | none => rfl
  | some c => simp [ancestorsFrom_map hname hparent isSealed]

theorem chain_map (name : String) :
    (Registry.mk (r.classes.map f) isSealed).chain name = (r.chain name).map f := by
  rw [chain, chain, lookup_map hname isSealed, ancestors_map hname hparent isSealed]
  cases r.lookup name <;> simp

theorem isRooted_map (c : ClassDescription) :
    (Registry.mk (r.classes.map f) isSealed).isRooted (f c) = r.isRooted c := by
  rw [isRooted, isRooted, ancestors_map hname hparent isSealed, hname, List.getLastD_map,
    ClassDescription.hasParent, ClassDescription.hasParent, hparent]

theorem descendants_map (depth : Nat) (top : String) :
    (Registry.mk (r.classes.map f) isSealed).descendants depth top =
      (r.descendants depth top).map f := by
  induction depth generalizing top with
  | zero => rfl
  | succ depth ih =>
    have hchildren : (Registry.mk (r.classes.map f) isSealed).children top =
        (r.children top).map f := by
      have hup : ∀ c, (f c).parentName = c.parentName := by
        simp [ClassDescription.parentName, ClassDescription.hasParent, hparent]
      simp only [children, List.filter_map, Function.comp_def, hup]
    simp only [descendants, hchildren, List.flatMap_map, List.map_flatMap, List.map_cons, hname, ih]

theorem order_map {classes : List ClassDescription} (h : r.order = .ok classes) :
    (Registry.mk (r.classes.map f) isSealed).order = .ok (classes.map f) := by
  obtain ⟨hr, rfl⟩ := order_eq_ok h
  have hplaced : (r.classes.map f).filter
      (!(Registry.mk (r.classes.map f) isSealed).isRooted ·) = [] := by
    rw [List.filter_map, List.map_eq_nil_iff, List.filter_eq_nil_iff]
    intro c hc
    simp [isRooted_map hname hparent isSealed, hr c hc]
  rw [order, hplaced, descendants_map hname hparent isSealed, List.length_map]

end Mapped

end Registry

end PduCompiler
