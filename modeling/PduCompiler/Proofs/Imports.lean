import PduCompiler.Proofs.Rendering

/-! What the files of classes import in Python. Inheritance and holding have no cycle, so a cycle of
imports goes through a list of objects. Lists that lead back to their class are not refused, and
neither are the imports they bring. -/

namespace PduCompiler

open Relation

namespace Target

variable {names l : List String} {name : String}

theorem mem_addName {other : String} :
    name ∈ addName names other ↔ name ∈ names ∨ name ≠ "" ∧ name = other := by
  unfold addName
  split
  · next h =>
    simp only [Bool.or_eq_true, beq_iff_eq, List.contains_iff_mem] at h
    refine ⟨.inl, ?_⟩
    rintro (hname | ⟨hne, rfl⟩)
    · exact hname
    · exact h.resolve_left hne
  · next h =>
    simp only [Bool.or_eq_true, beq_iff_eq, not_or] at h
    rw [List.mem_append, List.mem_singleton]
    refine or_congr_right ⟨?_, fun hname => hname.2⟩
    rintro rfl
    exact ⟨h.1, rfl⟩

theorem addName_nodup (h : names.Nodup) (other : String) : (addName names other).Nodup := by
  unfold addName
  split
  · exact h
  · next hnew =>
    simp only [Bool.or_eq_true, List.contains_iff_mem, not_or] at hnew
    refine List.nodup_append.mpr ⟨h, List.nodup_singleton _, ?_⟩
    rintro a ha b hb rfl
    exact hnew.2 (List.mem_singleton.mp hb ▸ ha)

theorem foldl_addName (h : names.Nodup) : ∃ added, l.foldl addName names = names ++ added ∧
    (names ++ added).Nodup ∧
      ∀ name, name ∈ names ++ added ↔ name ∈ names ∨ name ≠ "" ∧ name ∈ l := by
  induction l generalizing names with
  | nil => exact ⟨[], by simp [h]⟩
  | cons other l ih =>
    obtain ⟨added, heq, hnodup, hmem⟩ := ih (addName_nodup h other)
    obtain ⟨first, hfirst⟩ : ∃ first, addName names other = names ++ first := by
      unfold addName
      split
      · exact ⟨[], by simp⟩
      · exact ⟨[other], rfl⟩
    refine ⟨first ++ added, ?_, ?_, fun name => ?_⟩
    · rw [List.foldl_cons, heq, hfirst, List.append_assoc]
    · rwa [← List.append_assoc, ← hfirst]
    · rw [← List.append_assoc, ← hfirst, hmem, mem_addName, List.mem_cons, or_assoc, and_or_left]

theorem mem_references {q : ClassPlan} : name ∈ references q ↔ name ≠ "" ∧ name ≠ q.name ∧
    (q.description.hasParent = true ∧ q.description.parent = name ∨
      ∃ act ∈ q.init, name ∈ constructed act) := by
  unfold references
  generalize hparent : (if q.description.hasParent then [q.description.parent] else []) = parent
  obtain ⟨added, heq, hnodup, hmem⟩ :=
    foldl_addName (l := parent ++ q.init.flatMap constructed) (List.nodup_singleton q.name)
  have hown : q.name ∉ added := (List.nodup_cons.mp hnodup).1
  have hadded : name ∈ added ↔ name ≠ q.name ∧ name ∈ [q.name] ++ added := by
    rw [List.singleton_append, List.mem_cons]
    refine ⟨fun h => ⟨?_, .inr h⟩, fun h => h.2.resolve_left h.1⟩
    rintro rfl
    exact hown h
  have hpar : name ∈ parent ↔ q.description.hasParent = true ∧ q.description.parent = name := by
    cases hp : q.description.hasParent <;> simp [← hparent, hp, eq_comm]
  show name ∈ ((parent ++ q.init.flatMap constructed).foldl addName [q.name]).drop 1 ↔ _
  rw [heq, List.singleton_append, List.drop_one, List.tail_cons, hadded, hmem, List.mem_append,
    List.mem_flatMap, hpar, List.mem_singleton]
  constructor
  · rintro ⟨hne, hname | ⟨hempty, hclass⟩⟩
    · exact absurd hname hne
    · exact ⟨hempty, hne, hclass⟩
  · rintro ⟨hempty, hne, hclass⟩
    exact ⟨hne, .inr ⟨hempty, hclass⟩⟩

theorem Python.classFiles_imports {q : ClassPlan} {files : List SourceFile}
    (h : Target.python.classFiles q = .ok files) : ∃ below, files = [⟨q.name ++ ".py",
      unlines (Python.header ++ (references q).map Python.importLine ++ below)⟩] := by
  simp only [classFiles, classFile, bind_eq_ok] at h
  obtain ⟨file, ⟨init, -, marshal, -, unmarshal, -, size, -, hfile⟩, he⟩ := h
  cases he
  cases hf : floatBitField? q with
  | some e =>
    rw [hf] at hfile
    cases hfile
  | none =>
    rw [hf] at hfile
    cases hfile
    simp only [classHeader, List.append_assoc]
    exact ⟨_, rfl⟩

end Target

namespace Registry

variable {r : Registry} {name other : String}

def listed? (a : Attribute) : Option String :=
  match a.kind with
  | some (.dynamicList _ elem) => if elem.isObject then some elem.className else none
  | _ => none

def Lists (r : Registry) (name other : String) : Prop :=
  ∃ c, r.lookup name = some c ∧ ∃ a ∈ c.attributes, listed? a = some other

theorem Lists.mem (hs : r.Consistent) (h : r.Lists name other) : other ∈ r.names := by
  obtain ⟨c, hc, a, ha, hlisted⟩ := h
  have hk := hs.kinds c (lookup_mem hc) a ha
  have hcontains : r.contains other = true := by
    cases Attribute.form hk.ne_none with
    | list field e hq he =>
      simp only [KindSound, hq, ElementSound, he, if_true] at hk
      simp only [listed?, hq, he, if_true, Option.some.injEq] at hlisted
      exact hlisted ▸ hk.1
    | words field e hq he => simp [listed?, hq, he] at hlisted
    | word q hq => simp [listed?, hq] at hlisted
    | object cls hq => simp [listed?, hq] at hlisted
    | array n e hq he => simp [listed?, hq] at hlisted
    | objects n e hq he => simp [listed?, hq] at hlisted
  obtain ⟨d, hd, hdn⟩ := contains_iff.mp hcontains
  exact List.mem_map.mpr ⟨d, hd, hdn⟩

end Registry

theorem Plan.initAction_constructs {r : Registry} {c : ClassDescription} {a : Attribute}
    {overrides : Table String} {name : String} (hk : r.KindSound c a) (hname : name ≠ "") :
    name ∈ Target.constructed (Plan.initAction overrides a) ↔
      Registry.embedded? a = some name ∨ Registry.listed? a = some name := by
  cases Attribute.form hk.ne_none with
  | word q hq => simp [initAction, Target.constructed, Registry.embedded?, Registry.listed?, hq]
  | object cls hq =>
    simp [initAction, Target.constructed, Registry.embedded?, Registry.listed?, hq, eq_comm]
  | array n e hq he =>
    simp [initAction, Target.constructed, Registry.embedded?, Registry.listed?, hq, he]
  | objects n e hq he =>
    simp [initAction, Target.constructed, Registry.embedded?, Registry.listed?, hq, he, eq_comm]
  | words field e hq he =>
    have hnone : e.className = "" := by simpa [Element.isObject] using he
    simp [initAction, Target.constructed, Registry.embedded?, Registry.listed?, hq, he, hnone,
      hname]
  | list field e hq he =>
    simp [initAction, Target.constructed, Registry.embedded?, Registry.listed?, hq, he, eq_comm]

theorem ClassPlan.Follows.mem_references {r : Registry} {q : ClassPlan} {c : ClassDescription}
    (h : q.Follows c) (hk : ∀ a ∈ c.attributes, r.KindSound c a) {name : String} :
    name ∈ Target.references q ↔ name ≠ "" ∧ name ≠ c.name ∧
      (c.hasParent = true ∧ c.parent = name ∨ ∃ a ∈ c.attributes,
        Registry.embedded? a = some name ∨ Registry.listed? a = some name) := by
  obtain ⟨overrides, assigns, hassigns, hinit⟩ := h.init
  rw [Target.mem_references, ClassPlan.name, h.description, hinit]
  refine and_congr_right fun hname => and_congr_right fun _ => or_congr_right ?_
  constructor
  · rintro ⟨act, hact, hmem⟩
    rw [List.mem_append, List.mem_append] at hact
    rcases hact with (hact | hact) | hact
    · unfold Plan.superStep at hact
      split at hact
      · rw [List.mem_singleton.mp hact] at hmem
        simp [Target.constructed] at hmem
      · simp at hact
    · obtain ⟨a, ha, rfl⟩ := List.mem_map.mp hact
      exact ⟨a, ha, (Plan.initAction_constructs (hk a ha) hname).mp hmem⟩
    · simp [Target.constructed, hassigns act hact] at hmem
  · rintro ⟨a, ha, hclass⟩
    have hmem : name ∈ Target.constructed (Plan.initAction overrides a) :=
      (Plan.initAction_constructs (hk a ha) hname).mpr hclass
    refine ⟨_, ?_, hmem⟩
    exact List.mem_append_left _ (List.mem_append_right _ (List.mem_map_of_mem ha))

theorem path_through {α : Type} {R D L : α → α → Prop} (hR : ∀ a b, R a b → D a b ∨ L a b)
    {x y : α} (h : TransGen R x y) :
    TransGen D x y ∨ ∃ a b, ReflTransGen R x a ∧ R a b ∧ L a b ∧ ReflTransGen R b y := by
  induction h with
  | @single y hxy =>
    rcases hR _ _ hxy with hD | hL
    · exact .inl (.single hD)
    · exact .inr ⟨x, y, .refl, hxy, hL, .refl⟩
  | @tail y z hxy hyz ih =>
    rcases ih with hD | ⟨a, b, hxa, hab, hL, hby⟩
    · rcases hR _ _ hyz with hyz' | hL
      · exact .inl (hD.tail hyz')
      · exact .inr ⟨y, z, hxy.to_reflTransGen, hyz, hL, .refl⟩
    · exact .inr ⟨a, b, hxa, hab, hL, hby.tail hyz⟩

namespace Program

variable {p : Program}

def Imports (p : Program) (name other : String) : Prop :=
  ∃ q ∈ p.plans, q.name = name ∧ (∃ files, Target.python.classFiles q = .ok files) ∧
    other ∈ Target.references q

structure Importing (p : Program) : Prop where
  written : ∀ q ∈ p.plans, ∀ files, Target.python.classFiles q = .ok files →
    ∃ below, files = [⟨q.name ++ ".py", Target.unlines
      (Target.Python.header ++ (Target.references q).map Target.Python.importLine ++ below)⟩]
  imports_iff : ∀ name other, p.Imports name other ↔ name ≠ other ∧
    (∃ c, p.registry.lookup name = some c ∧ ∀ a ∈ c.attributes, a.floatBits = []) ∧
    (p.registry.Draws name other ∨ p.registry.Lists name other)
  found : ∀ name other, p.Imports name other → ∃ q ∈ p.plans, q.name = other
  /-- Only lists of objects can lead back to the class that has them. -/
  acyclic_iff : (∀ name, ¬ TransGen p.Imports name name) ↔
    ∀ name other, p.Imports name other → p.registry.Lists name other →
      ¬ ReflTransGen p.Imports other name

theorem Compiled.imports_iff {source : Registry} {options : PlanOptions}
    (h : p.Compiled source options) {name other : String} : p.Imports name other ↔ name ≠ other ∧
      (∃ c, p.registry.lookup name = some c ∧ ∀ a ∈ c.attributes, a.floatBits = []) ∧
      (p.registry.Draws name other ∨ p.registry.Lists name other) := by
  have hp := h.toPlanned
  have hs := hp.consistent
  have hdraws : ∀ {c}, p.registry.lookup name = some c →
      ((p.registry.Draws name other ∨ p.registry.Lists name other) ↔
        c.hasParent = true ∧ c.parent = other ∨ ∃ a ∈ c.attributes,
          Registry.embedded? a = some other ∨ Registry.listed? a = some other) := by
    intro c hc
    simp only [Registry.Draws, Registry.Lists, hc, Option.some.injEq, exists_eq_left']
    constructor
    · rintro ((hpar | ⟨a, ha, hemb⟩) | ⟨a, ha, hlist⟩)
      · exact .inl hpar
      · exact .inr ⟨a, ha, .inl hemb⟩
      · exact .inr ⟨a, ha, .inr hlist⟩
    · rintro (hpar | ⟨a, ha, hemb | hlist⟩)
      · exact .inl (.inl hpar)
      · exact .inl (.inr ⟨a, ha, hemb⟩)
      · exact .inr ⟨a, ha, hlist⟩
  have haccepts : ∀ {q c}, q ∈ p.plans → q.Follows c →
      ((∃ files, Target.python.classFiles q = .ok files) ↔
        ∀ a ∈ c.attributes, a.floatBits = []) := by
    intro q c hq hf
    rw [(Target.Python.judges (h.suitable hq)).ok_iff (h.suitable hq), hf.description]
  constructor
  · rintro ⟨q, hq, rfl, hfiles, hother⟩
    obtain ⟨c, hc, hcq⟩ := h.plan_class hq
    have hf := Registry.plan_follows hcq
    obtain ⟨-, hne, hclass⟩ := (hf.mem_references (hs.kinds c hc)).mp hother
    have hname : q.name = c.name := by rw [ClassPlan.name, hf.description]
    have hlookup := Registry.lookup_of_mem hs.names_nodup hc
    rw [hname] at hdraws ⊢
    exact ⟨hne.symm, ⟨c, hlookup, (haccepts hq hf).mp hfiles⟩, (hdraws hlookup).mpr hclass⟩
  · rintro ⟨hne, ⟨c, hc, hbits⟩, hclass⟩
    have hcm := Registry.lookup_mem hc
    obtain rfl := Registry.lookup_name hc
    obtain ⟨q, hq, hf⟩ := hp.plan c hcm
    have hqm := List.mem_of_find?_eq_some hq
    have hother : other ∈ p.registry.names :=
      hclass.elim (·.mem hs hp.rooted) (·.mem hs)
    have hempty : other ≠ "" := by
      rintro rfl
      obtain ⟨d, hd, hdn⟩ := List.mem_map.mp hother
      have hroot := hs.not_root d hd
      simp [hdn, isRoot] at hroot
    refine ⟨q, hqm, by rw [ClassPlan.name, hf.description], (haccepts hqm hf).mpr hbits, ?_⟩
    exact (hf.mem_references (hs.kinds c hcm)).mpr ⟨hempty, hne.symm, (hdraws hc).mp hclass⟩

theorem compiled_importing {source : Registry} {options : PlanOptions}
    (h : p.Compiled source options) : p.Importing := by
  have hp := h.toPlanned
  have hs := hp.consistent
  have hg := h.built.grounded h.isSealed
  have hfound : ∀ name other, p.Imports name other → other ∈ p.registry.names := by
    intro name other himports
    obtain ⟨-, -, hdraws | hlists⟩ := h.imports_iff.mp himports
    · exact hdraws.mem hs hp.rooted
    · exact hlists.mem hs
  refine ⟨fun q _ files hfiles => Target.Python.classFiles_imports hfiles,
    fun name other => h.imports_iff, ?_, ?_⟩
  · intro name other himports
    obtain ⟨d, hd, rfl⟩ := List.mem_map.mp (hfound name other himports)
    obtain ⟨q, hq, hf⟩ := hp.plan d hd
    exact ⟨q, List.mem_of_find?_eq_some hq, by rw [ClassPlan.name, hf.description]⟩
  · constructor
    · intro hacyclic name other himports _ hback
      exact hacyclic name (TransGen.head' himports hback)
    · intro hlists name hcycle
      have hsplit := path_through (fun a b hab => (h.imports_iff.mp hab).2.2) hcycle
      rcases hsplit with hdraws | ⟨a, b, hna, hab, hl, hbn⟩
      · -- a cycle ends at a class, as every import does
        obtain ⟨e, -, hen⟩ := TransGen.tail'_iff.mp hcycle
        obtain ⟨d, hd, rfl⟩ := List.mem_map.mp (hfound e name hen)
        exact hg.draws_acyclic hs hp.rooted hd hdraws
      · exact hlists a b hab hl (hbn.trans hna)

end Program

namespace Network

def source : Registry := .gather [
  { name := "Node", attributes := [
      { name := "count", kind := some (.primitive { type := "uint8" }) },
      { name := "edges", kind := some (.dynamicList "count" { className := "Edge" }) }] },
  { name := "Edge", attributes := [
      { name := "count", kind := some (.primitive { type := "uint8" }) },
      { name := "ends", kind := some (.dynamicList "count" { className := "Node" }) }] }]

def program : Program := (Program.compile? source {}).getD ⟨{}, []⟩

theorem program_evaluated : (Program.compile? source {}).isSome = true ∧
    ∀ names ∈ [("Node", "Edge"), ("Edge", "Node")],
      ((program.registry.lookup names.1).map fun c =>
        (c.attributes.all (·.floatBits.isEmpty), c.attributes.filterMap Registry.listed?)) =
          some (true, [names.2]) := by
  decide +kernel

end Network

theorem network_importing : Network.program.Imports "Node" "Edge" ∧
    Network.program.Imports "Edge" "Node" ∧
    ¬ ∀ name, ¬ TransGen Network.program.Imports name name := by
  obtain ⟨hsome, hlists⟩ := Network.program_evaluated
  have hcompiled : Network.program.Compiled Network.source {} :=
    Program.compiled_getD (Registry.gather_built _) hsome _
  have himporting := Program.compiled_importing hcompiled
  have hstep : ∀ names ∈ [("Node", "Edge"), ("Edge", "Node")], names.1 ≠ names.2 →
      Network.program.registry.Lists names.1 names.2 ∧
      Network.program.Imports names.1 names.2 := by
    intro names hnames hne
    obtain ⟨c, hc, hlist⟩ := Option.map_eq_some_iff.mp (hlists names hnames)
    obtain ⟨hbits, hlist⟩ := Prod.mk.inj hlist
    have hl : Network.program.registry.Lists names.1 names.2 :=
      ⟨c, hc, List.mem_filterMap.mp (hlist ▸ List.mem_singleton_self names.2)⟩
    refine ⟨hl, (himporting.imports_iff _ _).mpr ⟨hne, ⟨c, hc, ?_⟩, .inr hl⟩⟩
    simpa using hbits
  obtain ⟨hl, hne⟩ := hstep ("Node", "Edge") (by simp) (by decide)
  obtain ⟨-, hen⟩ := hstep ("Edge", "Node") (by simp) (by decide)
  refine ⟨hne, hen, fun hacyclic => ?_⟩
  exact himporting.acyclic_iff.mp hacyclic "Node" "Edge" hne hl (.single hen)

end PduCompiler
