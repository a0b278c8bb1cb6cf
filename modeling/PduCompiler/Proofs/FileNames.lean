import PduCompiler.Proofs.Forest
import PduCompiler.Proofs.Rendering

/-! The names of generated files. In Python and Objective-C they differ unless a class is called
like the file of the whole program. In Go the names of classes are spelt in small letters first,
which only names in camel case survive. -/

namespace PduCompiler

namespace Text

/-- Characters in which every capital begins the name or follows a small letter, and can be had back
from its small letter. A name begins with a capital and has no underscores. -/
def camelFrom (before : Option Char) : List Char → Bool
  | [] => true
  | c :: rest => c != '_' && camelFrom (some c) rest &&
    if isUpper c then (before.isNone || before.any isLower) && toUpper (toLower c) == c
    else before.isSome

def isCamel (s : String) : Bool := camelFrom none s.toList

/-- Takes underscores out again; `start` says whether a word begins. -/
def joinWords (start : Bool) : List Char → List Char
  | [] => []
  | c :: rest =>
    if c = '_' then joinWords true rest
    else (if start then toUpper c else c) :: joinWords false rest

theorem joinWords_snakeFrom {before : Option Char} {l : List Char}
    (h : camelFrom before l = true) : joinWords before.isNone (snakeFrom before l) = l := by
  induction l generalizing before with
  | nil => rfl
  | cons c rest ih =>
    simp only [camelFrom, Bool.and_eq_true, bne_iff_ne] at h
    obtain ⟨⟨hc, hrest⟩, hcase⟩ := h
    have htail : joinWords false (snakeFrom (some c) rest) = rest := ih hrest
    by_cases hu : isUpper c = true
    · simp only [hu, if_true, Bool.and_eq_true, Bool.or_eq_true, beq_iff_eq] at hcase
      obtain ⟨hbefore, hback⟩ := hcase
      have hlow : toLower c ≠ '_' := by
        intro he
        rw [he] at hback
        exact hc hback.symm
      cases before with
      | none => simp [snakeFrom, joinWords, hu, hlow, hback, htail]
      | some b =>
        have hb : isLower b = true := by simpa using hbefore
        simp [snakeFrom, joinWords, hu, hb, hlow, hback, htail]
    · have hsome : before.isNone = false := by
        simpa [hu, Option.isSome_iff_ne_none] using hcase
      simp [snakeFrom, joinWords, hu, hc, hsome, htail]

theorem snakeCase_inj {s t : String} (hs : isCamel s = true) (ht : isCamel t = true)
    (h : snakeCase s = snakeCase t) : s = t := by
  have hl : snakeFrom none s.toList = snakeFrom none t.toList := by
    simpa [snakeCase] using congrArg String.toList h
  have hback : ∀ u : String, isCamel u = true →
      joinWords true (snakeFrom none u.toList) = u.toList := fun u hu => joinWords_snakeFrom hu
  rw [← String.toList_inj, ← hback s hs, ← hback t ht, hl]

end Text

namespace Target

open Text

variable {t : Target} {p : Program} {q : ClassPlan} {files : List SourceFile}

def stem : Target → String → String
  | go _, name => snakeCase name
  | objectiveC, name => name
  | python, name => name

def endings : Target → List String
  | go _ => [".go"]
  | objectiveC => [".h", ".m"]
  | python => [".py"]

def moduleStem : Target → String
  | go _ => "doc"
  | objectiveC => "Pdus"
  | python => "__init__"

def fileNames (t : Target) (p : Program) : List String :=
  (p.plans.flatMap fun q => (t.classFiles q).toOption.getD []).map (·.name) ++
    ((t.moduleFiles p).toOption.getD []).map (·.name)

def accepted (t : Target) (p : Program) : List ClassPlan :=
  p.plans.filter fun q => (t.classFiles q).toOption.isSome

theorem mem_accepted : q ∈ t.accepted p ↔ q ∈ p.plans ∧ ∃ files, t.classFiles q = .ok files := by
  unfold accepted
  rw [List.mem_filter]
  cases h : t.classFiles q <;> simp [Except.toOption]

theorem classFiles_names (h : t.classFiles q = .ok files) :
    files.map (·.name) = t.endings.map (t.stem q.name ++ ·) := by
  cases t with
  | go package =>
    cases ht : Go.classText package q with
    | error e => simp [Go.classFiles_of_error ht] at h
    | ok text =>
      rw [Go.classFiles_of_text ht] at h
      cases hf : GoSource.format? text with
      | none => simp [hf] at h
      | some content =>
        simp only [hf, Except.ok.injEq] at h
        simp [← h, endings, stem]
  | objectiveC =>
    simp only [classFiles, ObjectiveC.classFiles] at h
    cases hf : floatBitField? q with
    | some e =>
      rw [hf] at h
      cases h
    | none =>
      simp only [hf, bind_eq_ok] at h
      obtain ⟨declarations, -, implementation, -, he⟩ := h
      cases he
      rfl
  | python =>
    simp only [classFiles, Python.classFile, bind_eq_ok] at h
    obtain ⟨file, ⟨init, -, marshal, -, unmarshal, -, size, -, hfile⟩, he⟩ := h
    cases he
    cases hf : floatBitField? q with
    | some e =>
      rw [hf] at hfile
      cases hfile
    | none =>
      rw [hf] at hfile
      cases hfile
      rfl

theorem moduleFiles_names (h : t.moduleFiles p = .ok files) :
    ∃ ending ∈ t.endings, files.map (·.name) = [t.moduleStem ++ ending] := by
  cases t with
  | go package =>
    obtain ⟨file, hfile, he⟩ := bind_eq_ok.mp h
    cases he
    unfold Go.moduleFile at hfile
    split at hfile
    · cases hfile
      exact ⟨".go", by simp [endings], rfl⟩
    · cases hfile
  | objectiveC =>
    cases h
    exact ⟨".h", by simp [endings], rfl⟩
  | python =>
    cases h
    exact ⟨".py", by simp [endings], rfl⟩

theorem append_ending_inj {s s' e e' : String} (he : e ∈ t.endings) (he' : e' ∈ t.endings)
    (h : s ++ e = s' ++ e') : s = s' ∧ e = e' := by
  have hlen : e.toList.length = e'.toList.length := by
    cases t <;> simp only [endings, List.mem_cons, List.not_mem_nil, or_false] at he he'
    · rw [he, he']
    · rcases he with rfl | rfl <;> rcases he' with rfl | rfl <;> decide
    · rw [he, he']
  have hl := congrArg String.toList h
  rw [String.toList_append, String.toList_append] at hl
  obtain ⟨hs, he⟩ := List.append_inj' hl hlen
  exact ⟨String.toList_inj.mp hs, String.toList_inj.mp he⟩

theorem fileNames_eq : t.fileNames p =
    ((t.accepted p).flatMap fun q => t.endings.map (t.stem q.name ++ ·)) ++
      ((t.moduleFiles p).toOption.getD []).map (·.name) := by
  unfold fileNames accepted
  congr 1
  induction p.plans with
  | nil => rfl
  | cons q plans ih =>
    cases hq : t.classFiles q with
    | error e => simpa [hq, Except.toOption] using ih
    | ok files => simpa [hq, Except.toOption, classFiles_names hq] using ih

theorem mem_classNames {stem name : String} :
    name ∈ t.endings.map (stem ++ ·) ↔ ∃ e ∈ t.endings, stem ++ e = name := List.mem_map

theorem classNames_nodup_iff {plans : List ClassPlan} (hn : (plans.map (·.name)).Nodup) :
    (plans.flatMap fun q => t.endings.map (t.stem q.name ++ ·)).Nodup ↔
      ∀ q ∈ plans, ∀ q' ∈ plans, t.stem q.name = t.stem q'.name → q.name = q'.name := by
  have hown : ∀ q ∈ plans, (t.endings.map (t.stem q.name ++ ·)).Nodup := by
    intro q _
    refine List.Nodup.map_on (fun e he e' he' h => (append_ending_inj he he' h).2) ?_
    cases t <;> simp [endings]
  obtain ⟨e, he⟩ : ∃ e, e ∈ t.endings := by cases t <;> exact ⟨_, List.mem_cons_self⟩
  rw [List.nodup_flatMap]
  constructor
  · rintro ⟨-, hpw⟩ q hq q' hq' hstem
    by_contra hne
    have : Std.Symm (Function.onFun List.Disjoint fun q : ClassPlan =>
        t.endings.map (t.stem q.name ++ ·)) := ⟨fun _ _ h => List.disjoint_symm h⟩
    have hdisjoint := hpw.forall hq hq' fun h => hne (by rw [h])
    exact hdisjoint (mem_classNames.mpr ⟨e, he, rfl⟩) (mem_classNames.mpr ⟨e, he, by rw [hstem]⟩)
  · intro h
    refine ⟨hown, (List.pairwise_map.mp hn).imp_of_mem ?_⟩
    intro q q' hq hq' hne name hm hm'
    obtain ⟨e, he, rfl⟩ := mem_classNames.mp hm
    obtain ⟨e', he', heq⟩ := mem_classNames.mp hm'
    exact hne (h q hq q' hq' (append_ending_inj he' he heq).1.symm)

theorem fileNames_nodup_iff (hn : (p.plans.map (·.name)).Nodup) :
    (t.fileNames p).Nodup ↔
      (∀ q ∈ t.accepted p, ∀ q' ∈ t.accepted p, t.stem q.name = t.stem q'.name →
        q.name = q'.name) ∧
      ((∃ files, t.moduleFiles p = .ok files) →
        ∀ q ∈ t.accepted p, t.stem q.name ≠ t.moduleStem) := by
  have hacc : ((t.accepted p).map (·.name)).Nodup := hn.sublist (List.filter_sublist.map _)
  rw [fileNames_eq, List.nodup_append, classNames_nodup_iff hacc]
  cases hm : t.moduleFiles p with
  | error e => simp [Except.toOption]
  | ok files =>
    obtain ⟨ending, he, hnames⟩ := moduleFiles_names hm
    simp only [Except.toOption, Option.getD_some, hnames, List.mem_flatMap, mem_classNames,
      List.mem_singleton, List.nodup_singleton, true_and, Except.ok.injEq, exists_eq',
      true_implies]
    refine and_congr_right fun _ => ⟨fun h q hq hstem => ?_, ?_⟩
    · exact h _ ⟨q, hq, ending, he, rfl⟩ _ rfl (by rw [hstem])
    · rintro h name ⟨q, hq, e, hee, rfl⟩ b rfl heq
      exact h q hq (append_ending_inj hee he heq).1

end Target

theorem Registry.order_names_nodup {r : Registry} {out : List ClassDescription}
    (hn : r.names.Nodup) (hroot : ∀ c ∈ r.classes, isRoot c.name = false)
    (hs : r.classes.Pairwise fun a b => a.name < b.name) (h : r.order = .ok out) :
    (out.map (·.name)).Nodup := by
  obtain ⟨hr, hout⟩ := order_eq_ok h
  have hmem : ∀ c ∈ out, c ∈ r.classes := fun c hc => mem_descendants_classes _ _ (hout ▸ hc)
  suffices hnd : out.Nodup from
    hnd.map_on fun c hc d hd he => List.inj_on_of_nodup_map hn (hmem c hc) (hmem d hd) he
  have htop : ∀ c ∈ r.children rootName, c ∈ r.classes := fun c hc =>
    (mem_children_rootName.mp hc).1
  have hpeers : r.Peers (r.children rootName) := by
    refine ⟨htop, fun c hc d hd => ?_⟩
    obtain ⟨hc, hpc⟩ := mem_children_rootName.mp hc
    obtain ⟨hd, hpd⟩ := mem_children_rootName.mp hd
    simp [level, hr.no_parent hn hc hpc, hr.no_parent hn hd hpd]
  rw [hout]
  cases hlen : r.classes.length with
  | zero => simp [descendants]
  | succ n =>
    have hwalk := descendants_walk hr hn hroot hs n _ htop fun c _ => by omega
    exact hwalk.nodup hr hn (children_byName hs rootName).nodup hpeers

open Target Text in
structure Program.NamesApart (p : Program) : Prop where
  python : (Target.python.fileNames p).Nodup ↔ ∀ q ∈ p.plans, q.name = "__init__" →
    ∃ a ∈ q.description.attributes, a.floatBits ≠ []
  objectiveC : (Target.objectiveC.fileNames p).Nodup ↔ ∀ q ∈ p.plans, q.name = "Pdus" →
    ∃ a ∈ q.description.attributes, a.floatBits ≠ []
  go : ∀ package, ((Target.go package).fileNames p).Nodup ↔
    (∀ q ∈ (Target.go package).accepted p, ∀ q' ∈ (Target.go package).accepted p,
      snakeCase q.name = snakeCase q'.name → q.name = q'.name) ∧
    ((∃ files, (Target.go package).moduleFiles p = .ok files) →
      ∀ q ∈ (Target.go package).accepted p, snakeCase q.name ≠ "doc")
  /-- In camel case a class can only be taken for the file of the whole program. -/
  camel : (∀ q ∈ p.plans, isCamel q.name = true ∧ q.name ≠ "Doc") →
    ∀ package, ((Target.go package).fileNames p).Nodup

namespace Program

open Target Text

theorem Compiled.plan_names {p : Program} {source : Registry} {options : PlanOptions}
    (h : p.Compiled source options) : (p.plans.map (·.name)).Nodup := by
  obtain ⟨classes, ho, -, hall⟩ := Registry.planAll_eq_ok h.planned
  have hnames : p.plans.map (·.name) = classes.map (·.name) := by
    clear ho
    generalize p.plans = plans at hall
    induction classes generalizing plans with
    | nil => simpa using hall.symm
    | cons c classes ih =>
      obtain ⟨q, rest, rfl, hq, hrest⟩ := List.map_eq_cons_iff.mp hall.symm
      obtain ⟨-, -, hdesc, -⟩ := Registry.plan_eq_ok hq.symm
      rw [List.map_cons, List.map_cons, ih rest hrest.symm, ClassPlan.name, hdesc]
  have hsorted : p.registry.classes.Pairwise fun a b => a.name < b.name := by
    obtain ⟨-, hr⟩ := Registry.toSealed_eq_ok h.built h.isSealed
    rw [hr]
    exact List.pairwise_map.mpr h.built.sorted
  have hc := h.built.consistent h.isSealed
  rw [hnames]
  exact Registry.order_names_nodup hc.names_nodup hc.not_root hsorted ho

theorem compiled_namesApart {p : Program} {source : Registry} {options : PlanOptions}
    (h : p.Compiled source options) : p.NamesApart := by
  have hn := h.plan_names
  have hgo : ∀ package, ((Target.go package).fileNames p).Nodup ↔ _ :=
    fun package => fileNames_nodup_iff hn
  have hown : ∀ t : Target, (∀ name, t.stem name = name) →
      (∃ files, t.moduleFiles p = .ok files) →
      (∀ q ∈ p.plans, (∃ files, t.classFiles q = .ok files) ↔
        ∀ a ∈ q.description.attributes, a.floatBits = []) →
      ((t.fileNames p).Nodup ↔ ∀ q ∈ p.plans, q.name = t.moduleStem →
        ∃ a ∈ q.description.attributes, a.floatBits ≠ []) := by
    intro t hstem hmodule haccepts
    rw [fileNames_nodup_iff hn]
    simp only [hstem, mem_accepted]
    constructor
    · rintro ⟨-, hclash⟩ q hq hname
      by_contra hbits
      simp only [not_exists, not_and, not_not] at hbits
      exact hclash hmodule q ⟨hq, (haccepts q hq).mpr hbits⟩ hname
    · intro hbits
      refine ⟨fun q hq q' hq' he => he, fun _ q hq hname => ?_⟩
      obtain ⟨a, ha, hfloat⟩ := hbits q hq.1 hname
      exact hfloat ((haccepts q hq.1).mp hq.2 a ha)
  have hpython := hown .python (fun _ => rfl) ⟨_, rfl⟩ fun q hq =>
    (Python.judges (h.suitable hq)).ok_iff (h.suitable hq)
  have hobjc := hown .objectiveC (fun _ => rfl) ⟨_, rfl⟩ fun q hq =>
    (ObjectiveC.judges (h.suitable hq)).ok_iff (h.suitable hq)
  refine ⟨hpython, hobjc, hgo, fun hcamel package => (hgo package).mpr ⟨?_, fun _ => ?_⟩⟩
  · intro q hq q' hq' hsnake
    exact snakeCase_inj (hcamel q (mem_accepted.mp hq).1).1 (hcamel q' (mem_accepted.mp hq').1).1
      hsnake
  · intro q hq hdoc
    obtain ⟨hq, hne⟩ := hcamel q (mem_accepted.mp hq).1
    have hsnake : snakeCase q.name = snakeCase "Doc" := Eq.trans (b := "doc") hdoc (by decide)
    exact hne (snakeCase_inj hq (by decide) hsnake)

end Program

namespace Namesakes

def source : Registry := .gather (["Entity", "entity", "Pdus", "__init__"].map fun name =>
  { name, attributes := [{ name := "x", kind := some (.primitive { type := "uint8" }) }] })

def program : Program := (Program.compile? source {}).getD ⟨{}, []⟩

def plan (name : String) : ClassPlan := (program.plan? name).getD { description := {} }

theorem program_evaluated : (Program.compile? source {}).isSome = true ∧
    ∀ name ∈ ["Entity", "entity", "Pdus", "__init__"], (program.plan? name).map
      (·.description.attributes.all (·.floatBits.isEmpty)) = some true := by
  decide +kernel

theorem plan_spec {name : String} (h : name ∈ ["Entity", "entity", "Pdus", "__init__"]) :
    plan name ∈ program.plans ∧ (plan name).name = name ∧
      ∀ a ∈ (plan name).description.attributes, a.floatBits = [] := by
  obtain ⟨q, hq, hclear⟩ := Option.map_eq_some_iff.mp (program_evaluated.2 name h)
  have hplan : plan name = q := by simp [plan, hq]
  rw [hplan]
  refine ⟨List.mem_of_find?_eq_some hq, by simpa using List.find?_some hq, by simpa using hclear⟩

end Namesakes

theorem namesakes_namesApart :
    ¬ (Target.python.fileNames Namesakes.program).Nodup ∧
    ¬ (Target.objectiveC.fileNames Namesakes.program).Nodup ∧
    ∀ package files files',
      (Target.go package).classFiles (Namesakes.plan "Entity") = .ok files →
      (Target.go package).classFiles (Namesakes.plan "entity") = .ok files' →
      ¬ ((Target.go package).fileNames Namesakes.program).Nodup := by
  have hcompiled : Namesakes.program.Compiled Namesakes.source {} :=
    Program.compiled_getD (Registry.gather_built _) Namesakes.program_evaluated.1 _
  have hapart := Program.compiled_namesApart hcompiled
  refine ⟨fun hnd => ?_, fun hnd => ?_, fun package files files' hfiles hfiles' hnd => ?_⟩
  · obtain ⟨hq, hname, hclear⟩ := @Namesakes.plan_spec "__init__" (by simp)
    obtain ⟨a, ha, hbits⟩ := hapart.python.mp hnd _ hq hname
    exact hbits (hclear a ha)
  · obtain ⟨hq, hname, hclear⟩ := @Namesakes.plan_spec "Pdus" (by simp)
    obtain ⟨a, ha, hbits⟩ := hapart.objectiveC.mp hnd _ hq hname
    exact hbits (hclear a ha)
  · obtain ⟨hq, hname, -⟩ := @Namesakes.plan_spec "Entity" (by simp)
    obtain ⟨hq', hname', -⟩ := @Namesakes.plan_spec "entity" (by simp)
    have hsame := ((hapart.go package).mp hnd).1 _ (Target.mem_accepted.mpr ⟨hq, files, hfiles⟩) _
      (Target.mem_accepted.mpr ⟨hq', files', hfiles'⟩)
    rw [hname, hname'] at hsame
    exact absurd (hsame (by decide)) (by decide)

end PduCompiler
