import Mathlib.Data.List.Nodup
import PduCompiler.Generate

/-! Writing files. Where a path leads depends on the directories alone, and files that are written
leave the directories as they are. So what a job writes does not depend on what others have written
before it, and files in different places can be written in any order. Jobs run only once every
directory is set up. -/

namespace PduCompiler.Files

def Located.file? : Located → Option Place
  | vacant q => some q
  | found q (.file _) => some q
  | found _ .directory => none

structure Write where
  path : String
  place : Place
  content : String
  deriving DecidableEq

namespace Disk

variable {d d' : Disk} {path content : String} {q : Place} {t t' : FileTree}

def place? (d : Disk) (path : String) : Option Place := (d.locate path).toOption.bind Located.file?

structure SameDirectories (d d' : Disk) : Prop where
  current : d.current = d'.current
  directory : ∀ q, d.tree.get? q = some .directory ↔ d'.tree.get? q = some .directory

theorem SameDirectories.symm (h : SameDirectories d d') : SameDirectories d' d :=
  ⟨h.current.symm, fun q => (h.directory q).symm⟩

theorem SameDirectories.trans {d'' : Disk} (h : SameDirectories d d')
    (h' : SameDirectories d' d'') : SameDirectories d d'' :=
  ⟨h.current.trans h'.current, fun q => (h.directory q).trans (h'.directory q)⟩

theorem follow_file? {here : Place} {part : String} {rest : List String} (hdot : part ≠ ".")
    (hdots : part ≠ "..") (hlen : ¬ maxNameLength < part.utf8ByteSize)
    (h : t.get? (here ++ [part]) ≠ some .directory) :
    (follow t here (part :: rest)).toOption.bind Located.file? =
      if rest.isEmpty then some (here ++ [part]) else none := by
  simp only [follow, beq_iff_eq, hdot, hdots, hlen, if_false]
  cases hg : t.get? (here ++ [part]) with
  | none => cases rest <;> rfl
  | some e =>
    cases e with
    | directory => exact absurd hg h
    | file s => cases rest <;> rfl

theorem follow_congr (h : ∀ q, t.get? q = some .directory ↔ t'.get? q = some .directory)
    (here : Place) (parts : List String) :
    (follow t here parts).toOption.bind Located.file? =
      (follow t' here parts).toOption.bind Located.file? := by
  induction parts generalizing here with
  | nil => rfl
  | cons part rest ih =>
    by_cases hdot : part = "."
    · simpa [follow, hdot] using ih here
    by_cases hdots : part = ".."
    · simpa [follow, hdots] using ih here.dropLast
    by_cases hlen : maxNameLength < part.utf8ByteSize
    · simp [follow, hdot, hdots, hlen, Except.toOption]
    by_cases hdir : t.get? (here ++ [part]) = some .directory
    · simpa [follow, hdot, hdots, hlen, hdir, (h _).mp hdir] using ih (here ++ [part])
    · rw [follow_file? hdot hdots hlen hdir, follow_file? hdot hdots hlen (mt (h _).mpr hdir)]

theorem SameDirectories.place? (h : SameDirectories d d') (path : String) :
    d.place? path = d'.place? path := by
  unfold Disk.place? locate
  rw [h.current]
  split
  · rfl
  · split
    · rfl
    · split
      · rfl
      · exact follow_congr h.directory _ _

theorem follow_eq_ok {here : Place} {parts : List String} {l : Located}
    (h : follow t here parts = .ok l) (hl : l.file? = some q) :
    q ≠ [] ∧ t.get? q ≠ some .directory ∧ l = (t.get? q).elim (.vacant q) (.found q) := by
  induction parts generalizing here with
  | nil =>
    cases h
    cases hl
  | cons part rest ih =>
    unfold follow at h
    split at h
    · exact ih h
    · split at h
      · exact ih h
      · split at h
        · cases h
        · cases hg : t.get? (here ++ [part]) with
          | none =>
            cases rest with
            | nil =>
              simp only [hg, List.isEmpty_nil, if_true, Except.ok.injEq] at h
              cases h
              cases hl
              simp [hg]
            | cons => simp [hg] at h
          | some e =>
            cases e with
            | directory =>
              simp only [hg] at h
              exact ih h
            | file s =>
              cases rest with
              | nil =>
                simp only [hg, List.isEmpty_nil, if_true, Except.ok.injEq] at h
                cases h
                cases hl
                simp [hg]
              | cons => simp [hg] at h

theorem locate_eq_ok {l : Located} (h : d.locate path = .ok l) :
    follow d.tree (if isRooted path.toList then [] else d.current) (partsOf path) = .ok l := by
  unfold locate at h
  split at h
  · cases h
  · split at h
    · cases h
    · split at h
      · cases h
      · exact h

theorem follow_of_place? (h : d.place? path = some q) : ∃ l, d.locate path = .ok l ∧
    follow d.tree (if isRooted path.toList then [] else d.current) (partsOf path) = .ok l ∧
    l.file? = some q := by
  unfold place? at h
  cases hl : d.locate path with
  | error e => simp [hl, Except.toOption] at h
  | ok l => exact ⟨l, rfl, locate_eq_ok hl, by simpa [hl, Except.toOption] using h⟩

theorem locate_of_place? (h : d.place? path = some q) :
    q ≠ [] ∧ d.tree.get? q ≠ some .directory ∧
      d.locate path = .ok ((d.tree.get? q).elim (.vacant q) (.found q)) := by
  obtain ⟨l, hlocate, hfollow, hl⟩ := follow_of_place? h
  obtain ⟨hq, hdir, rfl⟩ := follow_eq_ok hfollow hl
  exact ⟨hq, hdir, hlocate⟩

def put (d : Disk) (writes : List Write) : Disk :=
  writes.foldl (fun d w => { d with tree := d.tree.set w.place (.file w.content) }) d

@[simp] theorem put_nil (d : Disk) : d.put [] = d := rfl

theorem put_append (d : Disk) (writes writes' : List Write) :
    d.put (writes ++ writes') = (d.put writes).put writes' := List.foldl_append

theorem put_cons (d : Disk) (w : Write) (writes : List Write) :
    d.put (w :: writes) = (d.put [w]).put writes := rfl

theorem put_current (d : Disk) (writes : List Write) : (d.put writes).current = d.current := by
  induction writes generalizing d with
  | nil => rfl
  | cons w writes ih => exact ih _

theorem get?_put_of_notMem {writes : List Write} (h : ∀ w ∈ writes, w.place ≠ q) :
    (d.put writes).tree.get? q = d.tree.get? q := by
  induction writes generalizing d with
  | nil => rfl
  | cons w writes ih =>
    rw [put_cons, ih fun w' hw' => h w' (List.mem_cons_of_mem _ hw')]
    by_cases hq : q = []
    · simp [hq, FileTree.get?]
    · have hne := h w List.mem_cons_self
      simp [put, FileTree.get?_set _ _ _ _ hq, hne.symm]

theorem get?_put {writes : List Write} (hq : q ≠ []) (h : ∃ w ∈ writes, w.place = q) :
    ∃ w ∈ writes, w.place = q ∧ (d.put writes).tree.get? q = some (.file w.content) := by
  induction writes generalizing d with
  | nil => simp at h
  | cons w writes ih =>
    by_cases hrest : ∃ w' ∈ writes, w'.place = q
    · obtain ⟨w', hw', hplace, hget⟩ := ih (d := d.put [w]) hrest
      exact ⟨w', List.mem_cons_of_mem _ hw', hplace, hget⟩
    · obtain ⟨w', hw', hplace⟩ := h
      have hw : w' = w := (List.mem_cons.mp hw').resolve_right fun hw' => hrest ⟨w', hw', hplace⟩
      subst hw
      refine ⟨w', List.mem_cons_self, hplace, ?_⟩
      rw [put_cons, get?_put_of_notMem fun w'' hw'' he => hrest ⟨w'', hw'', he⟩]
      simp [put, FileTree.get?_set _ _ _ _ hq, hplace]

theorem get?_put_of_mem {writes : List Write} (hnd : (writes.map (·.place)).Nodup) {w : Write}
    (hw : w ∈ writes) (hq : w.place ≠ []) :
    (d.put writes).tree.get? w.place = some (.file w.content) := by
  obtain ⟨w', hw', hplace, hget⟩ := get?_put (d := d) hq ⟨w, hw, rfl⟩
  rw [hget, List.inj_on_of_nodup_map hnd hw' hw hplace]

theorem get?_put_perm {writes writes' : List Write} (h : writes.Perm writes')
    (hnd : (writes.map (·.place)).Nodup) (hne : ∀ w ∈ writes, w.place ≠ []) (q : Place) :
    (d.put writes).tree.get? q = (d.put writes').tree.get? q := by
  by_cases hq : ∃ w ∈ writes, w.place = q
  · obtain ⟨w, hw, rfl⟩ := hq
    rw [get?_put_of_mem hnd hw (hne w hw),
      get?_put_of_mem ((h.map _).nodup_iff.mp hnd) (h.subset hw) (hne w hw)]
  · rw [get?_put_of_notMem fun w hw he => hq ⟨w, hw, he⟩,
      get?_put_of_notMem fun w hw he => hq ⟨w, h.symm.subset hw, he⟩]

theorem sameDirectories_put {writes : List Write}
    (h : ∀ w ∈ writes, d.place? w.path = some w.place) : SameDirectories d (d.put writes) := by
  refine ⟨(put_current d writes).symm, fun q => ?_⟩
  by_cases hq : ∃ w ∈ writes, w.place = q
  · obtain ⟨w, hw, rfl⟩ := hq
    obtain ⟨hne, hdir, -⟩ := locate_of_place? (h w hw)
    obtain ⟨w', -, -, hget⟩ := get?_put (d := d) hne ⟨w, hw, rfl⟩
    simp [hdir, hget]
  · rw [get?_put_of_notMem fun w hw he => hq ⟨w, hw, he⟩]

theorem writeFile_of_place? (h : d.place? path = some q) (content : String) :
    d.writeFile path content = .ok (d.put [⟨path, q, content⟩]) := by
  obtain ⟨-, hdir, hlocate⟩ := locate_of_place? h
  unfold writeFile
  rw [hlocate]
  cases hg : d.tree.get? q with
  | none => rfl
  | some e =>
    cases e with
    | directory => exact absurd hg hdir
    | file s => rfl

theorem writeFile_of_no_place (h : d.place? path = none) (content : String) :
    ∃ cause, d.writeFile path content = .error ⟨"open", path, cause⟩ := by
  unfold writeFile
  cases hl : d.locate path with
  | ok l =>
    cases l with
    | vacant q => simp [place?, hl, Except.toOption, Located.file?] at h
    | found q e =>
      cases e with
      | directory => exact ⟨_, rfl⟩
      | file s => simp [place?, hl, Except.toOption, Located.file?] at h
  | error cause =>
    simp only
    split
    · exact ⟨_, rfl⟩
    · exact ⟨_, rfl⟩

theorem readFile_of_place? (h : d.place? path = some q)
    (hfile : d.tree.get? q = some (.file content)) : d.readFile path = .ok content := by
  obtain ⟨-, -, hlocate⟩ := locate_of_place? h
  simp [readFile, hlocate, hfile]

theorem readFile_put {writes : List Write} (h : ∀ w ∈ writes, d.place? w.path = some w.place)
    {w : Write} (hw : w ∈ writes) : ∃ content, (d.put writes).readFile w.path = .ok content := by
  obtain ⟨hne, -, -⟩ := locate_of_place? (h w hw)
  obtain ⟨w', -, -, hget⟩ := get?_put (d := d) hne ⟨w, hw, rfl⟩
  have hplace := ((sameDirectories_put h).place? _).symm.trans (h w hw)
  exact ⟨_, readFile_of_place? hplace hget⟩

theorem readFile_put_of_nodup {writes : List Write}
    (h : ∀ w ∈ writes, d.place? w.path = some w.place) (hnd : (writes.map (·.place)).Nodup)
    {w : Write} (hw : w ∈ writes) : (d.put writes).readFile w.path = .ok w.content := by
  obtain ⟨hne, -, -⟩ := locate_of_place? (h w hw)
  have hplace := ((sameDirectories_put h).place? _).symm.trans (h w hw)
  exact readFile_of_place? hplace (get?_put_of_mem hnd hw hne)

end Disk

end PduCompiler.Files

namespace PduCompiler.Generate

open Files

/-- Where an error comes from. Why a file cannot be written is left out: what was missing may have
become a file that another job wrote. -/
def JobError.origin : JobError → String ⊕ String
  | notRendered reason => .inl reason
  | notWritten path _ => .inr path

def JobResult.outcome (r : JobResult) : List String × Option (String ⊕ String) :=
  (r.paths, r.error.map JobError.origin)

namespace Job

variable {j : Job} {d d' : Disk} {p : Program} {f : SourceFile} {rest files : List SourceFile}
  {r r' : JobResult} {q : Place}

def path (j : Job) (f : SourceFile) : String := joinPath [j.dir, f.name]

def wrote (j : Job) (f : SourceFile) (r : JobResult) : JobResult :=
  { r with
    paths := r.paths ++ [j.path f]
    log := r.log ++ [⟨.debug, "wrote file",
      [("backend", j.backend.name), ("class", j.subject.name)] ++ [("path", j.path f)]⟩] }

theorem write_cons (j : Job) (d : Disk) (f : SourceFile) (r : JobResult) :
    (∀ d', d.writeFile (j.path f) f.content = .ok d' →
      ∀ rest, j.write (f :: rest) (d, r) = j.write rest (d', j.wrote f r)) ∧
    ∀ e, d.writeFile (j.path f) f.content = .error e → ∃ log, ∀ rest,
      j.write (f :: rest) (d, r) = (d, { r with error := some (.notWritten (j.path f) e), log }) := by
  unfold path
  refine ⟨fun d' hw rest => ?_, fun e hw => ?_⟩
  · simp only [write, hw]
    rfl
  · simp only [write, hw]
    exact ⟨_, fun _ => rfl⟩

theorem write_of_place? (h : d.place? (j.path f) = some q) :
    j.write (f :: rest) (d, r) = j.write rest (d.put [⟨j.path f, q, f.content⟩], j.wrote f r) :=
  (write_cons j d f r).1 _ (Disk.writeFile_of_place? h f.content) rest

theorem write_of_no_place (h : d.place? (j.path f) = none) (r : JobResult) :
    ∃ cause log, ∀ rest, j.write (f :: rest) (d, r) = (d, { r with
      error := some (.notWritten (j.path f) ⟨"open", j.path f, cause⟩), log }) := by
  obtain ⟨cause, hw⟩ := Disk.writeFile_of_no_place h f.content
  exact ⟨cause, (write_cons j d f r).2 _ hw⟩

def writes (j : Job) (d : Disk) : List SourceFile → List Write
  | [] => []
  | f :: rest =>
    match d.place? (j.path f) with
    | some q => ⟨j.path f, q, f.content⟩ :: j.writes d rest
    | none => []

theorem writes_of_place? (h : d.place? (j.path f) = some q) :
    j.writes d (f :: rest) = ⟨j.path f, q, f.content⟩ :: j.writes d rest := by
  simp only [writes, h]

theorem writes_of_no_place (h : d.place? (j.path f) = none) : j.writes d (f :: rest) = [] := by
  simp only [writes, h]

theorem mem_writes_cons {w : Write} (h : w ∈ j.writes d (f :: rest)) :
    (∃ q, d.place? (j.path f) = some q ∧ w = ⟨j.path f, q, f.content⟩) ∨ w ∈ j.writes d rest := by
  cases hq : d.place? (j.path f) with
  | some q =>
    rw [writes_of_place? hq, List.mem_cons] at h
    exact h.imp_left fun hw => ⟨q, rfl, hw⟩
  | none =>
    rw [writes_of_no_place hq] at h
    cases h

theorem writes_place? {w : Write} (h : w ∈ j.writes d files) :
    d.place? w.path = some w.place := by
  induction files with
  | nil => cases h
  | cons f rest ih =>
    rcases mem_writes_cons h with ⟨q, hq, rfl⟩ | h
    · exact hq
    · exact ih h

theorem writes_path {w : Write} (h : w ∈ j.writes d files) : ∃ f ∈ files, w.path = j.path f := by
  induction files with
  | nil => cases h
  | cons f rest ih =>
    rcases mem_writes_cons h with ⟨q, -, rfl⟩ | h
    · exact ⟨f, List.mem_cons_self, rfl⟩
    · obtain ⟨f', hf', hpath⟩ := ih h
      exact ⟨f', List.mem_cons_of_mem _ hf', hpath⟩

theorem writes_congr (h : d.SameDirectories d') (files : List SourceFile) :
    j.writes d files = j.writes d' files := by
  induction files with
  | nil => rfl
  | cons f rest ih =>
    have hplace := h.place? (j.path f)
    cases hq : d.place? (j.path f) with
    | some q => rw [writes_of_place? hq, writes_of_place? (hplace.symm.trans hq), ih]
    | none => rw [writes_of_no_place hq, writes_of_no_place (hplace.symm.trans hq)]

theorem sameDirectories_one (h : d.place? (j.path f) = some q) :
    d.SameDirectories (d.put [⟨j.path f, q, f.content⟩]) :=
  Disk.sameDirectories_put (by simpa using h)

theorem write_disk (files : List SourceFile) (d : Disk) (r : JobResult) :
    (j.write files (d, r)).1 = d.put (j.writes d files) := by
  induction files generalizing d r with
  | nil => rfl
  | cons f rest ih =>
    cases hq : d.place? (j.path f) with
    | some q =>
      rw [write_of_place? hq, ih, ← writes_congr (sameDirectories_one hq), ← Disk.put_append,
        writes_of_place? hq]
      rfl
    | none =>
      obtain ⟨cause, log, hw⟩ := write_of_no_place hq r
      rw [hw, writes_of_no_place hq]
      rfl

theorem write_paths (files : List SourceFile) (d : Disk) (r : JobResult) :
    (j.write files (d, r)).2.paths = r.paths ++ (j.writes d files).map (·.path) := by
  induction files generalizing d r with
  | nil => exact (List.append_nil r.paths).symm
  | cons f rest ih =>
    cases hq : d.place? (j.path f) with
    | some q =>
      rw [write_of_place? hq, ih, ← writes_congr (sameDirectories_one hq), writes_of_place? hq]
      simp [wrote]
    | none =>
      obtain ⟨cause, log, hw⟩ := write_of_no_place hq r
      simp [hw, writes_of_no_place hq]

/-- What becomes of a job depends on the directories and on what has become of it so far. -/
theorem write_outcome (hd : d.SameDirectories d') (hr : r.outcome = r'.outcome)
    (files : List SourceFile) :
    (j.write files (d, r)).2.outcome = (j.write files (d', r')).2.outcome := by
  induction files generalizing d d' r r' with
  | nil => exact hr
  | cons f rest ih =>
    obtain ⟨hpaths, herror⟩ := Prod.mk.inj hr
    cases hq : d.place? (j.path f) with
    | some q =>
      have hq' := (hd.place? _).symm.trans hq
      rw [write_of_place? hq, write_of_place? hq']
      have hone := (sameDirectories_one hq).symm.trans (hd.trans (sameDirectories_one hq'))
      refine ih hone ?_
      simp [JobResult.outcome, wrote, hpaths, herror]
    | none =>
      have hq' := (hd.place? _).symm.trans hq
      obtain ⟨cause, log, hw⟩ := write_of_no_place hq r
      obtain ⟨cause', log', hw'⟩ := write_of_no_place hq' r'
      simp [hw, hw', JobResult.outcome, hpaths, JobError.origin]

def effects (p : Program) (d : Disk) (j : Job) : List Write :=
  j.writes d ((j.files p).toOption.getD [])

theorem effects_place? {w : Write} (h : w ∈ j.effects p d) : d.place? w.path = some w.place :=
  writes_place? h

theorem run_disk (p : Program) (d : Disk) (j : Job) : (j.run p d).1 = d.put (j.effects p d) := by
  unfold run effects
  cases hf : j.files p with
  | ok files => simpa [Except.toOption] using write_disk files d {}
  | error e => rfl

theorem run_paths (p : Program) (d : Disk) (j : Job) :
    (j.run p d).2.paths = (j.effects p d).map (·.path) := by
  unfold run effects
  cases hf : j.files p with
  | ok files => simpa [Except.toOption] using write_paths files d {}
  | error e => rfl

end Job

section Setup

variable {p : Program} {home : Home} {options : Options} {root : String} {s : Setup} {d d' : Disk}

theorem prepareDirectory_cases {path dir : String}
    (h : prepareDirectory home d path = .ok (d', dir)) :
    home path = .ok dir ∧ (d' = d ∨ d.makeDirectories dir = .ok d') := by
  unfold prepareDirectory at h
  split at h
  · cases h
  · next hhome =>
    split at h
    · cases h
      exact ⟨hhome, .inl rfl⟩
    · cases h
    · split at h
      · split at h
        · next hmake =>
          cases h
          exact ⟨hhome, .inr hmake⟩
        · cases h
      · cases h

theorem add_of_error (herror : s.error.isSome = true) (targets : List (Backend × String)) :
    targets.foldl (Setup.add p home options root) s = s := by
  induction targets with
  | nil => rfl
  | cons target targets ih => rw [List.foldl_cons, Setup.add, if_pos herror, ih]

end Setup

end PduCompiler.Generate

namespace PduCompiler.Program

open Files Generate

variable {p : Program} {home : Home} {options : Options} {targets : List (Backend × String)}
  {d : Disk}

theorem generate_of_error {e : DirectoryError}
    (h : (setUp p home options targets d).error = some e) :
    (p.generate home options targets d).disk = (setUp p home options targets d).disk ∧
      (p.generate home options targets d).result = .error e := by
  simp [generate, h]

theorem generate_of_jobs (h : (setUp p home options targets d).error = none) :
    (p.generate home options targets d).disk =
        (runJobs p (setUp p home options targets d).disk (setUp p home options targets d).jobs).1 ∧
      (p.generate home options targets d).result =
        .ok (report (setUp p home options targets d).removed
          (runJobs p (setUp p home options targets d).disk
            (setUp p home options targets d).jobs).2) := by
  simp [generate, h]

end PduCompiler.Program
