import Mathlib.Logic.Relation
import PduCompiler.Proofs.Places
import PduCompiler.Proofs.Rendering

/-! Generation by several workers at once. Jobs are taken up in order, but files are written and
results reported in whatever order the workers come to it. The report is the same in the end, and so
are the files, unless two of them go to one place. -/

namespace PduCompiler

open Files Relation

namespace Generate

structure Work where
  job : Job
  rest : List SourceFile
  result : JobResult := {}

structure Pool where
  disk : Disk
  waiting : List Job
  running : List Work := []
  done : List (Job × JobResult) := []

def Job.begin (p : Program) (d : Disk) (j : Job) : Work :=
  match j.files p with
  | .ok files => { job := j, rest := files }
  | .error _ => { job := j, rest := [], result := (j.run p d).2 }

def Work.next (d : Disk) (w : Work) : Disk × Work :=
  let (d, result) := w.job.write (w.rest.take 1) (d, w.result)
  (d, { w with rest := if result.error.isSome then [] else w.rest.tail, result })

inductive Pool.Step (p : Program) (workers : Nat) : Pool → Pool → Prop
  | start {d : Disk} {j : Job} {waiting : List Job} {running : List Work}
      {done : List (Job × JobResult)} (hfree : running.length < workers) :
      Step p workers ⟨d, j :: waiting, running, done⟩ ⟨d, waiting, running ++ [j.begin p d], done⟩
  | write {d : Disk} {waiting : List Job} {left right : List Work} {w : Work}
      {done : List (Job × JobResult)} (hrest : w.rest ≠ []) :
      Step p workers ⟨d, waiting, left ++ w :: right, done⟩
        ⟨(w.next d).1, waiting, left ++ (w.next d).2 :: right, done⟩
  | finish {d : Disk} {waiting : List Job} {left right : List Work} {w : Work}
      {done : List (Job × JobResult)} (hrest : w.rest = []) :
      Step p workers ⟨d, waiting, left ++ w :: right, done⟩
        ⟨d, waiting, left ++ right, done ++ [(w.job, w.result)]⟩

def Pool.Finished (s : Pool) : Prop := s.waiting = [] ∧ s.running = []

namespace Work

variable {w : Work} {d d' : Disk} {f : SourceFile} {rest : List SourceFile} {q : Place}

def writes (d : Disk) (w : Work) : List Write := w.job.writes d w.rest

def outcome (d : Disk) (w : Work) : List String × Option (String ⊕ String) :=
  (w.job.write w.rest (d, w.result)).2.outcome

theorem next_job : (w.next d).2.job = w.job := rfl

theorem next_of_place? (hrest : w.rest = f :: rest) (hlive : w.result.error = none)
    (hq : d.place? (w.job.path f) = some q) : w.next d =
      (d.put [⟨w.job.path f, q, f.content⟩], ⟨w.job, rest, w.job.wrote f w.result⟩) := by
  have hw : w.job.write [f] (d, w.result) =
      (d.put [⟨w.job.path f, q, f.content⟩], w.job.wrote f w.result) := Job.write_of_place? hq
  simp [next, hrest, hw, Job.wrote, hlive]

theorem next_of_error {r : JobResult} (hrest : w.rest = f :: rest)
    (hw : w.job.write [f] (d, w.result) = (d, r)) (he : r.error.isSome = true) :
    w.next d = (d, ⟨w.job, [], r⟩) := by
  simp [next, hrest, hw, he]

/-- One more file is written as it would be on the disk of the start, and what will become of the
job does not change. -/
theorem next_spec (hd : d.SameDirectories d') (hrest : w.rest ≠ [])
    (hlive : w.result.error = none) :
    ∃ written, (w.next d').1 = d'.put written ∧ w.writes d = written ++ (w.next d').2.writes d ∧
      (w.next d').2.outcome d = w.outcome d ∧
      ((w.next d').2.rest ≠ [] → (w.next d').2.result.error = none) := by
  obtain ⟨f, rest, hcons⟩ := List.exists_cons_of_ne_nil hrest
  cases hq : d.place? (w.job.path f) with
  | some q =>
    have hq' := (hd.place? _).symm.trans hq
    rw [next_of_place? hcons hlive hq']
    refine ⟨_, rfl, by simp [writes, hcons, Job.writes, hq], ?_, fun _ => hlive⟩
    simp only [outcome, hcons, Job.write_of_place? hq]
    exact Job.write_outcome (Job.sameDirectories_one hq) rfl _
  | none =>
    have hq' := (hd.place? _).symm.trans hq
    obtain ⟨cause, log, hw⟩ := Job.write_of_no_place hq w.result
    obtain ⟨cause', log', hw'⟩ := Job.write_of_no_place hq' w.result
    rw [next_of_error hcons (hw' []) rfl]
    refine ⟨[], rfl, by simp [writes, hcons, Job.writes, hq], ?_, by simp⟩
    simp [outcome, hcons, hw, Job.write, JobResult.outcome, JobError.origin]

theorem next_rest_lt (hrest : w.rest ≠ []) : (w.next d).2.rest.length < w.rest.length := by
  obtain ⟨f, rest, hcons⟩ := List.exists_cons_of_ne_nil hrest
  simp only [next, hcons, List.tail_cons]
  split <;> simp

theorem begin_writes (p : Program) (d d' : Disk) (j : Job) :
    (j.begin p d').writes d = j.effects p d := by
  unfold Job.begin Job.effects
  cases hf : j.files p <;> rfl

theorem begin_outcome (p : Program) (d d' : Disk) (j : Job) :
    (j.begin p d').outcome d = (j.run p d).2.outcome := by
  unfold Job.begin
  cases hf : j.files p <;> simp [outcome, Job.run, hf, Job.write]

theorem begin_job (p : Program) (d : Disk) (j : Job) : (j.begin p d).job = j := by
  unfold Job.begin
  cases hf : j.files p <;> rfl

theorem begin_rest (p : Program) (d : Disk) (j : Job) :
    (j.begin p d).rest = (j.files p).toOption.getD [] := by
  unfold Job.begin
  cases hf : j.files p <;> rfl

theorem begin_live (p : Program) (d : Disk) (j : Job) (h : (j.begin p d).rest ≠ []) :
    (j.begin p d).result.error = none := by
  unfold Job.begin at h ⊢
  cases hf : j.files p with
  | ok files => rfl
  | error e => simp [hf] at h

end Work

namespace Pool

variable {p : Program} {workers : Nat} {d : Disk} {jobs : List Job} {s t : Pool}

/-- Every file that the jobs write, each on its own, is on disk or still to be written, and every
job has reported what becomes of it on its own or will do so. -/
structure Accounted (p : Program) (d : Disk) (jobs : List Job) (s : Pool) : Prop where
  writes : ∃ written, s.disk = d.put written ∧
    (written ++ s.running.flatMap (·.writes d) ++ s.waiting.flatMap (·.effects p d)).Perm
      (jobs.flatMap (·.effects p d))
  results : (s.done.map (fun e => (e.1, e.2.outcome)) ++
      s.running.map (fun w => (w.job, w.outcome d)) ++
      s.waiting.map (fun j => (j, (j.run p d).2.outcome))).Perm
    (jobs.map fun j => (j, (j.run p d).2.outcome))
  live : ∀ w ∈ s.running, w.rest ≠ [] → w.result.error = none

theorem Accounted.sameDirectories (h : s.Accounted p d jobs) : d.SameDirectories s.disk := by
  obtain ⟨written, hdisk, hperm⟩ := h.writes
  rw [hdisk]
  refine Disk.sameDirectories_put fun w hw => ?_
  have hmem : w ∈ jobs.flatMap (·.effects p d) := hperm.subset (by simp [hw])
  obtain ⟨j, -, hj⟩ := List.mem_flatMap.mp hmem
  exact Job.effects_place? hj

theorem accounted_start (p : Program) (d : Disk) (jobs : List Job) :
    Accounted p d jobs ⟨d, jobs, [], []⟩ :=
  ⟨⟨[], rfl, by simp⟩, by simp, by simp⟩

theorem Step.accounted (h : s.Step p workers t) (hs : s.Accounted p d jobs) :
    t.Accounted p d jobs := by
  have hd := hs.sameDirectories
  obtain ⟨⟨written, hdisk, hwrites⟩, hresults, hlive⟩ := hs
  cases h with
  | @start d' j waiting running done hfree =>
    refine ⟨⟨written, hdisk, ?_⟩, ?_, ?_⟩
    · simpa [Work.begin_writes] using hwrites
    · simpa [Work.begin_outcome, Work.begin_job] using hresults
    · intro w hw
      rcases List.mem_append.mp hw with hw | hw
      · exact hlive w hw
      · rw [List.mem_singleton.mp hw]
        exact Work.begin_live p d' j
  | @write d' waiting left right w done hrest =>
    have hw := hlive w (by simp) hrest
    obtain ⟨one, hone, hsplit, houtcome, hlive'⟩ := Work.next_spec hd hrest hw
    refine ⟨⟨written ++ one, ?_, ?_⟩, ?_, ?_⟩
    · rw [Disk.put_append, ← hdisk]
      exact hone
    · refine List.Perm.trans (List.perm_iff_count.mpr fun x => ?_) hwrites
      simp only [List.flatMap_append, List.flatMap_cons, hsplit, List.count_append]
      omega
    · simpa [houtcome, Work.next_job] using hresults
    · intro w' hw'
      rcases List.mem_append.mp hw' with hw' | hw'
      · exact hlive w' (by simp [hw'])
      · rcases List.mem_cons.mp hw' with rfl | hw'
        · exact hlive'
        · exact hlive w' (by simp [hw'])
  | @finish d' waiting left right w done hrest =>
    refine ⟨⟨written, hdisk, ?_⟩, ?_, fun w' hw' => ?_⟩
    · have hnone : w.writes d = [] := by simp [Work.writes, hrest, Job.writes]
      simpa [hnone] using hwrites
    · have hreported : w.outcome d = w.result.outcome := by simp [Work.outcome, hrest, Job.write]
      refine List.Perm.trans ?_ hresults
      simp only [List.map_append, List.map_cons, List.map_nil, hreported, List.append_assoc,
        List.cons_append, List.nil_append]
      exact List.perm_middle.symm.append_left _
    · rcases List.mem_append.mp hw' with hw' | hw' <;> exact hlive w' (by simp [hw'])

theorem accounted_of_run (h : ReflTransGen (Step p workers) ⟨d, jobs, [], []⟩ s) :
    s.Accounted p d jobs := by
  induction h with
  | refl => exact accounted_start p d jobs
  | tail _ hstep ih => exact hstep.accounted ih

def remaining (p : Program) (s : Pool) : Nat :=
  (s.waiting.flatMap fun j => (j.files p).toOption.getD []).length + 2 * s.waiting.length +
    (s.running.flatMap (·.rest)).length + s.running.length

theorem Step.remaining_lt (h : s.Step p workers t) : t.remaining p < s.remaining p := by
  cases h with
  | start hfree =>
    simp only [remaining, List.flatMap_append, List.flatMap_cons, List.flatMap_nil,
      Work.begin_rest, List.length_append, List.length_cons, List.length_nil]
    omega
  | @write d _ _ _ w _ hrest =>
    have hlt := Work.next_rest_lt (d := d) hrest
    simp only [remaining, List.flatMap_append, List.flatMap_cons, List.length_append,
      List.length_cons]
    omega
  | finish hrest =>
    simp only [remaining, List.flatMap_append, List.flatMap_cons, List.length_append,
      List.length_cons]
    omega

theorem step_wellFounded (p : Program) (workers : Nat) :
    WellFounded fun t s : Pool => s.Step p workers t :=
  Subrelation.wf Step.remaining_lt (measure (remaining p)).wf

theorem stuck_iff (hw : 0 < workers) : (∀ t, ¬ s.Step p workers t) ↔ s.Finished := by
  obtain ⟨d, waiting, running, done⟩ := s
  constructor
  · intro hstuck
    cases running with
    | cons w right =>
      by_cases hrest : w.rest = []
      · exact absurd (@Step.finish p workers d waiting [] right w done hrest) (hstuck _)
      · exact absurd (@Step.write p workers d waiting [] right w done hrest) (hstuck _)
    | nil =>
      cases waiting with
      | nil => exact ⟨rfl, rfl⟩
      | cons j waiting => exact absurd (Step.start hw) (hstuck _)
  · rintro ⟨hwaiting, hrunning⟩ t h
    cases h <;> simp at hwaiting hrunning

theorem write_run (j : Job) (files : List SourceFile) (d : Disk) (r : JobResult)
    (hr : r.error = none) (waiting : List Job) (done : List (Job × JobResult)) :
    ReflTransGen (Step p workers) ⟨d, waiting, [⟨j, files, r⟩], done⟩
      ⟨(j.write files (d, r)).1, waiting, [⟨j, [], (j.write files (d, r)).2⟩], done⟩ := by
  induction files generalizing d r with
  | nil => exact .refl
  | cons f rest ih =>
    have hstep := @Step.write p workers d waiting [] [] ⟨j, f :: rest, r⟩ done
      (List.cons_ne_nil f rest)
    cases hq : d.place? (j.path f) with
    | some q =>
      rw [Work.next_of_place? (w := ⟨j, f :: rest, r⟩) rfl hr hq] at hstep
      rw [Job.write_of_place? hq]
      exact .head hstep (ih _ _ hr)
    | none =>
      obtain ⟨cause, log, hw⟩ := Job.write_of_no_place hq r
      rw [Work.next_of_error (w := ⟨j, f :: rest, r⟩) rfl (hw []) rfl] at hstep
      rw [hw rest]
      exact .single hstep

theorem job_run (hw : 0 < workers) (j : Job) (d : Disk) (waiting : List Job)
    (done : List (Job × JobResult)) : ReflTransGen (Step p workers) ⟨d, j :: waiting, [], done⟩
      ⟨(j.run p d).1, waiting, [], done ++ [(j, (j.run p d).2)]⟩ := by
  have hstart := @Step.start p workers d j waiting [] done hw
  have hwrite : ReflTransGen (Step p workers) ⟨d, waiting, [j.begin p d], done⟩
      ⟨(j.run p d).1, waiting, [⟨j, [], (j.run p d).2⟩], done⟩ := by
    unfold Job.begin Job.run
    cases hf : j.files p with
    | ok files => exact write_run j files d {} rfl waiting done
    | error e => exact .refl
  have hfinish := @Step.finish p workers (j.run p d).1 waiting [] [] ⟨j, [], (j.run p d).2⟩ done rfl
  exact .head hstart (hwrite.tail hfinish)

theorem runJobs_run (hw : 0 < workers) (jobs : List Job) (d : Disk)
    (done : List (Job × JobResult)) : ReflTransGen (Step p workers) ⟨d, jobs, [], done⟩
      ⟨(runJobs p d jobs).1, [], [], done ++ (runJobs p d jobs).2⟩ := by
  induction jobs generalizing d done with
  | nil => simpa [runJobs] using ReflTransGen.refl
  | cons j jobs ih =>
    have hrest := ih (j.run p d).1 (done ++ [(j, (j.run p d).2)])
    simpa [runJobs] using (job_run hw j d jobs done).trans hrest

theorem Accounted.finished (h : s.Accounted p d jobs) (hs : s.Finished) :
    (∃ written, s.disk = d.put written ∧ written.Perm (jobs.flatMap (·.effects p d))) ∧
      (s.done.map fun e => (e.1, e.2.outcome)).Perm
        (jobs.map fun j => (j, (j.run p d).2.outcome)) := by
  obtain ⟨⟨written, hdisk, hwrites⟩, hresults, -⟩ := h
  obtain ⟨hwaiting, hrunning⟩ := hs
  rw [hwaiting, hrunning] at hwrites hresults
  exact ⟨⟨written, hdisk, by simpa using hwrites⟩, by simpa using hresults⟩

end Pool

def Setup.paths (p : Program) (s : Setup) : List String :=
  s.jobs.flatMap fun j => (j.run p s.disk).2.paths

def Setup.Apart (p : Program) (s : Setup) : Prop := ((s.paths p).map s.disk.place?).Nodup

/-- A run has done what its jobs do, each on its own, once the directories are set up. -/
structure Setup.Delivered (p : Program) (s : Setup) (d : Disk) (r : Report) : Prop where
  files_sorted : r.files.Pairwise (· ≤ ·)
  files : r.files.Perm (s.paths p)
  removed : r.removed = s.removed
  failed_sorted : r.failed.Pairwise (· ≤ ·)
  failed : r.failed.Perm
    ((s.jobs.filter fun j => (j.run p s.disk).2.error.isSome).map (·.name))
  errors : (r.errors.map fun e => (e.1, e.2.origin)).Perm
    (s.jobs.filterMap fun j => (j.run p s.disk).2.error.map fun e => (j.name, e.origin))
  kept : ∀ path ∈ r.files, ∃ content, d.readFile path = .ok content
  contents : s.Apart p → ∀ j ∈ s.jobs, ∀ path ∈ (j.run p s.disk).2.paths,
    d.readFile path = (j.run p s.disk).1.readFile path
  untouched : ∀ q, (∀ path ∈ s.paths p, s.disk.place? path ≠ some q) →
    d.tree.get? q = s.disk.tree.get? q

theorem sorted_mergeSort (l : List String) : (l.mergeSort (· ≤ ·)).Pairwise (· ≤ ·) := by
  have h := @List.pairwise_mergeSort String (fun a b => decide (a ≤ b))
    (fun a b c => by simpa using String.le_trans) (fun a b => by simpa using String.le_total a b) l
  simpa using h

theorem eq_of_sorted {l l' : List String} (hl : l.Pairwise (· ≤ ·)) (hl' : l'.Pairwise (· ≤ ·))
    (h : l.Perm l') : l = l' :=
  h.eq_of_pairwise (fun _ _ _ _ => String.le_antisymm) hl hl'

/-- A report depends on what has become of the jobs, and not on the order of their results. -/
theorem report_outcomes {results : List (Job × JobResult)} {jobs : List Job}
    {alone : Job → JobResult} (h : (results.map fun e => (e.1, e.2.outcome)).Perm
      (jobs.map fun j => (j, (alone j).outcome))) (n : Nat) :
    (report n results).files.Perm (jobs.flatMap fun j => (alone j).paths) ∧
      ((report n results).errors.map fun e => (e.1, e.2.origin)).Perm
        (jobs.filterMap fun j => (alone j).error.map fun e => (j.name, e.origin)) := by
  constructor
  · refine (List.mergeSort_perm _ _).trans ?_
    have hpaths := h.flatMap_right fun e => e.2.1
    rwa [List.flatMap_map, List.flatMap_map] at hpaths
  · have herrors := h.filterMap fun e => e.2.2.map fun o => (e.1.name, o)
    simpa [report, List.map_filterMap, List.filterMap_map, JobResult.outcome,
      Function.comp_def] using herrors

theorem failing_names (jobs : List Job) (error : Job → Option JobError) :
    (jobs.filterMap fun j => (error j).map fun e => (j.name, e.origin)).map (·.1) =
      (jobs.filter fun j => (error j).isSome).map (·.name) := by
  induction jobs with
  | nil => rfl
  | cons j jobs ih => cases hj : error j <;> simp [hj, ih]

section Finished

variable {p : Program} {workers : Nat} {s : Setup} {t t' : Pool}

theorem Setup.apart_iff :
    s.Apart p ↔ ((s.jobs.flatMap (·.effects p s.disk)).map (·.place)).Nodup := by
  have hplaces : (s.paths p).map s.disk.place? =
      ((s.jobs.flatMap (·.effects p s.disk)).map (·.place)).map some := by
    simp only [Setup.paths, List.map_flatMap]
    refine List.flatMap_congr fun j _ => ?_
    rw [Job.run_paths, List.map_map, List.map_map]
    exact List.map_congr_left fun w hw => Job.effects_place? hw
  rw [Setup.Apart, hplaces, List.nodup_map_iff fun _ _ => Option.some.inj]

theorem Setup.apart_of_paths (rooted : Bool)
    (hplain : ∀ path ∈ s.paths p, isRooted path.toList = rooted ∧ ".." ∉ partsOf path)
    (hnd : (s.paths p).Nodup) : s.Apart p := by
  have hplaced : ∀ path ∈ s.paths p, ∃ q paths,
      s.disk.place? path = some q ∧ path = joinPath paths := by
    intro path hpath
    obtain ⟨j, -, hpath⟩ := List.mem_flatMap.mp hpath
    rw [Job.run_paths] at hpath
    obtain ⟨w, hw, rfl⟩ := List.mem_map.mp hpath
    obtain ⟨f, -, hf⟩ := Job.writes_path hw
    exact ⟨w.place, _, Job.effects_place? hw, hf⟩
  refine hnd.map_on fun path hpath path' hpath' he => ?_
  obtain ⟨hroot, hup⟩ := hplain path hpath
  obtain ⟨hroot', hup'⟩ := hplain path' hpath'
  obtain ⟨q, paths, hq, rfl⟩ := hplaced path hpath
  obtain ⟨q', paths', hq', rfl⟩ := hplaced path' hpath'
  exact Disk.joinPath_eq_of_place? hq (he ▸ hq) (hroot.trans hroot'.symm) hup hup'

section Written

variable {written : List Write}
  (hwritten : written.Perm (s.jobs.flatMap (·.effects p s.disk)))

include hwritten

theorem written_place? {w : Write} (hw : w ∈ written) : s.disk.place? w.path = some w.place := by
  obtain ⟨j, -, hj⟩ := List.mem_flatMap.mp (hwritten.subset hw)
  exact Job.effects_place? hj

theorem exists_written {j : Job} (hj : j ∈ s.jobs) {path : String}
    (hpath : path ∈ (j.run p s.disk).2.paths) :
    ∃ w ∈ j.effects p s.disk, w ∈ written ∧ w.path = path := by
  rw [Job.run_paths] at hpath
  obtain ⟨w, hw, rfl⟩ := List.mem_map.mp hpath
  exact ⟨w, hw, hwritten.symm.subset (List.mem_flatMap.mpr ⟨j, hj, hw⟩), rfl⟩

theorem readFile_written {path : String} (hpath : path ∈ s.paths p) :
    ∃ content, (s.disk.put written).readFile path = .ok content := by
  obtain ⟨j, hj, hpath⟩ := List.mem_flatMap.mp hpath
  obtain ⟨w, -, hw, rfl⟩ := exists_written hwritten hj hpath
  exact Disk.readFile_put (fun w => written_place? hwritten) hw

theorem readFile_alone (hapart : s.Apart p) {j : Job} (hj : j ∈ s.jobs) {path : String}
    (hpath : path ∈ (j.run p s.disk).2.paths) :
    (s.disk.put written).readFile path = (j.run p s.disk).1.readFile path := by
  rw [Setup.apart_iff] at hapart
  have hall := (hwritten.map (·.place)).nodup_iff.mpr hapart
  rw [List.map_flatMap] at hapart
  have hown := (List.nodup_flatMap.mp hapart).1 j hj
  obtain ⟨w, hwj, hw, rfl⟩ := exists_written hwritten hj hpath
  rw [Job.run_disk, Disk.readFile_put_of_nodup (fun w => written_place? hwritten) hall hw,
    Disk.readFile_put_of_nodup (fun w => Job.effects_place?) hown hwj]

theorem get?_unwritten {q : Place} (hq : ∀ path ∈ s.paths p, s.disk.place? path ≠ some q) :
    (s.disk.put written).tree.get? q = s.disk.tree.get? q := by
  refine Disk.get?_put_of_notMem fun w hw he => ?_
  have hplace := written_place? hwritten hw
  obtain ⟨j, hj, hown⟩ := List.mem_flatMap.mp (hwritten.subset hw)
  refine hq w.path (List.mem_flatMap.mpr ⟨j, hj, ?_⟩) (he ▸ hplace)
  rw [Job.run_paths]
  exact List.mem_map_of_mem hown

end Written

theorem Pool.delivered (hrun : ReflTransGen (Pool.Step p workers) ⟨s.disk, s.jobs, [], []⟩ t)
    (ht : t.Finished) : s.Delivered p t.disk (report s.removed t.done) := by
  obtain ⟨⟨written, hdisk, hwritten⟩, hresults⟩ := (Pool.accounted_of_run hrun).finished ht
  obtain ⟨hfiles, herrors⟩ := report_outcomes hresults s.removed
  have hfailed : (report s.removed t.done).failed.Perm
      (((report s.removed t.done).errors.map fun e => (e.1, e.2.origin)).map (·.1)) := by
    rw [List.map_map]
    exact List.mergeSort_perm _ _
  rw [hdisk]
  refine ⟨sorted_mergeSort _, hfiles, rfl, sorted_mergeSort _, ?_, herrors,
    fun path hpath => readFile_written hwritten (hfiles.subset hpath),
    fun hapart j hj path => readFile_alone hwritten hapart hj,
    fun q => get?_unwritten hwritten⟩
  rw [← failing_names]
  exact hfailed.trans (herrors.map _)

theorem Setup.Delivered.agree {d d' : Disk} {r r' : Report} (h : s.Delivered p d r)
    (h' : s.Delivered p d' r') : r.files = r'.files ∧ r.removed = r'.removed ∧
      r.failed = r'.failed ∧ (r.errors.map fun e => (e.1, e.2.origin)).Perm
        (r'.errors.map fun e => (e.1, e.2.origin)) := by
  refine ⟨eq_of_sorted h.files_sorted h'.files_sorted (h.files.trans h'.files.symm),
    h.removed.trans h'.removed.symm, ?_, h.errors.trans h'.errors.symm⟩
  exact eq_of_sorted h.failed_sorted h'.failed_sorted (h.failed.trans h'.failed.symm)

theorem Pool.same_contents (hrun : ReflTransGen (Pool.Step p workers) ⟨s.disk, s.jobs, [], []⟩ t)
    (ht : t.Finished)
    (hrun' : ReflTransGen (Pool.Step p workers) ⟨s.disk, s.jobs, [], []⟩ t') (ht' : t'.Finished)
    (hapart : s.Apart p) (q : Place) : t.disk.tree.get? q = t'.disk.tree.get? q := by
  obtain ⟨⟨written, hdisk, hwritten⟩, -⟩ := (Pool.accounted_of_run hrun).finished ht
  obtain ⟨⟨written', hdisk', hwritten'⟩, -⟩ := (Pool.accounted_of_run hrun').finished ht'
  rw [hdisk, hdisk']
  refine Disk.get?_put_perm (hwritten.trans hwritten'.symm) ?_ (fun w hw => ?_) q
  · exact (hwritten.map _).nodup_iff.mpr (Setup.apart_iff.mp hapart)
  · exact (Disk.locate_of_place? (written_place? hwritten hw)).1

end Finished

section Jobs

variable {p : Program} {home : Home} {options : Options} {root : String} {s : Setup}

theorem add_jobs {target : Backend × String}
    (h : (s.add p home options root target).error = none) :
    ∃ dir, home (joinPath [root, target.2]) = .ok dir ∧
      (s.add p home options root target).jobs = s.jobs ++ jobsFor p target.1 dir := by
  unfold Setup.add at h ⊢
  split at h
  · next herror => simp [h] at herror
  · next herror =>
    rw [if_neg herror]
    split at h
    · cases h
    · next d dir hprepare =>
      refine ⟨dir, (prepareDirectory_cases hprepare).1, ?_⟩
      dsimp only
      split <;> rfl

theorem add_all_jobs (targets : List (Backend × String))
    (h : (targets.foldl (Setup.add p home options root) s).error = none) :
    ∃ dirs, List.Forall₂ (fun t dir => home (joinPath [root, t.2]) = .ok dir) targets dirs ∧
      (targets.foldl (Setup.add p home options root) s).jobs =
        s.jobs ++ (targets.zip dirs).flatMap fun t => jobsFor p t.1.1 t.2 := by
  induction targets generalizing s with
  | nil => exact ⟨[], .nil, by simp⟩
  | cons target targets ih =>
    rw [List.foldl_cons] at h ⊢
    have hone : (s.add p home options root target).error = none := by
      by_contra herror
      have hsome := Option.isSome_iff_ne_none.mpr herror
      rw [add_of_error hsome] at h
      exact herror h
    obtain ⟨dir, hdir, hjobs⟩ := add_jobs hone
    obtain ⟨dirs, hdirs, hrest⟩ := ih h
    exact ⟨dir :: dirs, .cons hdir hdirs, by simp [hrest, hjobs]⟩

end Jobs

end Generate

namespace Program

open Generate

variable {p : Program} {home : Home} {options : Options} {targets : List (Backend × String)}
  {workers : Nat} {d : Disk}

/-- With some number of workers, a run may leave this disk and come to this result. -/
inductive Ends (p : Program) (home : Home) (options : Options)
    (targets : List (Backend × String)) (workers : Nat) (d : Disk) :
    Disk → Except DirectoryError Report → Prop
  | refused {e : DirectoryError} (h : (setUp p home options targets d).error = some e) :
      Ends p home options targets workers d (setUp p home options targets d).disk (.error e)
  | finished {t : Pool} (h : (setUp p home options targets d).error = none)
      (hrun : ReflTransGen (Pool.Step p workers)
        ⟨(setUp p home options targets d).disk, (setUp p home options targets d).jobs, [], []⟩ t)
      (ht : t.Finished) :
      Ends p home options targets workers d t.disk
        (.ok (report (setUp p home options targets d).removed t.done))

/-- It does not matter in which order workers get on. Every target has a job for each class, and one
for the program as a whole if its backend has files for that. -/
structure ScheduleFree (p : Program) (home : Home) (options : Options)
    (targets : List (Backend × String)) (workers : Nat) (d : Disk) : Prop where
  generate : p.Ends home options targets workers d (p.generate home options targets d).disk
    (p.generate home options targets d).result
  jobs : (setUp p home options targets d).error = none → ∃ root dirs,
    home options.outDir = .ok root ∧
    List.Forall₂ (fun t dir => home (joinPath [root, t.2]) = .ok dir) targets dirs ∧
    (setUp p home options targets d).jobs =
      (targets.zip dirs).flatMap fun t => jobsFor p t.1.1 t.2
  /-- No run goes on for ever, and none stops before every job has reported. -/
  finite : WellFounded fun t s : Pool => s.Step p workers t
  progress : ∀ s : Pool, (∀ t, ¬ s.Step p workers t) ↔ s.Finished
  refused : ∀ d' e, p.Ends home options targets workers d d' (.error e) →
    (p.generate home options targets d).result = .error e ∧
      (p.generate home options targets d).disk = d'
  delivered : ∀ d' r, p.Ends home options targets workers d d' (.ok r) →
    (setUp p home options targets d).Delivered p d' r
  /-- Different paths lead to different places, if they all begin alike and are not led upwards. -/
  apart : ∀ rooted, (∀ path ∈ (setUp p home options targets d).paths p,
      isRooted path.toList = rooted ∧ ".." ∉ partsOf path) →
    ((setUp p home options targets d).paths p).Nodup → (setUp p home options targets d).Apart p
  same : ∀ d' r, p.Ends home options targets workers d d' (.ok r) →
    ∃ r', (p.generate home options targets d).result = .ok r' ∧
      r.files = r'.files ∧ r.removed = r'.removed ∧ r.failed = r'.failed ∧
      (r.errors.map fun e => (e.1, e.2.origin)).Perm (r'.errors.map fun e => (e.1, e.2.origin)) ∧
      ((setUp p home options targets d).Apart p →
        ∀ q, d'.tree.get? q = (p.generate home options targets d).disk.tree.get? q)

theorem setUp_jobs (h : (setUp p home options targets d).error = none) : ∃ root dirs,
    home options.outDir = .ok root ∧
    List.Forall₂ (fun t dir => home (joinPath [root, t.2]) = .ok dir) targets dirs ∧
    (setUp p home options targets d).jobs =
      (targets.zip dirs).flatMap fun t => jobsFor p t.1.1 t.2 := by
  unfold setUp at h ⊢
  cases hprepare : prepareDirectory home d options.outDir with
  | error e => simp [hprepare] at h
  | ok made =>
    obtain ⟨d, root⟩ := made
    simp only [hprepare] at h ⊢
    obtain ⟨dirs, hdirs, hjobs⟩ := add_all_jobs targets h
    exact ⟨root, dirs, (prepareDirectory_cases hprepare).1, hdirs, by simpa using hjobs⟩

theorem generate_scheduleFree (p : Program) (home : Home) (options : Options)
    (targets : List (Backend × String)) (workers : Nat) (hw : 0 < workers) (d : Disk) :
    p.ScheduleFree home options targets workers d := by
  have hdelivered : ∀ d' r, p.Ends home options targets workers d d' (.ok r) →
      (setUp p home options targets d).Delivered p d' r := by
    rintro d' r ⟨⟩
    next hrun ht => exact Pool.delivered hrun ht
  refine ⟨?_, setUp_jobs, Pool.step_wellFounded p workers, fun s => Pool.stuck_iff hw, ?_,
    hdelivered, fun rooted => Setup.apart_of_paths rooted, ?_⟩
  · cases herror : (setUp p home options targets d).error with
    | some e =>
      obtain ⟨hdisk, hresult⟩ := generate_of_error herror
      rw [hdisk, hresult]
      exact .refused herror
    | none =>
      obtain ⟨hdisk, hresult⟩ := generate_of_jobs herror
      rw [hdisk, hresult]
      exact .finished herror (Pool.runJobs_run hw _ _ []) ⟨rfl, rfl⟩
  · rintro d' e ⟨⟩
    next herror => exact ⟨(generate_of_error herror).2, (generate_of_error herror).1⟩
  · rintro d' r ⟨⟩
    next t herror hrun ht =>
      obtain ⟨hdisk, hresult⟩ := generate_of_jobs herror
      have hrun' := Pool.runJobs_run (p := p) hw (setUp p home options targets d).jobs
        (setUp p home options targets d).disk []
      have hagree := (Pool.delivered hrun ht).agree (Pool.delivered hrun' ⟨rfl, rfl⟩)
      obtain ⟨hfiles, hremoved, hfailed, herrors⟩ := hagree
      refine ⟨_, hresult, hfiles, hremoved, hfailed, herrors, fun hapart q => ?_⟩
      rw [hdisk]
      exact Pool.same_contents hrun ht hrun' ⟨rfl, rfl⟩ hapart q

end Program

namespace Delivery

open Generate

/-- A backend that has nothing to say of a program as a whole, and refuses one class. -/
def plain : Backend where
  name := "plain"
  classFiles p := if p.name = "Probe" then .error "boom" else .ok [⟨p.name ++ ".txt", p.name⟩]
  moduleFiles? := none

def home : Home := .of (.error "no home")

def options : Options := { outDir := "out" }

def targets : List (Backend × String) := [(Target.python.backend, "py"), (plain, "plain")]

def disk : Disk where
  tree := ⟨[(["work"], .directory), (["work", "out"], .directory),
    (["work", "out", "py"], .directory), (["work", "out", "py", "Beacon.py"], .file "")]⟩
  current := ["work"]

def setup : Setup := setUp Telemetry.program home options targets disk

theorem setup_evaluated : setup.error = none ∧
    setup.paths Telemetry.program =
      ["out/py/Beacon.py", "out/py/__init__.py", "out/plain/Beacon.txt"] ∧
    (setup.jobs.filter fun j => (j.run Telemetry.program setup.disk).2.error.isSome).map (·.name) =
      ["python:Probe", "plain:Probe"] := by
  decide +kernel

end Delivery

theorem delivery_scheduleFree :
    (∃ d r, Telemetry.program.Ends Delivery.home Delivery.options Delivery.targets 2 Delivery.disk d
      (.ok r)) ∧
    ∀ d r, Telemetry.program.Ends Delivery.home Delivery.options Delivery.targets 2 Delivery.disk d
        (.ok r) →
      r.files = ["out/plain/Beacon.txt", "out/py/Beacon.py", "out/py/__init__.py"] ∧
      r.failed = ["plain:Probe", "python:Probe"] ∧
      (∀ path ∈ r.files, ∃ content, d.readFile path = .ok content) ∧
      ∀ q, d.tree.get? q = (Telemetry.program.generate Delivery.home Delivery.options
        Delivery.targets Delivery.disk).disk.tree.get? q := by
  obtain ⟨herror, hpaths, hfailed⟩ := Delivery.setup_evaluated
  have hfree := Program.generate_scheduleFree Telemetry.program Delivery.home Delivery.options
    Delivery.targets 2 (by decide) Delivery.disk
  have hapart : Delivery.setup.Apart Telemetry.program := by
    refine hfree.apart false ?_ ?_
    · show ∀ path ∈ Delivery.setup.paths Telemetry.program, _
      rw [hpaths]
      decide +kernel
    · show (Delivery.setup.paths Telemetry.program).Nodup
      rw [hpaths]
      decide
  have hgenerate := hfree.generate
  rw [(Program.generate_of_jobs herror).2] at hgenerate
  refine ⟨⟨_, _, hgenerate⟩, fun d r hends => ?_⟩
  have hdelivered := hfree.delivered d r hends
  obtain ⟨r', -, -, -, -, -, hcontents⟩ := hfree.same d r hends
  have hfiles := hdelivered.files.trans (.of_eq hpaths)
  have hnames := hdelivered.failed.trans (.of_eq hfailed)
  exact ⟨Generate.eq_of_sorted hdelivered.files_sorted (by decide) (hfiles.trans (by decide)),
    Generate.eq_of_sorted hdelivered.failed_sorted (by decide) (hnames.trans (by decide)),
    hdelivered.kept, hcontents hapart⟩

end PduCompiler
