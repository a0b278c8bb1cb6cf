import PduCompiler.Files.Disk
import PduCompiler.Target

/-!
Generation of all files of a program. Directories are set up first, and a problem there ends the
run; after that every class and every module is a job of its own, and a failing job leaves the
others alone.
-/

namespace PduCompiler

open Files

inductive DirectoryError where
  | notExpanded (path reason : String)
  | notDirectory (path : String)
  | notCreated (path : String) (error : FileError)
  | notFound (path : String) (error : FileError)
  | notRead (path : String) (error : FileError)
  | notRemoved (path : String) (error : FileError)
  deriving DecidableEq, Repr

namespace DirectoryError

def message : DirectoryError → String
  | notExpanded path reason => s!"error expanding '{path}': {reason}"
  | notDirectory path => s!"output path '{path}' is not a directory"
  | notCreated path e => s!"could not create output directory '{path}': {e.message}"
  | notFound path e => s!"could not stat '{path}': {e.message}"
  | notRead path e => s!"could not read '{path}': {e.message}"
  | notRemoved path e => s!"could not remove '{path}': {e.message}"

def fileError? : DirectoryError → Option FileError
  | notExpanded _ _ => none
  | notDirectory _ => none
  | notCreated _ e => some e
  | notFound _ e => some e
  | notRead _ e => some e
  | notRemoved _ e => some e

end DirectoryError

namespace Generate

def prepareDirectory (home : Home) (d : Disk) (path : String) :
    Except DirectoryError (Disk × String) :=
  match home path with
  | .error reason => .error (.notExpanded path reason)
  | .ok path =>
    match d.stat path with
    | .ok .directory => .ok (d, path)
    | .ok (.file _) => .error (.notDirectory path)
    | .error e =>
      if e.cause = .missing then
        match d.makeDirectories path with
        | .ok d => .ok (d, path)
        | .error e => .error (.notCreated path e)
      else .error (.notFound path e)

def leftBy (d : Disk) : DirectoryError → Disk
  | .notCreated path _ => d.madeTowards path
  | _ => d

def reservedNames : List String := [".keep", "README.md"]

structure Cleaned where
  disk : Disk
  removed : List String := []
  error : Option DirectoryError := none

def cleanDirectory (d : Disk) (path : String) : Cleaned :=
  match d.readDirectory path with
  | .error e => { disk := d, error := some (.notRead path e) }
  | .ok entries =>
    let stale := entries.filterMap fun (name, e) =>
      if e = .directory || reservedNames.contains name then none else some (joinPath [path, name])
    stale.foldl remove { disk := d }
where
  remove (c : Cleaned) (file : String) : Cleaned :=
    if c.error.isSome then c
    else
      match c.disk.removeFile file with
      | .ok d => { c with disk := d, removed := c.removed ++ [file] }
      | .error e => { c with error := some (.notRemoved file e) }

def removedEntry (path : String) : LogEntry :=
  { level := .debug, message := "removed stale file", fields := [("path", path)] }

/-- A class, or the program as a whole where there are files for that. -/
inductive Subject where
  | plan (plan : ClassPlan)
  | whole (files : Program → Except String (List SourceFile))

def Subject.name : Subject → String
  | plan p => p.name
  | whole _ => "module"

structure Job where
  backend : Backend
  dir : String
  subject : Subject

def Job.name (j : Job) : String := s!"{j.backend.name}:{j.subject.name}"

inductive JobError where
  | notRendered (reason : String)
  | notWritten (path : String) (error : FileError)
  deriving DecidableEq, Repr

def JobError.message : JobError → String
  | notRendered reason => reason
  | notWritten path e => s!"could not write '{path}': {e.message}"

structure JobResult where
  paths : List String := []
  error : Option JobError := none
  log : List LogEntry := []
  deriving DecidableEq, Repr

def Job.files (j : Job) (p : Program) : Except String (List SourceFile) :=
  match j.subject with
  | .plan plan => j.backend.classFiles plan
  | .whole files => files p

def Job.write (j : Job) : List SourceFile → Disk × JobResult → Disk × JobResult
  | [], acc => acc
  | f :: rest, (d, r) =>
    let path := joinPath [j.dir, f.name]
    let about := [("backend", j.backend.name), ("class", j.subject.name)]
    match d.writeFile path f.content with
    | .ok d =>
      let wrote : LogEntry := ⟨.debug, "wrote file", about ++ [("path", path)]⟩
      j.write rest (d, { r with paths := r.paths ++ [path], log := r.log ++ [wrote] })
    | .error e =>
      let error := JobError.notWritten path e
      let failed : LogEntry :=
        ⟨.error, "write failed", about ++ [("file", f.name), ("error", error.message)]⟩
      (d, { r with error := some error, log := r.log ++ [failed] })

def Job.run (p : Program) (d : Disk) (j : Job) : Disk × JobResult :=
  match j.files p with
  | .ok files => j.write files (d, {})
  | .error reason =>
    let failed : LogEntry := ⟨.error, "render failed",
      [("backend", j.backend.name), ("class", j.subject.name), ("error", reason)]⟩
    (d, { error := some (.notRendered reason), log := [failed] })

def runJobs (p : Program) (d : Disk) : List Job → Disk × List (Job × JobResult)
  | [] => (d, [])
  | j :: rest =>
    let (d, result) := j.run p d
    let (d, results) := runJobs p d rest
    (d, (j, result) :: results)

structure Report where
  files : List String
  removed : Nat
  failed : List String
  errors : List (String × JobError)
  deriving DecidableEq, Repr

def Report.errorMessages (r : Report) : List String :=
  r.errors.map fun (name, e) => s!"{name}: {e.message}"

def report (removed : Nat) (results : List (Job × JobResult)) : Report :=
  let errors := results.filterMap fun (j, r) => r.error.map (j.name, ·)
  { files := (results.flatMap fun (_, r) => r.paths).mergeSort (· ≤ ·)
    removed
    failed := (errors.map (·.1)).mergeSort (· ≤ ·)
    errors }

def finished (r : Report) : LogEntry :=
  ⟨.info, "generation finished", [("files", toString r.files.length),
    ("removed", toString r.removed), ("failed", toString r.failed.length)]⟩

structure Options where
  outDir : String := ""
  clean : Bool := false
  deriving DecidableEq, Repr

structure Setup where
  disk : Disk
  jobs : List Job := []
  removed : Nat := 0
  log : List LogEntry := []
  error : Option DirectoryError := none

def jobsFor (p : Program) (b : Backend) (dir : String) : List Job :=
  p.plans.map (⟨b, dir, .plan ·⟩) ++ b.moduleFiles?.toList.map (⟨b, dir, .whole ·⟩)

def Setup.add (p : Program) (home : Home) (options : Options) (root : String) (s : Setup)
    (target : Backend × String) : Setup :=
  if s.error.isSome then s
  else
    match prepareDirectory home s.disk (joinPath [root, target.2]) with
    | .error e => { s with disk := leftBy s.disk e, error := some e }
    | .ok (d, dir) =>
      let jobs := s.jobs ++ jobsFor p target.1 dir
      if options.clean then
        let cleaned := cleanDirectory d dir
        { disk := cleaned.disk
          jobs
          removed := s.removed + cleaned.removed.length
          log := s.log ++ cleaned.removed.map removedEntry
          error := cleaned.error }
      else { s with disk := d, jobs }

def setUp (p : Program) (home : Home) (options : Options) (targets : List (Backend × String))
    (d : Disk) : Setup :=
  match prepareDirectory home d options.outDir with
  | .error e => { disk := leftBy d e, error := some e }
  | .ok (d, root) => targets.foldl (Setup.add p home options root) { disk := d }

structure Outcome where
  disk : Disk
  log : List LogEntry
  result : Except DirectoryError Report

end Generate

open Generate in
def Program.generate (p : Program) (home : Home) (options : Options)
    (targets : List (Backend × String)) (d : Disk) : Outcome :=
  let s := setUp p home options targets d
  match s.error with
  | some e => ⟨s.disk, s.log, .error e⟩
  | none =>
    let (d, results) := runJobs p s.disk s.jobs
    let r := report s.removed results
    ⟨d, s.log ++ results.flatMap (fun (_, r) => r.log) ++ [finished r], .ok r⟩

end PduCompiler
