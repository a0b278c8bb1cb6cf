import PduCompiler.Files.PathText
import PduCompiler.Files.Tree

/-!
Operations on files by their paths. A path is followed part by part from the root or from the
current directory; every part but the last has to be a directory.
-/

namespace PduCompiler.Files

inductive FileCause where
  | missing | notDirectory | isDirectory | alreadyThere | nameTooLong | invalid
  deriving DecidableEq, Repr

def FileCause.message : FileCause → String
  | missing => "no such file or directory"
  | notDirectory => "not a directory"
  | isDirectory => "is a directory"
  | alreadyThere => "file exists"
  | nameTooLong => "file name too long"
  | invalid => "invalid argument"

structure FileError where
  op : String
  path : String
  cause : FileCause
  deriving DecidableEq, Repr

def FileError.message (e : FileError) : String := s!"{e.op} {e.path}: {e.cause.message}"

structure Disk where
  tree : FileTree := {}
  current : Place := []
  deriving DecidableEq, Repr

inductive Located where
  | found (p : Place) (e : Entry)
  | vacant (p : Place)
  deriving DecidableEq, Repr

def maxNameLength : Nat := 255

def maxPathLength : Nat := 4096

/-- The parts of a path. A slash at its end asks for a directory as a dot does. -/
def partsOf (path : String) : List String :=
  let parts := splitSlashes path.toList
  let isOpen := parts.getLast? = some [] && 1 < parts.length
  ((parts.filter (· ≠ [])) ++ (if isOpen then [dot] else [])).map String.ofList

namespace Disk

def follow (t : FileTree) (here : Place) : List String → Except FileCause Located
  | [] => .ok (.found here .directory)
  | part :: rest =>
    if part == "." then follow t here rest
    else if part == ".." then follow t here.dropLast rest
    else if maxNameLength < part.utf8ByteSize then .error .nameTooLong
    else
      let there := here ++ [part]
      match t.get? there with
      | none => if rest.isEmpty then .ok (.vacant there) else .error .missing
      | some .directory => follow t there rest
      | some (.file s) =>
        if rest.isEmpty then .ok (.found there (.file s)) else .error .notDirectory

/-- Where a path leads. No path has a zero character. -/
def locate (d : Disk) (path : String) : Except FileCause Located :=
  if path.toList.any (·.toNat == 0) then .error .invalid
  else if path == "" then .error .missing
  else if maxPathLength ≤ path.utf8ByteSize then .error .nameTooLong
  else follow d.tree (if isRooted path.toList then [] else d.current) (partsOf path)

def stat (d : Disk) (path : String) : Except FileError Entry :=
  match d.locate path with
  | .ok (.found _ e) => .ok e
  | .ok (.vacant _) => .error ⟨"stat", path, .missing⟩
  | .error cause => .error ⟨"stat", path, cause⟩

def isDirectory (d : Disk) (path : String) : Bool := (d.stat path).toOption = some .directory

def withoutEndSlashes (path : String) : String :=
  let s := path.toList
  let kept := (s.reverse.dropWhile (· = '/')).reverse
  if kept.isEmpty then path else String.ofList kept

def makeDirectory (d : Disk) (path : String) : Except FileError Disk :=
  match d.locate (withoutEndSlashes path) with
  | .ok (.found _ _) => .error ⟨"mkdir", path, .alreadyThere⟩
  | .ok (.vacant p) => .ok { d with tree := d.tree.set p .directory }
  | .error cause => .error ⟨"mkdir", path, cause⟩

def prefixes (path : String) : List String :=
  (go [] path.toList).map String.ofList
where
  go (done : List Char) : List Char → List (List Char)
    | [] => if done.isEmpty || done.head? = some '/' then [] else [done.reverse]
    | c :: rest =>
      if c = '/' && rest.head? ≠ some '/' then (c :: done).reverse :: go (c :: done) rest
      else go (c :: done) rest

def ensureDirectory (d : Disk) (path : String) : Except FileError Disk :=
  match d.stat path with
  | .ok .directory => .ok d
  | .ok (.file _) => .error ⟨"mkdir", path, .notDirectory⟩
  | .error _ =>
    match d.makeDirectory path with
    | .ok d => .ok d
    | .error e => if d.isDirectory path then .ok d else .error e

def makeDirectories (d : Disk) (path : String) : Except FileError Disk :=
  match prefixes path with
  | [] => d.ensureDirectory path
  | all => all.foldlM ensureDirectory d

def makeWhilePossible (d : Disk) : List String → Disk
  | [] => d
  | path :: rest =>
    match d.ensureDirectory path with
    | .ok d => d.makeWhilePossible rest
    | .error _ => d

/-- What there is once directories could not be made: those on the way that could be stay. -/
def madeTowards (d : Disk) (path : String) : Disk := d.makeWhilePossible (prefixes path)

/-- Writes a file, a new one or over an old one. A slash at the end asks for a directory. -/
def writeFile (d : Disk) (path content : String) : Except FileError Disk :=
  let put (p : Place) : Disk := { d with tree := d.tree.set p (.file content) }
  match d.locate path with
  | .ok (.found _ .directory) => .error ⟨"open", path, .isDirectory⟩
  | .ok (.found p (.file _)) => .ok (put p)
  | .ok (.vacant p) => .ok (put p)
  | .error cause =>
    match d.locate (withoutEndSlashes path) with
    | .ok (.vacant _) => .error ⟨"open", path, .isDirectory⟩
    | _ => .error ⟨"open", path, cause⟩

def readFile (d : Disk) (path : String) : Except FileError String :=
  match d.locate path with
  | .ok (.found _ (.file content)) => .ok content
  | .ok (.found _ .directory) => .error ⟨"read", path, .isDirectory⟩
  | .ok (.vacant _) => .error ⟨"open", path, .missing⟩
  | .error cause => .error ⟨"open", path, cause⟩

def readDirectory (d : Disk) (path : String) : Except FileError (List (String × Entry)) :=
  match d.locate path with
  | .ok (.found p .directory) =>
    .ok ((d.tree.names p).filterMap fun name => (d.tree.get? (p ++ [name])).map (name, ·))
  | .ok (.found _ (.file _)) => .error ⟨"open", path, .notDirectory⟩
  | .ok (.vacant _) => .error ⟨"open", path, .missing⟩
  | .error cause => .error ⟨"open", path, cause⟩

def removeFile (d : Disk) (path : String) : Except FileError Disk :=
  match d.locate path with
  | .ok (.found p _) => .ok { d with tree := d.tree.erase p }
  | .ok (.vacant _) => .error ⟨"remove", path, .missing⟩
  | .error cause => .error ⟨"remove", path, cause⟩

/-- Everything below a directory, by path and sorted; nothing if it is not there. -/
def listing (d : Disk) (path : String) : List (String × Entry) :=
  match d.locate path with
  | .ok (.found p .directory) =>
    let all := (d.tree.below p).map fun (q, e) =>
      let name := joinPath (path :: q)
      (if e = .directory then name ++ "/" else name, e)
    all.mergeSort fun a b => a.1 ≤ b.1
  | _ => []

end Disk

end PduCompiler.Files
