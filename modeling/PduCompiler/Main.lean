import PduCompiler.Command.Reach

/-!
The program. A run takes in the part of the disk that its command looks at, works on that, and then
carries over what has changed.
-/

namespace PduCompiler.Main

open Files Command

def pathOf (p : Place) : String := "/" ++ "/".intercalate p

def placeOf (current : Place) (path : String) : Place :=
  let whole := if isRooted path.toList then path else pathOf current ++ "/" ++ path
  (cleanParts whole.toList).map String.ofList

/-- The text of a file. What is not text becomes one that nobody can read. -/
def textOf (path : String) : IO String := do
  return (String.fromUTF8? (← IO.FS.readBinFile path)).getD "\x00"

def look (path : String) : IO (Option (Entry × List String)) := do
  try
    let real ← IO.FS.realPath path
    if ← real.isDir then
      return some (.directory, (← real.readDir).toList.map (·.fileName))
    return some (.file (← textOf path), [])
  catch _ => return none

def takeIn (t : FileTree) (above : Place) (names : List String) : List String → IO FileTree
  | [] => names.foldlM (fun t name => do
      match ← look (pathOf (above ++ [name])) with
      | some (e, _) => return t.set (above ++ [name]) e
      | none => return t) t
  | part :: rest => do
    match ← look (pathOf (above ++ [part])) with
    | some (e, names) => takeIn (t.set (above ++ [part]) e) (above ++ [part]) names rest
    | none => return t

/-- Takes in everything that a run reaches. Settings may name more once they are read, so this is
done twice. -/
def takeInReach (home : Home) (name : CommandName) (args : List String) (d : Disk) : IO Disk := do
  let more (d : Disk) : IO Disk := do
    let places := (name.reach home d args).map (placeOf d.current)
    return { d with tree := ← places.foldlM (fun t p => takeIn t [] [] p) d.tree }
  more (← more d)

/-- Carries over the difference between two states: files that are gone, then new directories from
the top down, then files. -/
def carryOver (old new : FileTree) : IO Unit := do
  for (p, _) in old.entries do
    if (new.get? p).isNone then IO.FS.removeFile (pathOf p)
  let changes := new.entries.filter fun (p, e) => old.get? p != some e
  for (p, e) in changes.mergeSort (fun a b => a.1.length ≤ b.1.length) do
    match e with
    | .directory => IO.FS.createDirAll (pathOf p)
    | .file _ => pure ()
  for (p, e) in changes do
    match e with
    | .directory => pure ()
    | .file content => IO.FS.writeFile (pathOf p) content

def runCommand (name : CommandName) (args : List String) : IO UInt32 := do
  let current := placeOf [] (← IO.currentDir).toString
  let dir := (← IO.getEnv "HOME").elim (.error "home directory is not set") .ok
  let home := Home.of dir
  let tree ← takeIn {} [] [] current
  let d ← takeInReach home name args { tree, current }
  let run := name.run home d args
  carryOver d.tree run.disk.tree
  for line in run.output do IO.println line
  for entry in run.log do IO.eprintln entry.text
  for line in run.complaints do IO.eprintln line
  return UInt32.ofNat run.exitCode

end PduCompiler.Main

def main (args : List String) : IO UInt32 := do
  match args with
  | [] =>
    let names := PduCompiler.Command.CommandName.all.map PduCompiler.Command.CommandName.text
    IO.eprintln ("commands: " ++ ", ".intercalate names)
    return 1
  | name :: rest =>
    match PduCompiler.Command.CommandName.ofText? name with
    | some command => PduCompiler.Main.runCommand command rest
    | none =>
      IO.eprintln s!"unknown command: {name}"
      return 1
