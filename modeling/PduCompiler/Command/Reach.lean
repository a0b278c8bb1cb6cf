import PduCompiler.Command.Generation
import PduCompiler.Command.Listing

/-!
The paths that a command looks at. Everything it reads, writes or removes lies on the way to one of
them or directly inside, so a run needs no more of a disk than that.
-/

namespace PduCompiler.Command

open Files

inductive CommandName where
  | list | generate
  deriving DecidableEq, Repr

namespace CommandName

def text : CommandName → String
  | list => Listing.commandName
  | generate => Generation.commandName

def all : List CommandName := [list, generate]

def ofText? (s : String) : Option CommandName := all.find? (·.text == s)

def run (home : Home) : CommandName → Disk → List String → Run
  | list => Command.list
  | generate => Command.generate home

/-- The paths that arguments name, and those of the settings as far as the disk tells them. -/
def named (home : Home) (d : Disk) (args : List String) : CommandName → List String
  | list =>
    match Arguments.read Listing.flags {} args with
    | .error _ => []
    | .ok a => a.rest.take 1
  | generate =>
    match Arguments.read Generation.flags {} args with
    | .error _ => []
    | .ok a =>
      let settings := [a.text "init", a.text "config", Generation.defaultConfigPath]
      match Generation.loadConfig home d (a.text "config") with
      | .error _ => settings
      | .ok config =>
        let c := Generation.override config a
        let dirs := c.targets.map fun t => joinPath [c.output, t.dir]
        settings ++ [c.input, c.output] ++ dirs

def reach (home : Home) (name : CommandName) (d : Disk) (args : List String) : List String :=
  ((name.named home d args).filter (· != "")).map fun path => (home path).toOption.getD path

end CommandName

end PduCompiler.Command
