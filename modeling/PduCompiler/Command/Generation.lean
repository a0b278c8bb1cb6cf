import PduCompiler.Command.Flags
import PduCompiler.Config
import PduCompiler.Registry.Seal
import PduCompiler.Schema.Document

/-! The command that generates the files of a description as its settings say. -/

namespace PduCompiler.Command

open Files

namespace Generation

def commandName : String := "pdugen"

def defaultConfigPath : String := "pdugen.toml"

def flags : List Flag := [
  ⟨"config", .text, "path to TOML config (default ./pdugen.toml if present)"⟩,
  ⟨"input", .text, "PDU description XML, overrides config input"⟩,
  ⟨"output", .text, "output directory, overrides config output"⟩,
  ⟨"clean", .switch, "delete stale files in backend directories first"⟩,
  ⟨"v", .switch, "development logging at debug level"⟩,
  ⟨"init", .text, "write a starter config to this path and exit"⟩]

/-- The settings of a file if one is named or there, and the defaults otherwise. -/
def loadConfig (home : Home) (d : Disk) (path : String) : Except LoadError Config :=
  if path != "" then Config.load home d path
  else if (d.stat defaultConfigPath).isOk then Config.load home d defaultConfigPath
  else .ok {}

def override (c : Config) (a : Arguments) : Config :=
  { c with
    input := if a.text "input" == "" then c.input else a.text "input"
    output := if a.text "output" == "" then c.output else a.text "output"
    clean := c.clean || a.isOn "clean" }

def targetsOf (c : Config) : Except UnknownTarget (List (Backend × String)) :=
  c.targets.mapM fun t => return ((← Target.ofName t.name t.package).backend, t.dir)

def failure (message : String) : LogEntry :=
  ⟨.error, "generation failed", [("error", message)]⟩

def logged (d : Disk) (log : List LogEntry) (messages : List String) : Run :=
  { disk := d, exitCode := 1, log := log ++ messages.map failure }

def reportLines (c : Config) (r : Generate.Report) : List String :=
  let names := " ".intercalate r.failed
  s!"Wrote {r.files.length} files to {c.output}" ::
    (if r.failed.isEmpty then [] else [s!"Failed: [{names}]"])

def produce (home : Home) (d : Disk) (c : Config) (log : List LogEntry) (p : Program) : Run :=
  match targetsOf c with
  | .error e => logged d log [e.message]
  | .ok targets =>
    let outcome := p.generate home { outDir := c.output, clean := c.clean } targets d
    let log := log ++ outcome.log
    match outcome.result with
    | .error e => logged outcome.disk log [e.message]
    | .ok report =>
      { logged outcome.disk log report.errorMessages with
        exitCode := if report.errors.isEmpty then 0 else 1
        output := reportLines c report }

def run (home : Home) (d : Disk) (c : Config) : Run :=
  match Registry.ofFile d c.input with
  | .error e => logged d [] [e.message]
  | .ok registry =>
    match registry.toSealed with
    | .error errors => logged d [] (errors.map SealError.message)
    | .ok registry =>
      let loaded : LogEntry := ⟨.info, "loaded classes",
        [("input", c.input), ("classes", toString registry.classes.length)]⟩
      match registry.planAll ⟨c.primitiveLists⟩ with
      | (log, .error e) => logged d (loaded :: log) e.messages
      | (log, .ok p) => produce home d c (loaded :: log) p

def start (d : Disk) (path : String) : Run :=
  match Config.writeTemplate d path false with
  | .error e => .failed d e.message
  | .ok d => { disk := d, output := [s!"Wrote config template to {path}"] }

def shown (c : Config) (verbose : Bool) (log : List LogEntry) : List LogEntry :=
  let least := if verbose then .debug else (LogLevel.ofName? c.logLevel).getD .info
  log.filter (·.level.covers least)

def ofArguments (home : Home) (d : Disk) (a : Arguments) : Run :=
  match loadConfig home d (a.text "config") with
  | .error e => .failed d e.message
  | .ok c =>
    let c := override c a
    if c.input == "" then
      .misused d s!"{commandName} [-config pdugen.toml] -input <file.xml> [-output dir] [-clean]"
    else
      let r := run home d c
      { r with log := shown c (a.isOn "v") r.log }

end Generation

open Generation in
def generate (home : Home) (d : Disk) (args : List String) : Run :=
  match Arguments.read flags {} args with
  | .error halt => .halted d commandName flags halt
  | .ok a =>
    let path := a.text "init"
    if path != "" then start d path else ofArguments home d a

end PduCompiler.Command
