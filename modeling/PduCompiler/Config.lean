import PduCompiler.Files.Disk
import PduCompiler.Generate
import PduCompiler.Toml.Document

/-!
The settings of a run. They are read from a TOML file on top of the defaults; keys that are not
known are refused, and so are settings that no run can use.
-/

namespace PduCompiler

open Files Text

structure TargetConfig where
  name : String := ""
  dir : String := ""
  package : String := ""
  deriving DecidableEq, Repr

structure Config where
  input : String := ""
  output : String := "./generated"
  clean : Bool := false
  /-- How many jobs may run at a time; as many as there are processors if it is not set. -/
  workers : Option Int := none
  logLevel : String := "info"
  primitiveLists : Bool := false
  targets : List TargetConfig :=
    [⟨"objc", "objc", ""⟩, ⟨"python", "python", ""⟩, ⟨"go", "go", "pdu"⟩]
  deriving DecidableEq, Repr

inductive ConfigError where
  | noOutput
  | workers (n : Int)
  | logLevel (level : String)
  | noTarget
  | unnamedTarget
  | sharedDirectory (first second dir : String)
  deriving DecidableEq, Repr

def ConfigError.message : ConfigError → String
  | noOutput => "output directory is required"
  | workers n => s!"workers must be at least 1, got {n}"
  | logLevel level => s!"unknown log_level {quote level}"
  | noTarget => "at least one backend is required"
  | unnamedTarget => "backend without name"
  | sharedDirectory first second dir => s!"backends {first} and {second} share dir {quote dir}"

namespace Config

/-- The problems of targets, given the directories of those before and who used them last. -/
def targetErrors (used : Table String) : List TargetConfig → List ConfigError
  | [] => []
  | t :: rest =>
    if t.name == "" then .unnamedTarget :: targetErrors used rest
    else
      let shared := match used.get? t.dir with
        | some other => [ConfigError.sharedDirectory other t.name t.dir]
        | none => []
      shared ++ targetErrors (used.set t.dir t.name) rest

def problems (c : Config) : List ConfigError :=
  (if c.output == "" then [.noOutput] else []) ++
  ((c.workers.filter (· < 1)).toList.map .workers) ++
  (if (LogLevel.ofName? c.logLevel).isSome then [] else [.logLevel c.logLevel]) ++
  (if c.targets.isEmpty then [.noTarget] else []) ++
  targetErrors [] c.targets

end Config

inductive LoadError where
  | notExpanded (reason : String)
  | unreadable (error : FileError)
  | malformed
  | unknownKeys (keys : List Toml.Key)
  | invalid (problems : List ConfigError)
  deriving DecidableEq, Repr

namespace LoadError

def messages : LoadError → List String
  | notExpanded reason => [s!"load config: {reason}"]
  | unreadable e => [s!"load config: {e.message}"]
  | malformed => ["load config: toml"]
  | unknownKeys keys =>
    let names := ", ".intercalate (keys.map Toml.Key.text)
    [s!"load config: unknown keys: {names}"]
  | invalid problems => problems.map ConfigError.message

def message (e : LoadError) : String := "; ".intercalate e.messages

end LoadError

namespace Config

open Toml

/-- Whether a character is a small letter apart from its case. The dotted capital `İ` has no such
partner. -/
def folds (c l : Char) : Bool :=
  c.toLower = l || (l = 'k' && c.toNat == 0x212a) || (l = 's' && c.toNat == 0x17f)

/-- Whether a key stands for a setting: it may be written in any case. -/
def matchesName (key name : String) : Bool :=
  let k := key.toList
  let n := name.toList
  k.length == n.length && (k.zip n).all fun (c, l) => c = l || folds c l

inductive SettingType where
  | text | flag | number | targets
  deriving DecidableEq, Repr

def settings : List (String × SettingType) :=
  [("input", .text), ("output", .text), ("clean", .flag), ("workers", .number),
    ("log_level", .text), ("primitive_dynamic_lists", .flag), ("backends", .targets)]

def targetSettings : List String := ["name", "dir", "package"]

def tablesIn? (items : List Value) : Option (List Entries) :=
  items.mapM fun v =>
    match v with
    | .table es => some es
    | _ => none

def isText : Value → Bool
  | .string _ => true
  | _ => false

def fitsTarget (es : Entries) : Bool :=
  es.all fun (key, v) => !targetSettings.any (matchesName key) || isText v

def targetTables? : Value → Option (List Entries)
  | .array items => tablesIn? items
  | .tables items => some items
  | _ => none

def fits (type : SettingType) (v : Value) : Bool :=
  match type, v with
  | .text, .string _ => true
  | .flag, .boolean _ => true
  | .number, .integer _ => true
  | .targets, v => (targetTables? v).any (·.all fitsTarget)
  | _, _ => false

def setting? (key : String) : Option (String × SettingType) :=
  settings.find? fun (name, _) => matchesName key name

def isTyped (root : Entries) : Bool :=
  root.all fun (key, v) => (setting? key).all fun (_, type) => fits type v

def isKnown (root : Entries) (key : Key) : Bool :=
  match key with
  | [name] => (setting? name).isSome && (root.get? name).isSome
  | [name, inner] =>
    (setting? name).any (·.2 = .targets) && targetSettings.any (matchesName inner)
  | _ => false

def textOf : Option Value → Option String
  | some (.string s) => some s
  | _ => none

def flagOf : Option Value → Option Bool
  | some (.boolean b) => some b
  | _ => none

def numberOf : Option Value → Option Int
  | some (.integer n) => some n
  | _ => none

/-- The text of a setting of a target, under its own key or else one in another case. -/
def targetText (es : Entries) (name : String) : String :=
  let exact := textOf (es.get? name)
  let folded := textOf ((es.find? fun (key, _) => matchesName key name).map (·.2))
  trim ((exact <|> folded).getD "")

def targetOf (es : Entries) : TargetConfig :=
  let name := lowered (targetText es "name")
  let dir := targetText es "dir"
  { name, dir := if dir == "" then name else dir, package := targetText es "package" }

def ofEntries (root : Entries) : Config :=
  let c : Config := {}
  { input := ((textOf (root.get? "input")).map trim).getD c.input
    output := ((textOf (root.get? "output")).map trim).getD c.output
    clean := (flagOf (root.get? "clean")).getD c.clean
    workers := numberOf (root.get? "workers")
    logLevel := ((textOf (root.get? "log_level")).map fun s => lowered (trim s)).getD c.logLevel
    primitiveLists := (flagOf (root.get? "primitive_dynamic_lists")).getD c.primitiveLists
    targets := (((root.get? "backends").bind targetTables?).map (·.map targetOf)).getD c.targets }

def ofText (text : String) : Except LoadError Config :=
  match Document.ofText? text with
  | none => .error .malformed
  | some d =>
    let unknown := d.keys.filter (!isKnown d.root ·)
    if !isTyped d.root then .error .malformed
    else if !unknown.isEmpty then .error (.unknownKeys unknown)
    else
      let c := ofEntries d.root
      if c.problems.isEmpty then .ok c else .error (.invalid c.problems)

def load (home : Home) (d : Disk) (path : String) : Except LoadError Config :=
  match home path with
  | .error reason => .error (.notExpanded reason)
  | .ok path =>
    match d.readFile path with
    | .error e => .error (.unreadable e)
    | .ok text => ofText text

def template : String := "\n".intercalate [
  "# PDU description to read",
  "input = \"pdus.xml\"",
  "",
  "# generated files go to <output>/<backend dir>",
  "output = \"./generated\"",
  "",
  "# delete stale files in backend directories before writing",
  "clean = false",
  "",
  "workers = 4",
  "log_level = \"info\"",
  "",
  "# allow dynamic lists of primitive elements",
  "primitive_dynamic_lists = false",
  "",
  "[[backends]]",
  "name = \"objc\"",
  "dir = \"objc\"",
  "",
  "[[backends]]",
  "name = \"python\"",
  "dir = \"python\"",
  "",
  "[[backends]]",
  "name = \"go\"",
  "dir = \"go\"",
  "package = \"pdu\"",
  ""]

inductive TemplateError where
  | alreadyThere (path : String)
  | notWritten (error : FileError)
  deriving DecidableEq, Repr

def TemplateError.message : TemplateError → String
  | alreadyThere path => s!"config already exists: {path}"
  | notWritten e => e.message

def writeTemplate (d : Disk) (path : String) (overwrite : Bool) : Except TemplateError Disk :=
  if !overwrite && (d.stat path).isOk then .error (.alreadyThere path)
  else (d.writeFile path template).mapError .notWritten

end Config

end PduCompiler
