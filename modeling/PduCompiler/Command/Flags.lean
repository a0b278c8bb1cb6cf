import PduCompiler.Files.Disk
import PduCompiler.Lineage
import PduCompiler.Table
import PduCompiler.Text.Blank
import PduCompiler.Text.Quoted

/-!
Flags of a command. A flag has one or two dashes and its value after an equals sign; a text may also
follow as the next argument. The first argument that is no flag ends them, and so do two dashes
alone. What running a command comes to depends on them, and on the disk.
-/

namespace PduCompiler.Command

open Files Text

inductive FlagKind where
  | switch | text
  deriving DecidableEq, Repr

structure Flag where
  name : String
  kind : FlagKind
  usage : String
  deriving DecidableEq, Repr

inductive FlagError where
  | malformed (arg : String)
  | undefined (name : String)
  | noValue (name : String)
  | badSwitch (name value : String)
  deriving DecidableEq, Repr

def FlagError.message : FlagError → String
  | malformed arg => s!"bad flag syntax: {arg}"
  | undefined name => s!"flag provided but not defined: -{name}"
  | noValue name => s!"flag needs an argument: -{name}"
  | badSwitch name value => s!"invalid boolean value {quote value} for -{name}: parse error"

inductive Halt where
  | help
  | refused (error : FlagError)
  deriving DecidableEq, Repr

inductive Argument where
  | plain
  | endOfFlags
  | malformed
  | flag (name : String) (value : Option String)
  deriving DecidableEq, Repr

/-- The form of an argument. A name has at least one character, so an equals sign that comes first
does not end it but spoils it. -/
def Argument.ofText (arg : String) : Argument :=
  let named (s : List Char) : Argument :=
    match s with
    | [] => .malformed
    | c :: rest =>
      if c = '-' || c = '=' then .malformed
      else
        let name := String.ofList (c :: rest.takeWhile (· ≠ '='))
        match rest.dropWhile (· ≠ '=') with
        | [] => .flag name none
        | _ :: value => .flag name (some (String.ofList value))
  match arg.toList with
  | ['-', '-'] => .endOfFlags
  | '-' :: '-' :: rest => named rest
  | ['-'] => .plain
  | '-' :: rest => named rest
  | _ => .plain

structure Arguments where
  values : Table String := []
  rest : List String := []
  deriving DecidableEq, Repr

namespace Arguments

def set (a : Arguments) (name value : String) : Arguments :=
  { a with values := a.values.set name value }

def text (a : Arguments) (name : String) : String := (a.values.get? name).getD ""

def isOn (a : Arguments) (name : String) : Bool := a.text name == "true"

def read (flags : List Flag) (a : Arguments) : List String → Except Halt Arguments
  | [] => .ok a
  | arg :: rest =>
    match Argument.ofText arg with
    | .plain => .ok { a with rest := arg :: rest }
    | .endOfFlags => .ok { a with rest }
    | .malformed => .error (.refused (.malformed arg))
    | .flag name value =>
      match flags.find? (·.name == name), value with
      | none, _ =>
        .error (if name == "help" || name == "h" then .help else .refused (.undefined name))
      | some ⟨_, .switch, _⟩, none => read flags (a.set name "true") rest
      | some ⟨_, .switch, _⟩, some value =>
        match truthValue? value with
        | none => .error (.refused (.badSwitch name value))
        | some b => read flags (a.set name (if b then "true" else "false")) rest
      | some ⟨_, .text, _⟩, some value => read flags (a.set name value) rest
      | some ⟨_, .text, _⟩, none =>
        match rest with
        | [] => .error (.refused (.noValue name))
        | value :: rest => read flags (a.set name value) rest

end Arguments

def Flag.usageLines (f : Flag) : List String :=
  match f.kind with
  | .switch =>
    if f.name.length == 1 then [s!"  -{f.name}\t{f.usage}"]
    else [s!"  -{f.name}", s!"    \t{f.usage}"]
  | .text => [s!"  -{f.name} string", s!"    \t{f.usage}"]

def usageLines (command : String) (flags : List Flag) : List String :=
  s!"Usage of {command}:" :: (flags.mergeSort fun f g => f.name ≤ g.name).flatMap Flag.usageLines

structure Run where
  disk : Disk
  exitCode : Nat := 0
  output : List String := []
  complaints : List String := []
  log : List LogEntry := []

namespace Run

def failed (d : Disk) (message : String) : Run :=
  { disk := d, exitCode := 1, complaints := [s!"error: {message}"] }

def misused (d : Disk) (usage : String) : Run :=
  { disk := d, exitCode := 1, complaints := [s!"usage: {usage}"] }

def halted (d : Disk) (command : String) (flags : List Flag) : Halt → Run
  | .help => { disk := d, complaints := usageLines command flags }
  | .refused e => { disk := d, exitCode := 2, complaints := e.message :: usageLines command flags }

end Run

end PduCompiler.Command
