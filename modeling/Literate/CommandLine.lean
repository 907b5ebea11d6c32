import Literate.Settings.File
import Literate.Tangle

namespace Literate.CommandLine

inductive Command where
  | tangle (file : Text) (chunks : List Text) (dryRun : Bool)
  | list (file : Text) (json : Bool)

structure Invocation where
  settingsFile : Option Text := none
  directory : Option Text := none
  verbose : Bool := false
  policy : Option Policy := none
  command : Command

inductive Stop where
  | usage
  | help
  | version
deriving DecidableEq

/-- Where flags are being read: in front of the command's name, or behind it. -/
inductive Place where
  | front
  | tangle
  | list
deriving DecidableEq

inductive Flag where
  | config
  | directory
  | verbose
  | resolution
  | dryRun
  | json
  | help
  | version
deriving DecidableEq

namespace Flag

def takesValue : Flag → Bool
  | .config | .directory | .resolution => true
  | _ => false

def isAllowed (place : Place) : Flag → Bool
  | .dryRun => place = .tangle
  | .json => place = .list
  | .version => place = .front
  | _ => true

def ofWord? (place : Place) (word : Text) : Option Flag :=
  let flag := match word.str with
    | "config" => some Flag.config
    | "directory" => some .directory
    | "verbose" => some .verbose
    | "resolution" => some .resolution
    | "dry-run" => some .dryRun
    | "json" => some .json
    | "help" => some .help
    | "version" => some .version
    | _ => none
  flag.filter (isAllowed place)

def ofLetter? (place : Place) (letter : Char) : Option Flag :=
  let flag := match letter with
    | 'c' => some Flag.config
    | 'C' => some .directory
    | 'v' => some .verbose
    | 'n' => some .dryRun
    | 'h' => some .help
    | 'V' => some .version
    | _ => none
  flag.filter (isAllowed place)

end Flag

structure Given where
  settingsFile : Option Text := none
  directory : Option Text := none
  verbose : Bool := false
  policy : Option Policy := none
  dryRun : Bool := false
  json : Bool := false
  operands : List Text := []

namespace Given

def setFlag (g : Given) : Flag → Except Stop Given
  | .verbose => if g.verbose then .error .usage else .ok { g with verbose := true }
  | .dryRun => if g.dryRun then .error .usage else .ok { g with dryRun := true }
  | .json => if g.json then .error .usage else .ok { g with json := true }
  | .help => .error .help
  | .version => .error .version
  | _ => .error .usage

def setValue (g : Given) (flag : Flag) (value : Text) : Except Stop Given :=
  match flag with
  | .config =>
    if g.settingsFile.isSome || value.isEmpty then .error .usage
    else .ok { g with settingsFile := some value }
  | .directory =>
    if g.directory.isSome || value.isEmpty then .error .usage
    else .ok { g with directory := some value }
  | .resolution =>
    match g.policy, Policy.ofName? value with
    | none, some policy => .ok { g with policy := some policy }
    | _, _ => .error .usage
  | _ => .error .usage

/-- Takes an argument that is no flag. The first is the document, and only `tangle` takes more. -/
def addOperand (g : Given) (place : Place) (operand : Text) : Except Stop Given :=
  let isFirst := g.operands.isEmpty
  if place = .front || (isFirst && operand.isEmpty) || (!isFirst && place = .list) then .error .usage
  else .ok { g with operands := g.operands ++ [operand] }

end Given

inductive Shape where
  /-- Two hyphens: only operands follow. -/
  | divider
  | word (name : Text) (value : Option Text)
  | letters (letters : Text)
  | operand (t : Text)

def shape (argument : Text) : Shape :=
  match argument with
  | ['-', '-'] => .divider
  | '-' :: '-' :: rest =>
    match rest.dropWhile (· != '=') with
    | [] => .word rest none
    | _ :: value => .word (rest.takeWhile (· != '=')) (some value)
  | '-' :: c :: rest => .letters (c :: rest)
  | t => .operand t

/-- Takes flags written as letters behind one hyphen. A flag with a value takes the letters behind
it, or else waits for the next argument. -/
def setLetters (place : Place) (g : Given) : Text → Except Stop (Given × Option Flag)
  | [] => .ok (g, none)
  | c :: rest =>
    match Flag.ofLetter? place c with
    | none => .error .usage
    | some flag =>
      if flag.takesValue then
        match rest with
        | [] => .ok (g, some flag)
        | '=' :: value => do
          let g ← g.setValue flag value
          return (g, none)
        | value => do
          let g ← g.setValue flag value
          return (g, none)
      else do
        let g ← g.setFlag flag
        setLetters place g rest

def setWord (place : Place) (g : Given) (name : Text) (value : Option Text) :
    Except Stop (Given × Option Flag) :=
  match Flag.ofWord? place name with
  | none => .error .usage
  | some flag =>
    match flag.takesValue, value with
    | true, none => .ok (g, some flag)
    | true, some value => do
      let g ← g.setValue flag value
      return (g, none)
    | false, none => do
      let g ← g.setFlag flag
      return (g, none)
    | false, some _ => .error .usage

structure Front where
  given : Given
  /-- The first argument that is no flag, and the arguments behind it. -/
  rest : Option (Text × List Text)

/-- Reads arguments. `waiting` is a flag whose value comes next. In front of the command's name,
reading ends at the first operand. -/
def readArguments (place : Place) (g : Given) (waiting : Option Flag) :
    List Text → Except Stop Front
  | [] => if waiting.isSome then .error .usage else .ok ⟨g, none⟩
  | argument :: rest =>
    match waiting, shape argument with
    | some flag, .operand value => do
      let g ← g.setValue flag value
      readArguments place g none rest
    | some _, _ => .error .usage
    | none, .divider => do
      let g ← rest.foldlM (fun g operand => g.addOperand place operand) g
      return ⟨g, none⟩
    | none, .word name value => do
      let (g, waiting) ← setWord place g name value
      readArguments place g waiting rest
    | none, .letters letters => do
      let (g, waiting) ← setLetters place g letters
      readArguments place g waiting rest
    | none, .operand t =>
      if place = .front then .ok ⟨g, some (t, rest)⟩
      else do
        let g ← g.addOperand place t
        readArguments place g none rest

def command? (place : Place) (g : Given) : Option Command :=
  match place, g.operands with
  | .tangle, file :: chunks => some (.tangle file chunks g.dryRun)
  | .list, [file] => some (.list file g.json)
  | _, _ => none

def readCommand (front : Given) (place : Place) (arguments : List Text) : Except Stop Invocation := do
  let own := (← readArguments place {} none arguments).given
  match command? place own with
  | none => .error .usage
  | some command =>
    return {
      settingsFile := own.settingsFile.or front.settingsFile
      directory := own.directory.or front.directory
      verbose := own.verbose || front.verbose
      policy := own.policy.or front.policy
      command }

def isCommandName (name : Text) : Bool := ["tangle", "list", "help"].contains name.str

def read (arguments : List Text) : Except Stop Invocation := do
  let front ← readArguments .front {} none arguments
  match front.rest with
  | none => .error .usage
  | some (name, rest) =>
    match name.str, rest with
    | "tangle", _ => readCommand front.given .tangle rest
    | "list", _ => readCommand front.given .list rest
    | "help", [] => .error .help
    | "help", [topic] => .error (if isCommandName topic then .help else .usage)
    | _, _ => .error .usage

def version : String := "tangler 0.1.0"

def usage : String :=
  "Usage: tangler [OPTIONS] <COMMAND>\n\n" ++
  "Commands:\n" ++
  "  tangle <SOURCE> [CHUNK]... [-n]  Extract code from a literate document\n" ++
  "  list <SOURCE> [--json]           List the chunks a document defines\n" ++
  "  help [COMMAND]                   Print this message\n\n" ++
  "Options:\n" ++
  "  -c, --config <CONFIG>          Configuration file path\n" ++
  "  -C, --directory <DIRECTORY>    Working directory\n" ++
  "  -v, --verbose                  Verbose output\n" ++
  "      --resolution <RESOLUTION>  How references to multiply-defined chunks are resolved\n" ++
  "  -h, --help                     Print help\n" ++
  "  -V, --version                  Print version\n"

/-- Shows the events of the targets that begin like this one, down to a level or not at all. -/
structure Directive where
  target : Text := []
  level : Option Level

namespace Directive

def levelOf? (word : Text) : Option (Option Level) :=
  match String.ofList (word.map Char.toLower) with
  | "off" | "0" => some none
  | "error" | "1" => some (some .error)
  | "warn" | "2" => some (some .warn)
  | "info" | "3" => some (some .info)
  | "debug" | "4" => some (some .debug)
  | "trace" | "5" => some (some .trace)
  | _ => none

/-- A level for all targets, or a target with or without a level of its own. -/
def ofText? (t : Text) : Option Directive :=
  match levelOf? t with
  | some level => some { level }
  | none =>
    let target := t.takeWhile fun c => c.isAlphanum || ['_', ':', '-'].contains c
    match target, t.drop target.length with
    | [], _ => none
    | _, [] => some { target, level := some .trace }
    | _, '=' :: word => (levelOf? word).map fun level => { target, level }
    | _, _ => none

def readAll? (t : Text) : Option (List Directive) := do
  let directives ← ((Text.splitOn ',' t).filter (!·.isEmpty)).mapM ofText?
  return if directives.isEmpty then [{ level := some .error }] else directives

/-- The longest target decides, and the last of several directives for it. -/
def levelFor (directives : List Directive) (target : Text) : Option Level :=
  let fitting := directives.filter fun d => d.target.isPrefixOf target
  let longer := fun (best d : Directive) => if best.target.length ≤ d.target.length then d else best
  (fitting.foldl longer { level := none }).level

end Directive

/-- Which events are shown. What cannot be read is as if nothing were asked for. -/
def logLevel (invocation : Except Stop Invocation) (asked : Option Text) : List Directive :=
  match invocation with
  | .ok { verbose := true, .. } => [{ level := some .debug }]
  | _ => (asked.bind Directive.readAll?).getD [{ level := some .info }]

/-- A character as a log line shows it: those that a terminal would act on are spelled out. -/
def spellControl (c : Char) : List Char :=
  let n := c.toNat
  let digits := [Nat.digitChar (n / 16), Nat.digitChar (n % 16)]
  if ['\x07', '\x08', '\x0c', '\x1b', '\x7f'].contains c then '\\' :: 'x' :: digits
  else if 0x80 ≤ n && n ≤ 0x9F then ['\\', 'u', '\x7b'] ++ digits ++ ['\x7d']
  else [c]

def log (directives : List Directive) (events : List Event) : List String :=
  events.flatMap fun e =>
    match Directive.levelFor directives e.target.toList with
    | none => []
    | some level =>
      (Event.renderAt level [e]).map fun line => String.ofList (line.toList.flatMap spellControl)

structure Ending where
  code : Nat
  complaint : String := ""

variable {m : Type → Type} [Monad m] [Host m]

def perform (x : Context) : Command → ExceptT Fault m Unit
  | .tangle file chunks dryRun => x.tangle file chunks dryRun
  | .list file json => x.list file json

/-- Carries out an invocation. What the command line sets goes before what the settings file
sets. -/
def Invocation.run (i : Invocation) : ExceptT Fault m Unit := do
  let base ← match i.directory with
    | some dir => pure dir
    | none => (Host.currentDir : m Text)
  let settings ← Settings.load base i.settingsFile
  perform { settings := settings.update { policy := i.policy }, base } i.command

def run (invocation : Except Stop Invocation) : m Ending :=
  match invocation with
  | .error .usage => return ⟨2, usage⟩
  | .error .help => do
    Host.print usage.toList
    return ⟨0, ""⟩
  | .error .version => do
    Host.print (version ++ "\n").toList
    return ⟨0, ""⟩
  | .ok i => do
    match ← i.run.run with
    | .ok () => return ⟨0, ""⟩
    | .error fault => return ⟨1, s!"Error: {fault.message}"⟩

end Literate.CommandLine
