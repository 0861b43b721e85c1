import ClassAssembler.CommandLine.Options
import ClassAssembler.Config.Basic
import ClassAssembler.Hello
import ClassAssembler.Report
import ClassAssembler.Source.Events
import ClassAssembler.Source.Text
import ClassAssembler.Summary.Basic

/-!
# The command line

The commands work on any file system and collect what they print, so that a run is a function of
its arguments, its surroundings and the files.
-/

namespace ClassAssembler

namespace CommandLine

structure Surroundings where
  environment : List (Text × Text) := []
  isColored : Bool := false
deriving Inhabited

structure Console where
  stdout : Text := []
  stderr : Text := []
deriving DecidableEq, Inhabited

structure Outcome where
  exitCode : Nat
  console : Console
deriving DecidableEq, Inhabited

structure Context where
  language : Language
  isColored : Bool
  config : Text
deriving Inhabited

/-! ## The language -/

namespace Surroundings

def valueOf (s : Surroundings) (name : String) : Text :=
  (s.environment.lookup (Text.ofString name)).getD []

def occursIn (part : Text) : Text → Bool
  | [] => part.isEmpty
  | b :: t => Text.startsWith (b :: t) part || occursIn part t

def localeLanguage (s : Surroundings) : Language :=
  let values := ["LC_ALL", "LC_MESSAGES", "LANGUAGE", "LANG"].map fun name =>
    Text.toLower (s.valueOf name)
  match values.find? fun v => !v.isEmpty with
  | some v =>
    if Text.startsWith v "zh" ∨ occursIn "chinese" v then .chinese
    else .english
  | none => .english

def language (s : Surroundings) (option : Text) : Language :=
  let own := s.valueOf "JVMASM_LANG"
  if !option.isEmpty then .ofSetting option.trim
  else if !own.isEmpty then .ofSetting own.trim
  else s.localeLanguage

end Surroundings

/-! ## Runs -/

abbrev CommandT (m : Type → Type) := StateT Console (ExceptT Fault m)

section Commands

variable {m : Type → Type} [Monad m]

def print (t : Text) : CommandT m Unit := modify fun c => { c with stdout := c.stdout ++ t }

def complain (t : Text) : CommandT m Unit := modify fun c => { c with stderr := c.stderr ++ t }

def printLine (t : Text) : CommandT m Unit := print (t ++ [10])

def complainLine (t : Text) : CommandT m Unit := complain (t ++ [10])

def onFiles {α : Type} (act : m α) : CommandT m α := StateT.lift (ExceptT.lift act)

def checked {α : Type} (r : Checked α) : CommandT m α := StateT.lift (ExceptT.mk (pure r))

def reportErrors (c : Context) (file : Text) (errors : List Reported) : CommandT m Unit :=
  complain (report c.isColored c.language file errors)

structure Command where
  usage : Message
  options : List OptionSpec

def explain (c : Context) (command : Command) : CommandT m Unit :=
  complain (command.usage.say c.language [] ++ [10] ++ listOptions c.language command.options)

def withArguments (c : Context) (command : Command) (arguments : List Text)
    (go : Arguments → CommandT m Nat) : CommandT m Nat := do
  match parseOptions command.options arguments [] with
  | .ok a => go a
  | .error fault =>
    if let some message := fault.message? then
      complainLine message
    explain c command
    return 2

/-! ## Assembling -/

def assemblingOptions : List OptionSpec :=
  [{ name := "compute", about := Message.cliOptCompute },
    { name := "o", about := Message.cliOptOutput }]

structure Workshop where
  outputDir : Text
  compute : Compute
  options : Options
deriving Inhabited

variable [Files m]

def configuration (c : Context) (near : Text) : CommandT m (Except ConfigError Config) := do
  if !c.config.isEmpty then onFiles (Config.load c.config)
  else
    match ← onFiles (Config.find near) with
    | some path => onFiles (Config.load path)
    | none => return .ok {}

def workshop (c : Context) (near : Text) (a : Arguments) : CommandT m (Option Workshop) := do
  let refuse (message : Text) : CommandT m (Option Workshop) := do
    complainLine (Message.cliConfigFailed.say c.language [.string message])
    return none
  match ← configuration c near with
  | .error e => refuse e.message
  | .ok config =>
    let output := a.value "o"
    let mode := a.value "compute"
    let outputDir := if output.isEmpty then config.outputDir else output
    match Config.computeOf (if mode.isEmpty then config.compute else mode) with
    | .error fault => refuse fault.message
    | .ok compute => return some { outputDir, compute, options := config.options }

def writeClass (path : Text) (b : Buffer) : CommandT m (Except Text Unit) := do
  let dir := Path.parent path
  match ← onFiles (Files.createDirectories (dir.length + 1) dir) with
  | .error e => return .error ("failed to create output directory: " ++ e.message)
  | .ok () =>
    match ← onFiles (Files.writeFile path b.bytes.toList) with
    | .error e => return .error ("failed to write class file: " ++ e.message)
    | .ok () => return .ok ()

def loadSource (c : Context) (file : Text) : CommandT m (Except Text ClassSource) := do
  match DocumentFormat.ofPath? file with
  | none => return .error (DocumentFormat.unknownMessage c.language (Path.extension file))
  | some format =>
    match ← onFiles (Files.readFile file) with
    | .error e => return .error ("failed to read class source: " ++ e.message)
    | .ok t =>
      match ClassSource.ofText? format t with
      | none => return .error (file ++ ": failed to parse class source")
      | some source => return .ok source

def deliver (path : Text) (r : Checked (Except Failure Buffer)) :
    CommandT m (Except (List Reported) (Text × Nat)) := do
  match ← checked r with
  | .error f => return .error [.failure f]
  | .ok b =>
    match ← writeClass path b with
    | .error message => return .error [.plain message]
    | .ok () => return .ok (path, b.size)

def buildFile (c : Context) (w : Workshop) (file : Text) :
    CommandT m (Except (List Reported) (Text × Nat)) := do
  match ← loadSource c file with
  | .error message => return .error [.plain message]
  | .ok source =>
    match source.check with
    | .error es => return .error (es.map fun e => .plain (e.message c.language))
    | .ok checkedClass =>
      deliver (source.outputPath w.outputDir) (checkedClass.assemble w.compute w.options)

def announce (c : Context) (path : Text) (size : Nat) : CommandT m Unit :=
  printLine (Message.cliWrote.say c.language [.string path, .int size])

def buildFiles (c : Context) (w : Workshop) : List Text → Nat → CommandT m Nat
  | [], failed => return failed
  | file :: files, failed => do
    match ← buildFile c w file with
    | .ok (path, size) =>
      announce c path size
      buildFiles c w files failed
    | .error errors =>
      reportErrors c file errors
      buildFiles c w files (failed + 1)

def build (c : Context) (arguments : List Text) : CommandT m Nat :=
  let command : Command := ⟨Message.cliUsageBuild, assemblingOptions⟩
  withArguments c command arguments fun a => do
    match a.rest with
    | [] =>
      explain c command
      complainLine (Message.cliNoInput.say c.language [])
      return 1
    | first :: _ =>
      match ← workshop c first a with
      | none => return 1
      | some w =>
        let failed ← buildFiles c w a.rest 0
        if failed = 0 then return 0
        else
          complainLine (Message.cliBuildFailed.say c.language [.int failed, .int a.rest.length])
          return 1

def hello (c : Context) (arguments : List Text) : CommandT m Nat :=
  withArguments c ⟨Message.cliUsageHello, assemblingOptions⟩ arguments fun a => do
    match ← workshop c Path.here a with
    | none => return 1
    | some w =>
      let name : Text := "Example"
      let path := Path.join w.outputDir (name ++ ".class")
      match ← deliver path (Hello.assemble name w.compute w.options) with
      | .ok (path, size) =>
        announce c path size
        return 0
      | .error errors =>
        reportErrors c [] errors
        return 1

/-! ## Summaries -/

def dump (c : Context) (arguments : List Text) : CommandT m Nat :=
  let command : Command :=
    ⟨Message.cliUsageDump, [{ name := "json", isSwitch := true, about := Message.cliOptJson }]⟩
  withArguments c command arguments fun a => do
    match a.rest with
    | [file] =>
      match ← onFiles (Files.readFile file) with
      | .error e =>
        reportErrors c file [.plain e.message]
        return 1
      | .ok content =>
        match ← checked (Summary.ofBytes content.toArray) with
        | .error e =>
          reportErrors c file [.plain e.describe]
          return 1
        | .ok s =>
          if a.isOn "json" then printLine s.jsonText else print s.toText
          return 0
    | _ =>
      explain c command
      complainLine (Message.cliNoInput.say c.language [])
      return 1

/-! ## All commands -/

def version : String := "0.1.0"

def command (c : Context) (name : Text) (arguments : List Text) : CommandT m Nat := do
  let isOneOf (names : List String) : Bool := names.any fun n => Text.ofString n = name
  if isOneOf ["build"] then build c arguments
  else if isOneOf ["hello"] then hello c arguments
  else if isOneOf ["dump"] then dump c arguments
  else if isOneOf ["version", "-v", "--version"] then
    printLine (Message.cliVersion.say c.language [.string (Text.ofString version)])
    return 0
  else if isOneOf ["help", "-h", "--help"] then
    print (Message.cliUsage.say c.language [])
    return 0
  else
    complainLine (Message.cliUnknownCommand.say c.language [.string name])
    complain ([10] ++ Message.cliUsage.say c.language [])
    return 1

def run (s : Surroundings) (arguments : List Text) : ExceptT Fault m Outcome := do
  let (globals, arguments) := takeGlobals arguments {}
  let c : Context :=
    { language := s.language globals.language, isColored := s.isColored, config := globals.config }
  let act : CommandT m Nat :=
    match arguments with
    | [] => do
      print (Message.cliUsage.say c.language [])
      return 0
    | name :: rest => command c name rest
  let (exitCode, console) ← act.run {}
  return { exitCode, console }

end Commands

end CommandLine

end ClassAssembler
