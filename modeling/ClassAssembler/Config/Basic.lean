import ClassAssembler.Assembler
import ClassAssembler.Document.Format
import ClassAssembler.Files
import ClassAssembler.LogLevel

/-!
# Configurations

A configuration is read from a file in one of the data formats; the file to read is the one
nearest above a path.
-/

namespace ClassAssembler

structure Config where
  outputDir : Text := "."
  compute : Text := "frames"
  logLevel : Text := "warn"
  development : Bool := false
  interfaces : List Text := []
  /-- Classes with their superclasses, in the order of their names. -/
  hierarchy : List (Text × Text) := []
deriving DecidableEq, Inhabited

inductive ConfigFault where
  | unknownCompute (mode : Text)
  | unknownLevel (level : Text)
  | incompleteEntry (name super : Text)
deriving DecidableEq, Inhabited

inductive ConfigError where
  | unreadable (e : FileError)
  | malformed
  | invalid (path : Text) (fault : ConfigFault)
deriving DecidableEq, Inhabited

namespace ConfigFault

def message : ConfigFault → Text
  | unknownCompute mode => "unknown compute mode " ++ mode.quoted
  | unknownLevel level => LogLevel.unknownMessage level
  | incompleteEntry name super =>
    "hierarchy entry " ++ name.quoted ++ " = " ++ super.quoted
      ++ " is incomplete"

end ConfigFault

namespace ConfigError

def message : ConfigError → Text
  | unreadable e => "failed to read config file: " ++ e.message
  | malformed => "failed to parse config file"
  | invalid path fault =>
    "invalid config file " ++ path ++ ": " ++ fault.message

end ConfigError

namespace Config

def computeOf (mode : Text) : Except ConfigFault Compute :=
  let lower := mode.toLower
  if lower.isEmpty ∨ lower = "nothing" then .ok .nothing
  else if lower = "maxs" then .ok .maxs
  else if lower = "frames" then .ok .frames
  else .error (.unknownCompute mode)

def fault? (c : Config) : Option ConfigFault :=
  match computeOf c.compute with
  | .error fault => some fault
  | .ok _ =>
    if (LogLevel.ofName? c.logLevel).isNone then some (.unknownLevel c.logLevel)
    else
      (c.hierarchy.find? fun (name, super) => name.isEmpty || super.isEmpty).map
        fun (name, super) => .incompleteEntry name super

def classTable (c : Config) : ClassTable :=
  let withInterfaces := c.interfaces.foldl ClassTable.addInterface ClassTable.platform
  c.hierarchy.foldl (fun t (name, super) => t.addClass name super) withInterfaces

def options (c : Config) : Options := { classes := some c.classTable }

/-! ## Reading -/

def keys (f : DocumentFormat) : List (DocumentFormat.Key Config) :=
  [⟨"output_dir", fun d c => (f.text? d c.outputDir).map fun outputDir => { c with outputDir }⟩,
    ⟨"compute", fun d c => (f.text? d c.compute).map fun compute => { c with compute }⟩,
    ⟨"log_level", fun d c => (f.text? d c.logLevel).map fun logLevel => { c with logLevel }⟩,
    ⟨"development", fun d c =>
      (f.bool? d c.development).map fun development => { c with development }⟩,
    ⟨"interfaces", fun d c => (f.texts? d).map fun interfaces => { c with interfaces }⟩,
    ⟨"hierarchy", fun d c => (f.textTable? d).map fun entries =>
      { c with hierarchy := entries.mergeSort fun a b => a.1 ≤ b.1 }⟩]

/-- The configuration that a text in a format holds.  What it does not mention is as usual, and
keys that are not known are passed over. -/
def ofText? (f : DocumentFormat) (t : Text) : Option Config :=
  match f.read? t with
  | none => none
  | some .empty => some {}
  | some (.document d) => f.record? false (keys f) d {}

def formatOf (path : Text) : DocumentFormat := (DocumentFormat.ofPath? path).getD .toml

section Loading

variable {m : Type → Type} [Monad m] [Files m]

def load (path : Text) : m (Except ConfigError Config) := do
  match ← Files.readFile path with
  | .error e => return .error (.unreadable e)
  | .ok t =>
    match ofText? (formatOf path) t with
    | none => return .error .malformed
    | some c =>
      match c.fault? with
      | some fault => return .error (.invalid path fault)
      | none => return .ok c

def fileNames : List Text := ["jvmasm.toml", "jvmasm.yaml"].map Text.ofString

def findIn (dir : Text) : List Text → m (Option Text)
  | [] => return none
  | name :: names => do
    let path := Path.join dir name
    if (← Files.kind? path).isSome then return some path else findIn dir names

/-- The configuration file in a directory or the nearest one above.  The fuel bounds the way. -/
def findAbove : Nat → Text → m (Option Text)
  | 0, _ => return none
  | fuel + 1, dir => do
    match ← findIn dir fileNames with
    | some path => return some path
    | none =>
      let outer := Path.parent dir
      if outer = dir then return none else findAbove fuel outer

def find (start : Text) : m (Option Text) := do
  match ← Files.kind? start with
  | none => return none
  | some kind =>
    let dir ← Files.absolute (if kind = .directory then start else Path.parent start)
    findAbove (dir.length + 1) dir

end Loading

end Config

end ClassAssembler
