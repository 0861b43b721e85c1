import ClassAssembler.CommandLine.Basic

/-!
# The program

Runs the command line on the files of the system and prints what it says.
-/

namespace ClassAssembler

namespace Program

def faultOf : IO.Error → FileFault
  | .noFileOrDirectory .. => .missing
  | .alreadyExists .. => .isPresent
  | .inappropriateType .. => .notDirectory
  | e => .other (Text.ofString (toString e))

def attempt {α : Type} (action : String) (path : Text) (act : IO α) :
    IO (Except FileError α) := do
  try
    return .ok (← act)
  catch e =>
    return .error ⟨action, path, faultOf e⟩

def kindOf? (path : Text) : IO (Option FileKind) := do
  let full := (← IO.currentDir) / path.toDisplay
  if path.isEmpty then return none
  else if ← full.isDir then return some .directory
  else if ← full.pathExists then return some .file
  else return none

instance : Files IO where
  currentDirectory := return Text.ofString (toString (← IO.currentDir))
  kind? := kindOf?
  readFile path := do
    let full := (← IO.currentDir) / path.toDisplay
    if (← kindOf? path) = some .directory then return .error ⟨"read", path, .isDirectory⟩
    else attempt "open" path (return (← IO.FS.readBinFile full).data.toList)
  writeFile path content := do
    let full := (← IO.currentDir) / path.toDisplay
    if (← kindOf? path) = some .directory then return .error ⟨"open", path, .isDirectory⟩
    else attempt "open" path (IO.FS.writeBinFile full ⟨content.toArray⟩)
  createDirectory path := do
    let full := (← IO.currentDir) / path.toDisplay
    attempt "mkdir" path (IO.FS.createDir full)

def variableNames : List String :=
  ["JVMASM_LANG", "LC_ALL", "LC_MESSAGES", "LANGUAGE", "LANG"]

def surroundings : IO CommandLine.Surroundings := do
  let environment ← variableNames.filterMapM fun name => do
    return (← IO.getEnv name).map fun v => (Text.ofString name, Text.ofString v)
  return { environment, isColored := ← (← IO.getStderr).isTty }

def write (out : IO.FS.Stream) (t : Text) : IO Unit := do
  out.write ⟨t.toArray⟩
  out.flush

end Program

end ClassAssembler

open ClassAssembler in
def main (args : List String) : IO UInt32 := do
  let s ← Program.surroundings
  match ← (CommandLine.run s (args.map Text.ofString)).run with
  | .ok outcome =>
    Program.write (← IO.getStdout) outcome.console.stdout
    Program.write (← IO.getStderr) outcome.console.stderr
    return outcome.exitCode.toUInt32
  | .error _ =>
    Program.write (← IO.getStderr) "the input cannot be processed\n"
    return 2
