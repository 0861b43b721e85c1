import ClassAssembler.Text.Path

/-!
# Files

What the program needs of a file system, and a file system in memory.  On the way along a path
every part before the last has to be a directory.
-/

namespace ClassAssembler

inductive FileFault where
  | missing
  | notDirectory
  | isDirectory
  | isPresent
  | nameTooLong
  | other (message : Text)
deriving DecidableEq, Inhabited

structure FileError where
  action : String
  path : Text
  fault : FileFault
deriving DecidableEq, Inhabited

inductive FileKind where
  | file
  | directory
deriving DecidableEq, Repr, Inhabited

namespace FileFault

def message : FileFault → Text
  | missing => "no such file or directory"
  | notDirectory => "not a directory"
  | isDirectory => "is a directory"
  | isPresent => "file exists"
  | nameTooLong => "file name too long"
  | other message => message

end FileFault

namespace FileError

def message (e : FileError) : Text :=
  Text.ofString e.action ++ [32] ++ e.path ++ Text.ofString ": " ++ e.fault.message

end FileError

class Files (m : Type → Type) where
  currentDirectory : m Text
  kind? : Text → m (Option FileKind)
  readFile : Text → m (Except FileError Text)
  writeFile : Text → Text → m (Except FileError Unit)
  createDirectory : Text → m (Except FileError Unit)

namespace Files

variable {m : Type → Type} [Monad m] [Files m]

def absolute (path : Text) : m Text := do
  if Path.isAbsolute path then return Path.clean path
  else return Path.join (← currentDirectory) path

def outerDirectory (path : Text) : Text :=
  let path := (path.reverse.dropWhile (· == Path.slash)).reverse
  let last := path.reverse.takeWhile (· != Path.slash)
  path.take (path.length - last.length - 1)

/-- Creates a directory and, if need be, those around it.  The fuel bounds their number. -/
def createDirectories : Nat → Text → m (Except FileError Unit)
  | 0, _ => return .ok ()
  | fuel + 1, path => do
    match ← kind? path with
    | some .directory => return .ok ()
    | some .file => return .error ⟨"mkdir", path, .notDirectory⟩
    | none =>
      let outer := outerDirectory path
      let ready ← if outer.isEmpty then pure (.ok ()) else createDirectories fuel outer
      match ready with
      | .error e => return .error e
      | .ok () =>
        match ← createDirectory path with
        | .ok () => return .ok ()
        | .error e =>
          if (← kind? path) = some .directory then return .ok () else return .error e

end Files

/-! ## Files in memory -/

abbrev Place := List Text

structure FileTree where
  files : List (Place × Text) := []
  directories : List Place := []
  here : Place := []
deriving Inhabited

namespace FileTree

def kindAt? (t : FileTree) (p : Place) : Option FileKind :=
  if (t.files.lookup p).isSome then some .file
  else if (t.here :: t.directories).any (p.isPrefixOf ·) ∨ t.files.any (p.isPrefixOf ·.1) then
    some .directory
  else none

def walk (t : FileTree) : List Text → Place → Except FileFault Place
  | [], p => .ok p
  | part :: parts, p =>
    match t.kindAt? p with
    | none => .error .missing
    | some .file => .error .notDirectory
    | some .directory =>
      if part.isEmpty ∨ part = Path.here then t.walk parts p
      else if part = Path.up then t.walk parts p.dropLast
      else if 255 < part.length then .error .nameTooLong
      else t.walk parts (p ++ [part])

def place (t : FileTree) (path : Text) : Except FileFault Place :=
  if path.isEmpty then .error .missing
  else t.walk (path.split Path.slash) (if Path.isAbsolute path then [] else t.here)

def kind? (t : FileTree) (path : Text) : Option FileKind :=
  match t.place path with
  | .ok p => t.kindAt? p
  | .error _ => none

def read (t : FileTree) (path : Text) : Except FileError Text :=
  match t.place path with
  | .error fault => .error ⟨"open", path, fault⟩
  | .ok p =>
    match t.files.lookup p with
    | some content => .ok content
    | none =>
      if (t.kindAt? p).isSome then .error ⟨"read", path, .isDirectory⟩
      else .error ⟨"open", path, .missing⟩

def put (p : Place) (content : Text) : List (Place × Text) → List (Place × Text)
  | [] => [(p, content)]
  | (q, c) :: files => if q = p then (p, content) :: files else (q, c) :: put p content files

def write (t : FileTree) (path content : Text) : Except FileError FileTree :=
  match t.place path with
  | .error fault => .error ⟨"open", path, fault⟩
  | .ok p =>
    if t.kindAt? p = some .directory then .error ⟨"open", path, .isDirectory⟩
    else .ok { t with files := put p content t.files }

def createDirectory (t : FileTree) (path : Text) : Except FileError FileTree :=
  match t.place path with
  | .error fault => .error ⟨"mkdir", path, fault⟩
  | .ok p =>
    if (t.kindAt? p).isSome then .error ⟨"mkdir", path, .isPresent⟩
    else .ok { t with directories := p :: t.directories }

def attempt (act : FileTree → Except FileError FileTree) :
    StateM FileTree (Except FileError Unit) := do
  match act (← get) with
  | .ok t =>
    set t
    return .ok ()
  | .error e => return .error e

instance : Files (StateM FileTree) where
  currentDirectory := return Path.slash :: Text.join [Path.slash] (← get).here
  kind? path := return (← get).kind? path
  readFile path := return (← get).read path
  writeFile path content := attempt (·.write path content)
  createDirectory path := attempt (·.createDirectory path)

end FileTree

end ClassAssembler
