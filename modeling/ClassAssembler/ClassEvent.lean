import ClassAssembler.Assembler

/-!
# Class events

A whole class as a sequence of events.  Labels are numbered through the class in the order in which
the events first mention them.
-/

namespace ClassAssembler

inductive ClassEvent (Target : Type) where
  | header (version access : Int) (name signature super : Text) (interfaces : List Text)
  | source (file debug : Text)
  | field (access : Int) (name desc signature : Text) (value : Value)
  | method (access : Int) (name desc signature : Text) (exceptions : List Text)
  | beginCode
  | code (e : CodeEvent Target)
  | finishMethod
  | finish
deriving Inhabited

namespace ClassEvent

def targets {T : Type} : ClassEvent T → List T
  | code e => e.targets
  | _ => []

def mapTargets {T U : Type} (f : T → U) : ClassEvent T → ClassEvent U
  | header v a n s u is => header v a n s u is
  | source s d => source s d
  | field a n d s v => field a n d s v
  | method a n d s es => method a n d s es
  | beginCode => beginCode
  | code e => code (e.mapTargets f)
  | finishMethod => finishMethod
  | finish => finish

end ClassEvent

/-! ## Numbering labels -/

abbrev Numbering (T : Type) [BEq T] [Hashable T] := Std.HashMap T Nat

namespace Numbering

variable {T : Type} [BEq T] [Hashable T]

def note (n : Numbering T) (l : T) : Numbering T := n.insertIfNew l n.size

def ofEvents (events : List (ClassEvent T)) : Numbering T :=
  events.foldl (fun n e => e.targets.foldl note n) {}

end Numbering

def ClassEvent.number {T : Type} [BEq T] [Hashable T] (events : List (ClassEvent T)) :
    List (ClassEvent Nat) :=
  let n := Numbering.ofEvents events
  events.map (·.mapTargets fun l => n.getD l 0)

/-! ## Assembling events -/

namespace ClassM

def onOpen (m : Option MethodId) (act : MethodM Unit) : ClassM Unit :=
  match m with
  | some m => onMethod m act
  | none => return

def takeEvent (m : Option MethodId) : ClassEvent LabelId → ClassM (Option MethodId)
  | .header v a n s u is => do
    header v a n s u is
    return m
  | .source f d => do
    source f d
    return m
  | .field a n d s v => do
    if let some f ← newField a n d s v then
      finish (.field f)
    return m
  | .method a n d s es => newMethod a n d s es
  | .beginCode => do
    onOpen m MethodM.beginCode
    return m
  | .code e => do
    onOpen m (MethodM.take e)
    return m
  | .finishMethod => do
    onOpen m MethodM.finish
    return none
  | .finish => do
    finish .body
    return m

def takeEvents : List (ClassEvent LabelId) → Option MethodId → ClassM Unit
  | [], _ => return
  | e :: es, m => do
    let m ← takeEvent m e
    takeEvents es m

def newLabels : Nat → ClassM Unit
  | 0 => return
  | n + 1 => do
    discard <| SessionM.newLabel
    newLabels n

end ClassM

namespace Assembler

def assemble {T : Type} [BEq T] [Hashable T] (compute : Compute) (options : Options)
    (events : List (ClassEvent T)) : Checked (Except Failure Buffer) := do
  let (bytes, _) ← (create compute options).run do
    -- a new assembler numbers its labels from zero
    ClassM.newLabels (Numbering.ofEvents events).size
    ClassM.takeEvents (ClassEvent.number events) none
    ClassM.toBytes
  return bytes

end Assembler

end ClassAssembler
