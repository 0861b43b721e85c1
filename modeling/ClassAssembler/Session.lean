import ClassAssembler.Frame.Basic
import ClassAssembler.TypeTable

/-!
# Sessions

A session holds what the methods of one class share while it is assembled.
-/

namespace ClassAssembler

structure Session where
  version : Int := 0
  thisName : Text := []
  hierarchy : Hierarchy := .unknown
  types : TypeTable := {}
  labels : Array Label := #[]
  frames : Array Frame := #[]
deriving Inhabited

abbrev SessionM := StateT Session PoolM

namespace Session

def major (s : Session) : Int := s.version % 65536

end Session

namespace SessionM

/-! ## Labels -/

def newLabel : SessionM LabelId := do
  let id := (← get).labels.size
  modify fun s => { s with labels := s.labels.push {} }
  return id

def label (l : LabelId) : SessionM Label := do
  match (← get).labels[l]? with
  | some label => return label
  | none => throw .missing

@[inline] def modifyLabel (l : LabelId) (f : Label → Label) : SessionM Unit :=
  modify fun s => { s with labels := s.labels.modify l f }

/-! ## Frames -/

def newFrame (owner : LabelId) : SessionM FrameId := do
  let id := (← get).frames.size
  modify fun s => { s with frames := s.frames.push { owner } }
  return id

def frame (f : FrameId) : SessionM Frame := do
  match (← get).frames[f]? with
  | some frame => return frame
  | none => throw .missing

def frameOf (l : LabelId) : SessionM FrameId := do
  match (← label l).frame with
  | some f => return f
  | none => throw .missing

@[inline] def onFrame {α : Type} (f : FrameId) (act : StateT Frame SessionM α) : SessionM α := do
  let current ← frame f
  -- the stored frame is put aside, so that its arrays have one owner
  modify fun s => { s with frames := s.frames.setIfInBounds f default }
  let (a, changed) ← act.run current
  modify fun s => { s with frames := s.frames.setIfInBounds f changed }
  return a

def blockOf (l : LabelId) : SessionM LabelId := do
  match (← label l).frame with
  | some f => return (← frame f).owner
  | none => return l

/-! ## Types -/

def place (e : TableType) : SessionM Nat := do
  let (i, tooLarge) ← modifyGet fun s =>
    let (types, i, tooLarge) := s.types.add e
    ((i, tooLarge), { s with types })
  if tooLarge then
    PoolM.fail .typeTableTooLarge "addType"
  return i

def placeOf (name : Text) : SessionM Nat := place (.named name)

def placeOfFresh (name : Text) (offset : Int) : SessionM Nat := place (.fresh name (.ofInt offset))

def typeAt (i : Nat) : SessionM TableType := do
  match (← get).types.at? i with
  | some e => return e
  | none => throw .missing

def objectType (name : Text) : SessionM SlotType := return .object (← placeOf name)

def commonSuper (a b : Text) : SessionM Text := do
  if a = b then return a
  else if a = objectName ∨ b = objectName then return objectName
  else
    match (← get).hierarchy.common? a b with
    | some c => return c
    | none =>
      PoolM.fail .noCommonSuper "getCommonSuperClass" [.string a, .string b]
      return objectName

def mergedPlace (i j : Nat) : SessionM Nat := do
  match (← get).types.merged? i j with
  | some k => return k
  | none =>
    let a ← typeAt i
    let b ← typeAt j
    let k ← placeOf (← commonSuper a.name b.name)
    modify fun s => { s with types := s.types.remember i j k }
    return k

end SessionM

end ClassAssembler
