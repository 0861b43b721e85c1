import Std.Data.HashMap
import Std.Data.HashSet
import ClassAssembler.Code.FrameTable
import ClassAssembler.Method.Events

/-!
# Writing a method again

A method with pending jumps is written again from its own code: the code is decoded into events,
which a new method takes with wide jumps and, from version fifty on, inserted frames.
-/

namespace ClassAssembler

namespace CodeEvent

def expanded {T : Type} (locals stack : List (FrameItem T)) : CodeEvent T :=
  frame
    { kind := FrameEvent.expanded
      localCount := locals.length
      locals
      stackCount := stack.length
      stack }

end CodeEvent

namespace Method

def entryItems (m : Method) (thisName : Text) : Checked (List (FrameItem Int)) := do
  let this : List (FrameItem Int) :=
    if m.isStatic then [] else if m.isConstructor then [.number 6] else [.name thisName]
  let params ← (← JavaType.argumentTypes m.desc).mapM fun t =>
    match t.sort with
    | .boolean | .char | .byte | .short | .int => return .number 1
    | .float => return .number 2
    | .long => return .number 4
    | .double => return .number 3
    | _ => return .name (← t.internalName)
  return this ++ params

def readFrames (m : Method) (pool : Pool) (session : Session) : Checked (List TableFrame) := do
  match m.stackMap with
  | none => return []
  | some b =>
    let frames ←
      if session.major < 50 then (TableFrame.readFull pool m.frameCount).run b.toList
      else
        let entry ← m.entryItems session.thisName
        (TableFrame.readDifferences pool m.frameCount entry (-1)).run b.toList
    return frames.1

def nameAt (pool : Pool) (i : Nat) : Checked Text := return (← pool.fetch i).first

def handlerEvents (m : Method) (pool : Pool) (position : LabelId → Int) :
    Checked (List (CodeEvent Int)) :=
  m.handlers.toList.mapM fun h => do
    let caught ← if h.caughtIndex = 0 then pure [] else nameAt pool h.caughtIndex
    return .tryCatch (position h.start) (position h.stop) (position h.handler) caught

def variableEvents (m : Method) (pool : Pool) : Checked (List (CodeEvent Int)) :=
  m.localRows.toList.mapM fun v => do
    let signature ←
      match m.localTypeRows.find? fun t =>
        t.start == v.start && t.slot == v.slot && t.name == v.name with
      | some t => nameAt pool t.desc
      | none => pure []
    return .localVariable (← nameAt pool v.name) (← nameAt pool v.desc) signature v.start
      (v.start + v.length) v.slot

def labelOffsets (m : Method) (steps : Array (Int × DecodedStep)) (frames : List TableFrame)
    (position : LabelId → Int) : List Int :=
  let targets := steps.toList.flatMap fun (_, s) => s.instructions.flatMap Instruction.targets
  let handlers := m.handlers.toList.flatMap fun h =>
    [position h.start, position h.stop, position h.handler]
  let lines := m.lineRows.toList.map fun r => (r.offset : Int)
  let variableRanges := m.localRows.toList.flatMap fun v => [(v.start : Int), v.start + v.length]
  let created := frames.flatMap fun f =>
    (f.locals ++ f.stack).filterMap fun
      | .created l => some l
      | _ => none
  targets ++ handlers ++ lines ++ variableRanges ++ created ++ frames.map TableFrame.offset

def labelEvents (isLabel : Int → Bool) (lines : Std.HashMap Int (Array Int)) (offset : Int) :
    List (CodeEvent Int) :=
  if isLabel offset then
    .label offset :: ((lines[offset]?.getD #[]).toList.map fun n => .line n offset)
  else []

/-- The events of the code from some instruction on.  `wantsFrame` tells whether a frame has to
stand before it; a frame that is given serves as well. -/
def codeEvents (insertsFrames : Bool) (at_ : Int → List (CodeEvent Int)) :
    List (Int × DecodedStep) → List TableFrame → Bool → Array (CodeEvent Int) →
      Array (CodeEvent Int)
  | [], _, _, acc => acc
  | (offset, step) :: steps, frames, wantsFrame, acc =>
    let here := frames.takeWhile fun f => f.offset ≤ offset
    let given := here.filter fun f => f.offset == offset
    let acc := acc ++ at_ offset ++ given.map fun f => CodeEvent.expanded f.locals f.stack
    let acc :=
      if wantsFrame && given.isEmpty then
        acc.push (.frame ⟨FrameEvent.inserted, 0, [], 0, []⟩)
      else acc
    codeEvents insertsFrames at_ steps (frames.drop here.length)
      (step.wantsFrame && insertsFrames) (acc ++ step.instructions.map CodeEvent.instruction)

def linesByOffset (m : Method) : Std.HashMap Int (Array Int) :=
  m.lineRows.foldl (fun lines r =>
    lines.alter (r.offset : Int) fun ns => some ((ns.getD #[]).push r.line)) {}

def reread (m : Method) (pool : Pool) (session : Session) (insertsFrames : Bool) :
    Checked (List Int × List (CodeEvent Int)) := do
  let position (l : LabelId) : Int := (session.labels[l]?.map (·.position)).getD 0
  let steps ← Code.decode m.code.bytes pool
  let frames ← m.readFrames pool session
  let offsets := m.labelOffsets steps frames position
  let known : Std.HashSet Int := Std.HashSet.ofList offsets
  let at_ := labelEvents known.contains m.linesByOffset
  let handlers ← m.handlerEvents pool position
  if insertsFrames ∧ m.maxLocals < 0 then throw .negativeLength
  let entry : List (CodeEvent Int) :=
    if insertsFrames then [.expanded (List.replicate m.maxLocals.toNat (.number 0)) []] else []
  let body := codeEvents insertsFrames at_ steps.toList frames false #[]
  let variableRows ← m.variableEvents pool
  return (offsets,
    handlers ++ entry ++ body.toList ++ at_ m.code.size ++ variableRows
      ++ [.maxs m.maxStack m.maxLocals])

def allocate : List Int → Std.HashMap Int LabelId → SessionM (Std.HashMap Int LabelId)
  | [], labels => return labels
  | o :: os, labels => do
    if labels.contains o then allocate os labels
    else
      let l ← SessionM.newLabel
      allocate os (labels.insert o l)

def widened (m : Method) : SessionM Method := do
  let insertsFrames := 50 ≤ (← getThe Session).major
  let size := m.code.size
  let fresh : Method :=
    { access := m.access, nameIndex := m.nameIndex, descIndex := m.descIndex, name := m.name
      desc := m.desc, signature := m.signature, exceptions := m.exceptions
      compute := if insertsFrames then .inserted else .nothing
      parameterCount := m.parameterCount, parameters := m.parameters
      defaultValue := m.defaultValue, annotations := m.annotations
      visibleParameters := m.visibleParameters, invisibleParameters := m.invisibleParameters
      hiddenParameters := m.hiddenParameters
      attributes := m.attributes, codeAttributes := m.codeAttributes
      code := .withRoom (size + size / 4), hasCode := true }
  let (_, opened) ← MethodM.openCode.run fresh
  let (offsets, events) ← m.reread (← getThe Pool) (← getThe Session) insertsFrames
  let labels ← allocate offsets {}
  let events := events.map (CodeEvent.mapTargets fun o => labels[o]?.getD 0)
  let (_, written) ← (MethodM.takeAll events).run opened
  return { written with isEnded := true }

end Method

end ClassAssembler
