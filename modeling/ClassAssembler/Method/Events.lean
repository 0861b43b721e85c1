import ClassAssembler.Method.Frames

/-!
# Events of a method

A method takes its events in order.  One that comes too early or too late is recorded as a failure,
and after a failure all events are refused silently.
-/

namespace ClassAssembler

namespace MethodM

def requireAllResolved (op : String) : List LabelId → SessionM Bool
  | [] => return true
  | l :: ls => do
    if ← requireResolved op l then requireAllResolved op ls else return false

/-- The end of the code: all jump targets and handlers must have positions, and what is to be
computed is computed. -/
def maxs (maxStack maxLocals : Int) : MethodM Unit := do
  let op := "VisitMaxs"
  if ← isLive op then
    if !(← get).hasCode then PoolM.fail .insnBeforeCode op
    else if (← get).hasMaxs then PoolM.fail .maxsTwice op
    else
      modify fun m => { m with hasMaxs := true }
      if ← requireAllResolved op (← get).forward.toList then
        modify fun m => { m with forward := #[] }
        let rows := (← get).handlers.toList.flatMap fun h => [h.start, h.stop, h.handler]
        if ← requireAllResolved op rows then
          match (← get).compute with
          | .frames => computeFrames
          | .maxs =>
            computeMaxStack
            modify fun m =>
              { m with maxStack := if m.maxStack < maxStack then maxStack else m.maxStack }
          | _ => modify fun m => { m with maxStack, maxLocals }

def take : CodeEvent LabelId → MethodM Unit
  | .instruction i => do
    if ← isInCode i.operation then
      i.write
  | .label l => do
    if ← isInCode "VisitLabel" then
      label l
  | .frame f => do
    if ← isInCode "VisitFrame" then
      frame f
  | .tryCatch start stop handler caught => do
    if ← isInCode "VisitTryCatchBlock" then
      tryCatch start stop handler caught
  | .localVariable name desc signature start stop slot => do
    if ← isInCode "VisitLocalVariable" then
      localVariable name desc signature start stop slot
  | .line number start => do
    if ← isInCode "VisitLineNumber" then
      line number start
  | .maxs stack locals => maxs stack locals

def takeAll : List (CodeEvent LabelId) → MethodM Unit
  | [] => return
  | e :: es => do
    take e
    takeAll es

/-- A named parameter with its flags; the empty name stands for none. -/
def parameter (name : Text) (access : Int) : MethodM Unit := do
  if ← isLive "VisitParameter" then
    let n ← if name.isEmpty then pure 0 else PoolM.utf8 name
    modify fun m =>
      { m with
        parameterCount := m.parameterCount + 1
        parameters := some (((m.parameters.getD {}).putShort n).putShort access) }

def addAttribute (a : RawAttribute) (ofCode : Bool) : MethodM Unit := do
  if ← isLive "VisitAttribute" then
    modify fun m =>
      if ofCode then { m with codeAttributes := m.codeAttributes.push a }
      else { m with attributes := m.attributes.push a }

def beginCode : MethodM Unit := do
  if ← isLive "VisitCode" then
    modify fun m => { m with hasCode := true }

def finish : MethodM Unit := do
  if ← isLive "VisitEnd" then
    modify fun m => { m with isEnded := true }

def classRefs : List Text → PoolM (List Nat)
  | [] => return []
  | t :: ts => do
    let i ← PoolM.classRef t
    return i :: (← classRefs ts)

end MethodM

namespace Method

def constructorName : Text := "<init>"

def create (compute : Compute) (access : Int) (name desc signature : Text)
    (exceptions : List Text) : SessionM Method := do
  let flags := Flags.ofInt access
  let nameIndex ← PoolM.utf8 name
  let descIndex ← PoolM.utf8 desc
  let thrown ← MethodM.classRefs exceptions
  let m : Method :=
    { access := if name = constructorName then flags ||| Access.constructor else flags
      nameIndex, descIndex, name, desc, signature, exceptions := thrown, compute }
  return (← MethodM.openCode.run m).2

end Method

end ClassAssembler
