import ClassAssembler.Method.Heights

/-!
# Frames of all blocks

The frame a block begins with is carried over its instructions and merged into the frames of its
successors, until nothing changes.  Blocks that are not reached are replaced by code that only throws.
-/

namespace ClassAssembler

namespace MethodM

def throwableName : Text := "java/lang/Throwable"

/-- Adds an edge from every block of a protected range to its handler. -/
def protect (h : Handler) : MethodM Unit := do
  let start ← SessionM.blockOf h.start
  let handler ← SessionM.blockOf h.handler
  let stop ← SessionM.blockOf h.stop
  let caught ← SessionM.objectType (if h.caught.isEmpty then throwableName else h.caught)
  SessionM.modifyLabel handler fun l => { l with isTarget := true }
  for block in ← SessionM.chain start (some stop) do
    addEdge block (.exception caught) handler

end MethodM

namespace SessionM

def flowInto (source : FrameId) (edge : Edge) (work : List LabelId) : SessionM (List LabelId) := do
  let target ← blockOf edge.target
  let into ← frameOf target
  let from_ ← frame source
  let inputHeight := (← label from_.owner).inputHeight
  let changed ← onFrame into do
    let target ← modifyGet fun f => (f, { owner := f.owner })
    let (merged, changed) ← from_.merge inputHeight target (into == source) edge.kind
    set merged
    return changed
  if changed then enqueue [target] work else return work

def flowIntoAll (source : FrameId) : List Edge → List LabelId → SessionM (List LabelId)
  | [], work => return work
  | e :: es, work => do
    flowIntoAll source es (← flowInto source e work)

/-- Carries the frames of the blocks on a worklist on until nothing changes, and gives the largest
stack height.  It stops early, with no height, when a failure has been recorded. -/
def settleFrames : Nat → List LabelId → Int → SessionM (Option Int)
  | 0, _, _ => throw .endless
  | _ + 1, [], largest => return some largest
  | n + 1, l :: work, largest => do
    modifyLabel l fun b =>
      { b with isQueued := false, needsFrame := b.needsFrame || b.isTarget, isReachable := true }
    let b ← label l
    let source ← frameOf l
    let top := (← frame source).stack.size + b.peak
    let work ← flowIntoAll source b.successors work
    if ← PoolM.hasFailed then return none
    else settleFrames n work (if largest < top then top else largest)

/-- More than the number of times a block can change: every slot of every block can only climb
from a class to the classes above it. -/
def changeBound (maxLocals : Int) (codeSize : Nat) : SessionM Nat := do
  let s ← get
  let slots := maxLocals.toNat + 2 * codeSize + 2
  return 1 + s.labels.size * (1 + slots * 16 * (s.hierarchy.depth + 4))

end SessionM

namespace Buffer

def putDead (b : Buffer) (start : Nat) : Nat → Checked Buffer
  | 0 => b.patch start (UInt8.ofNat Opcode.athrow.code)
  | n + 1 => do (← b.patch start (UInt8.ofNat Opcode.nop.code)).putDead (start + 1) n

end Buffer

namespace MethodM

def blockEnd (b : Label) : MethodM Nat := do
  match b.next with
  | some next => return (← SessionM.label next).position
  | none => codeSize

def overwriteDead (start behind : Nat) : MethodM Unit := do
  let code ← modifyGet fun m => (m.code, { m with code := {} })
  let code ← code.putDead start (behind - 1 - start)
  modify fun m => { m with code }

/-- Replaces the code of an unreachable block, which then has an exception on its stack and is
protected by no handler.  The result tells whether there was any code. -/
def replaceDead (block : LabelId) : MethodM Bool := do
  let b ← SessionM.label block
  let start := b.position
  let behind ← blockEnd b
  if behind ≤ start then return false
  else
    overwriteDead start behind
    let thrown ← SessionM.objectType throwableName
    addFrame { offset := start, locals := [], stack := [thrown] }
    let session : Session ← getThe Session
    let position (l : LabelId) : Nat := (session.labels[l]?.map (·.position)).getD 0
    modify fun m => { m with handlers := Handler.subtract position block b.next m.handlers }
    return true

/-- Writes the frames of the blocks that need one and replaces the unreachable blocks.  The result
is the largest stack height, given that of the reachable code. -/
def writeFrames : List LabelId → Int → MethodM Int
  | [], largest => return largest
  | block :: blocks, largest => do
    let b ← SessionM.label block
    if b.needsFrame then
      addBlockFrame (← SessionM.frame (← SessionM.frameOf block))
    if b.isReachable then writeFrames blocks largest
    else
      let replaced ← replaceDead block
      writeFrames blocks (if replaced ∧ largest < 1 then 1 else largest)

/-- Adds the edges to the handlers and gives the first block its frame.  The result is more than the
number of times that blocks can change. -/
def prepareFrames (entry : LabelId) : MethodM Nat := do
  for h in (← get).handlers do
    protect h
  let f ← SessionM.frameOf entry
  openFrame f (← get).maxLocals.toNat
  addBlockFrame (← SessionM.frame f)
  SessionM.modifyLabel entry fun l => { l with isQueued := true }
  SessionM.changeBound (← get).maxLocals (← codeSize)

def writeAllFrames (entry : LabelId) (largest : Int) : MethodM Unit := do
  let blocks ← SessionM.chain entry none
  let largest ← writeFrames blocks.toList largest
  modify fun m => { m with maxStack := largest }

def computeFrames : MethodM Unit := do
  match (← get).entry with
  | none => throw .missing
  | some entry =>
    let bound ← prepareFrames entry
    match ← SessionM.settleFrames bound [entry] 0 with
    | some largest => writeAllFrames entry largest
    | none => return

end MethodM

end ClassAssembler
