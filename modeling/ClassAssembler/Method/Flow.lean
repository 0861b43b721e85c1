import ClassAssembler.Method.Basic
import ClassAssembler.Opcode.Format

/-!
# Labels and blocks of a method

Placing a label settles the jumps that wait for it and begins a new block.  A short jump whose
distance turns out too large keeps its place in the code as a pending wide jump.
-/

namespace ClassAssembler

namespace Buffer

def patchList (b : Buffer) (i : Nat) : List UInt8 → Checked Buffer
  | [] => return b
  | v :: vs => do (← b.patch i v).patchList (i + 1) vs

def fitsShort (d : Int) : Bool := -32768 ≤ d && d ≤ 32767

/-- Writes the distance of a waiting jump to its target.  The result tells whether the jump is now
pending. -/
def settleJump (b : Buffer) (position : Nat) (j : PendingJump) : Checked (Buffer × Bool) := do
  let distance : Int := position - j.source
  if j.isWide then return (← b.patchList j.field (bytes32 distance), false)
  else
    let short := [low8 (distance / 256), low8 distance]
    if fitsShort distance then return (← b.patchList j.field short, false)
    else
      if j.field = 0 then throw .outOfRange
      let op ← b.peek (j.field - 1)
      let shift := if op.toNat ≤ Opcode.jsr.code then Opcode.pendingShift else Opcode.pendingNullShift
      let b ← b.patch (j.field - 1) (op + UInt8.ofNat shift)
      return (← b.patchList j.field short, true)

/-- Writes the distances of all waiting jumps.  The result tells whether any of them is now
pending. -/
def settleJumps (b : Buffer) (position : Nat) : List PendingJump → Bool → Checked (Buffer × Bool)
  | [], pending => return (b, pending)
  | j :: js, pending => do
    let (b, p) ← b.settleJump position j
    b.settleJumps position js (pending || p)

end Buffer

namespace MethodM

def addEdge (block : LabelId) (kind : EdgeKind) (target : LabelId) : SessionM Unit :=
  SessionM.modifyLabel block fun l => { l with successors := ⟨kind, target⟩ :: l.successors }

def resolveLabel (l : LabelId) : MethodM Unit := do
  let waiting := (← SessionM.label l).pending
  let position ← codeSize
  SessionM.modifyLabel l fun l => { l with isResolved := true, position, pending := #[] }
  unless waiting.isEmpty do
    let code ← modifyGet fun m => (m.code, { m with code := {} })
    let (code, pending) ← code.settleJumps position waiting.toList false
    modify fun m => { m with code, hasPending := m.hasPending || pending }

def aliasBlock (l block : LabelId) : SessionM Unit := do
  let label ← SessionM.label l
  let frame := (← SessionM.label block).frame
  SessionM.modifyLabel block fun b => { b with isTarget := b.isTarget || label.isTarget }
  SessionM.modifyLabel l fun l => { l with frame }

def giveFrame (l : LabelId) : SessionM Unit := do
  if (← SessionM.label l).frame.isNone then
    let f ← SessionM.newFrame l
    SessionM.modifyLabel l fun l => { l with frame := some f }

/-- Chains the block of a label behind the last one.  A label at the position of the last block is
another name of it. -/
def chainBlock (l : LabelId) (position : Nat) : MethodM Unit := do
  match (← get).lastBlock with
  | none => modify fun m => { m with currentBlock := some l, lastBlock := some l }
  | some last =>
    if (← SessionM.label last).position = position then
      aliasBlock l last
      modify fun m => { m with currentBlock := some last }
    else
      SessionM.modifyLabel last fun b => { b with next := some l }
      modify fun m => { m with currentBlock := some l, lastBlock := some l }

/-- Begins a block at a label while frames are computed.  A label at the position of the current
block is another name of it. -/
def beginFrameBlock (l : LabelId) : MethodM Unit := do
  let position := (← SessionM.label l).position
  match (← get).currentBlock with
  | none =>
    giveFrame l
    chainBlock l position
  | some block =>
    if (← SessionM.label block).position = position then aliasBlock l block
    else
      addEdge block (.flow 0) l
      giveFrame l
      chainBlock l position

def beginHeightBlock (l : LabelId) : MethodM Unit := do
  let m ← get
  if let some block := m.currentBlock then
    SessionM.modifyLabel block fun b => { b with peak := m.peak }
    addEdge block (.flow m.height) l
  if let some last := m.lastBlock then
    SessionM.modifyLabel last fun b => { b with next := some l }
  modify fun m => { m with currentBlock := some l, lastBlock := some l, height := 0, peak := 0 }

def continueInserted (l : LabelId) : MethodM Unit := do
  match (← get).currentBlock with
  | none => modify fun m => { m with currentBlock := some l }
  | some block =>
    if let some f := (← SessionM.label block).frame then
      SessionM.onFrame f (modify fun frame => { frame with owner := l })

def placeLabel (l : LabelId) : MethodM Unit := do
  resolveLabel l
  match (← get).compute with
  | .nothing => return
  | .maxs => beginHeightBlock l
  | .frames => beginFrameBlock l
  | .inserted => continueInserted l

def placeNewBlock : MethodM LabelId := do
  let l ← SessionM.newLabel
  let f ← SessionM.newFrame l
  let position ← codeSize
  SessionM.modifyLabel l fun l => { l with frame := some f, isResolved := true, position }
  return l

def chainNewBlock : MethodM Unit := do
  let l ← placeNewBlock
  match (← get).lastBlock with
  | none => throw .missing
  | some last => SessionM.modifyLabel last fun b => { b with next := some l }
  modify fun m => { m with lastBlock := some l }

def endBlock (block : LabelId) : MethodM Unit := do
  if (← get).compute = .frames then chainNewBlock
  else
    let peak := (← get).peak
    SessionM.modifyLabel block fun b => { b with peak }
  unless (← get).compute = .inserted do
    modify fun m => { m with currentBlock := none }

/-- Appends the distance to a label, measured from the instruction at `source`.  A label without a
position is waited for. -/
def emitDistance (l : LabelId) (source : Nat) (isWide : Bool) : MethodM Unit := do
  let label ← SessionM.label l
  if label.isResolved then
    let distance : Int := label.position - source
    emit fun b => if isWide then b.putInt distance else b.putShort distance
  else
    let field ← codeSize
    modify fun m => { m with forward := m.forward.push l }
    SessionM.modifyLabel l fun l => { l with pending := l.pending.push { source, field, isWide } }
    emit fun b => if isWide then b.putInt (-1) else b.putShort (-1)

/-- Prepares the analysis of a method: its local variables begin with its parameters, and its
first block with its code. -/
def openCode : MethodM Unit := do
  let m ← get
  unless m.compute = .nothing do
    let size ← JavaType.callSize m.desc
    let n : Int := if m.isStatic then size.arguments - 1 else size.arguments
    let l ← SessionM.newLabel
    SessionM.modifyLabel l fun l => { l with isPushed := true }
    modify fun m => { m with maxLocals := n, frameLocals := n, entry := some l }
    placeLabel l

end MethodM

end ClassAssembler
