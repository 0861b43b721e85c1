import ClassAssembler.Method.StackMap

/-!
# Stack heights of blocks

Every block is entered with the height its first predecessor leaves, and a handler with one value.
Subroutines are followed by joining their returns to the places behind their calls.
-/

namespace ClassAssembler

namespace SessionM

def chainFrom (stop : Option LabelId) :
    Nat → Option LabelId → Array LabelId → SessionM (Array LabelId)
  | 0, _, acc => return acc
  | _ + 1, none, acc => return acc
  | n + 1, some l, acc => do
    if stop = some l then return acc
    else chainFrom stop n (← label l).next (acc.push l)

def chain (start : LabelId) (stop : Option LabelId) : SessionM (Array LabelId) := do
  chainFrom stop ((← get).labels.size + 1) (some start) #[]

def callEdges (l : LabelId) : SessionM (Edge × Edge) := do
  match (← label l).successors with
  | behind :: called :: _ => return (behind, called)
  | _ => throw .missing

def localSuccessors (l : Label) : List LabelId :=
  let targets := l.successors.map Edge.target
  if l.callsSubroutine then targets.take 1 ++ targets.drop 2 else targets

def enqueue : List LabelId → List LabelId → SessionM (List LabelId)
  | [], work => return work
  | l :: ls, work => do
    if (← label l).isQueued then enqueue ls work
    else
      modifyLabel l fun l => { l with isQueued := true }
      enqueue ls (l :: work)

def dequeued (l : LabelId) : SessionM Unit :=
  modifyLabel l fun l => { l with isQueued := false }

def edgeBound : SessionM Nat := do
  return (← get).labels.foldl (fun n l => n + l.successors.length + 1) 1

def claimBlocks (id : Nat) : Nat → List LabelId → SessionM Unit
  | 0, _ => return
  | _ + 1, [] => return
  | n + 1, l :: work => do
    dequeued l
    let b ← label l
    if b.isInSubroutine ∧ b.subroutines.testBit id then claimBlocks id n work
    else
      modifyLabel l fun b =>
        { b with isInSubroutine := true, subroutines := b.subroutines ||| 1 <<< id }
      claimBlocks id n (← enqueue (localSuccessors b) work)

def shareSubroutine (a b : Label) : Bool :=
  a.isInSubroutine && b.isInSubroutine && a.subroutines &&& b.subroutines != 0

def linkReturns (call : LabelId) : Nat → List LabelId → SessionM Unit
  | 0, _ => return
  | _ + 1, [] => return
  | n + 1, l :: work => do
    dequeued l
    let b ← label l
    if b.isReturnLinked then linkReturns call n work
    else
      modifyLabel l fun b => { b with isReturnLinked := true }
      if b.returnsFromSubroutine ∧ !shareSubroutine b (← label call) then
        let (behind, _) ← callEdges call
        MethodM.addEdge l (.flow b.inputHeight) behind.target
      linkReturns call n (← enqueue (localSuccessors (← label l)) work)

def claimSubroutine (id : Nat) (start : LabelId) : SessionM Unit := do
  modifyLabel start fun l => { l with isQueued := true }
  claimBlocks id (← edgeBound) [start]

def linkCall (blocks : Array LabelId) (call : LabelId) : SessionM Unit := do
  for b in blocks do
    modifyLabel b fun l => { l with isReturnLinked := false }
  let (_, called) ← callEdges call
  modifyLabel called.target fun l => { l with isQueued := true }
  linkReturns call (2 * (← edgeBound)) [called.target]

def claimCalls : List LabelId → Nat → SessionM Unit
  | [], _ => return
  | call :: calls, id => do
    let (_, called) ← callEdges call
    if (← label called.target).isInSubroutine then claimCalls calls id
    else
      claimSubroutine (id + 1) called.target
      claimCalls calls (id + 1)

def callsIn (blocks : Array LabelId) : SessionM (List LabelId) := do
  let labels := (← get).labels
  return (blocks.filter fun b => (labels[b]?).any (·.callsSubroutine)).toList

def joinSubroutines (entry : LabelId) : SessionM Unit := do
  let blocks ← chain entry none
  claimSubroutine 0 entry
  let calls ← callsIn blocks
  claimCalls calls 0
  for call in calls do
    linkCall blocks call

/-- Adds the edge to an exception handler to a block.  In a block with a subroutine call the two
edges of the call stay in front. -/
def addHandlerEdge (handler block : LabelId) : SessionM Unit := do
  let edge : Edge := ⟨.exception .top, handler⟩
  let b ← label block
  if b.callsSubroutine then
    match b.successors with
    | behind :: called :: rest =>
      modifyLabel block fun b => { b with successors := behind :: called :: edge :: rest }
    | _ => throw .missing
  else modifyLabel block fun b => { b with successors := edge :: b.successors }

def enterSuccessors (height : Int) : List Edge → List LabelId → SessionM (List LabelId)
  | [], work => return work
  | e :: es, work => do
    if (← label e.target).isPushed then enterSuccessors height es work
    else
      let entered : Int :=
        match e.kind with
        | .exception _ => 1
        | .flow h => height + h
      modifyLabel e.target fun l => { l with inputHeight := entered, isPushed := true }
      enterSuccessors height es (e.target :: work)

def largestHeight : Nat → List LabelId → Int → SessionM Int
  | 0, _, largest => return largest
  | _ + 1, [], largest => return largest
  | n + 1, l :: work, largest => do
    let b ← label l
    let top := b.inputHeight + b.peak
    let edges := if b.callsSubroutine then b.successors.drop 1 else b.successors
    let work ← enterSuccessors b.inputHeight edges work
    largestHeight n work (if largest < top then top else largest)

end SessionM

namespace MethodM

def computeMaxStack : MethodM Unit := do
  match (← get).entry with
  | none => throw .missing
  | some entry =>
    for h in (← get).handlers do
      for block in ← SessionM.chain h.start (some h.stop) do
        SessionM.addHandlerEdge h.handler block
    if 0 < (← get).subroutineCount then
      SessionM.joinSubroutines entry
    let session : Session ← getThe Session
    let largest ← SessionM.largestHeight (session.labels.size + 1) [entry] 0
    modify fun m => { m with maxStack := largest }

end MethodM

end ClassAssembler
