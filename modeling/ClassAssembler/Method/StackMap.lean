import ClassAssembler.Method.Emit

/-!
# Stack maps

From version fifty on a frame is written as its difference from the one before it, in the shortest
form that fits; before that every frame is written in full.
-/

namespace ClassAssembler

/-! ## Verification types -/

inductive MapItem where
  | basic (code : Int)
  | object (index : Nat)
  | fresh (offset : Int)
deriving DecidableEq, Repr, Inhabited

namespace MapItem

def put (b : Buffer) : MapItem → Buffer
  | basic code => b.putByte code
  | object index => b.putTagged 7 index
  | fresh offset => b.putTagged 8 offset

def putAll (b : Buffer) (items : List MapItem) : Buffer := items.foldl put b

def putCounted (b : Buffer) (items : List MapItem) : Buffer := putAll (b.putShort items.length) items

end MapItem

namespace SlotType

def elementLetter (t : SlotType) : Char :=
  match t.base.bits % 16 with
  | 1 => 'I'
  | 2 => 'F'
  | 3 => 'D'
  | 9 => 'Z'
  | 10 => 'B'
  | 11 => 'C'
  | 12 => 'S'
  | _ => 'J'

def className (index : Nat) : SessionM Text := return (← SessionM.typeAt index).name

def arrayDescriptor (t : SlotType) : SessionM Text := do
  let brackets := List.replicate t.dims JavaType.bracket
  match t.base with
  | .object i => return brackets ++ [JavaType.classMark] ++ (← className i) ++ [JavaType.semicolon]
  | _ => return brackets ++ [t.elementLetter.toUInt8]

def toItem (t : SlotType) : SessionM MapItem := do
  if t.dims = 0 then
    match t.base with
    | .object i => return .object (← PoolM.classRef (← className i))
    | .fresh i => return .fresh (← SessionM.typeAt i).offset
    | b => return .basic b.value
  else return .object (← PoolM.classRef (← t.arrayDescriptor))

def toItems : List SlotType → SessionM (List MapItem)
  | [] => return []
  | t :: ts => do
    let item ← t.toItem
    return item :: (← toItems ts)

def condense : List SlotType → List SlotType
  | [] => []
  | t :: ts =>
    match t.isWide, ts with
    | true, _ :: rest => t :: condense rest
    | _, ts => t :: condense ts

def dropTops (ts : List SlotType) : List SlotType := (ts.reverse.dropWhile (· = top)).reverse

end SlotType

/-! ## Forms of frames -/

inductive FrameForm where
  | same
  | sameFar
  | sameWith (t : SlotType)
  | sameFarWith (t : SlotType)
  | chopped (n : Nat)
  | appended (ts : List SlotType)
  | full
deriving DecidableEq, Repr, Inhabited

namespace MapFrame

def form (f before : MapFrame) (distance : Int) : FrameForm :=
  match f.stack with
  | [] =>
    if f.locals = before.locals then if distance < 64 then .same else .sameFar
    else if before.locals.length < f.locals.length then
      let more := f.locals.drop before.locals.length
      if before.locals.isPrefixOf f.locals ∧ more.length ≤ 3 then .appended more else .full
    else
      let n := before.locals.length - f.locals.length
      if f.locals.isPrefixOf before.locals ∧ n ≤ 3 then .chopped n else .full
  | [t] =>
    if f.locals = before.locals then if distance < 64 then .sameWith t else .sameFarWith t
    else .full
  | _ => .full

def putFull (f : MapFrame) (b : Buffer) : SessionM Buffer := do
  let locals ← SlotType.toItems f.locals
  let stack ← SlotType.toItems f.stack
  return MapItem.putCounted (MapItem.putCounted b locals) stack

def putForm (f : MapFrame) (distance : Int) (b : Buffer) : FrameForm → SessionM Buffer
  | .same => return b.putByte distance
  | .sameFar => return b.putTagged 251 distance
  | .sameWith t => return (← t.toItem).put (b.putByte (64 + distance))
  | .sameFarWith t => return (← t.toItem).put (b.putTagged 247 distance)
  | .chopped n => return b.putTagged (251 - n) distance
  | .appended ts => do
    let items ← SlotType.toItems ts
    return MapItem.putAll (b.putTagged (251 + ts.length) distance) items
  | .full => f.putFull (b.putTagged 255 distance)

/-- Appends a frame behind another one.  The first frame of a map counts its distance from the
start of the code. -/
def put (f before : MapFrame) (isFirst : Bool) (b : Buffer) : SessionM Buffer := do
  if (← get).major < 50 then f.putFull (b.putShort f.offset)
  else
    let distance := if isFirst then f.offset else f.offset - before.offset - 1
    f.putForm distance b (f.form before distance)

end MapFrame

namespace MethodM

@[inline] def onStackMap (f : Buffer → SessionM Buffer) : MethodM Unit := do
  let b ← modifyGet fun m => (m.stackMap.getD {}, { m with stackMap := none })
  let b ← f b
  modify fun m => { m with stackMap := some b }

def addFrame (f : MapFrame) : MethodM Unit := do
  if let some before := (← get).previousFrame then
    let isFirst := (← get).frameCount == 0
    onStackMap fun b => f.put before isFirst b
    modify fun m => { m with frameCount := m.frameCount + 1 }
  modify fun m => { m with previousFrame := some f }

def addBlockFrame (f : Frame) : MethodM Unit := do
  addFrame
    { offset := (← SessionM.label f.owner).position
      locals := SlotType.dropTops (SlotType.condense f.locals.toList)
      stack := SlotType.condense f.stack.toList }

def entryTypes : MethodM (List SlotType) := do
  let m ← get
  let this ← if m.isStatic then pure [] else pure [← SlotType.receiver m.isConstructor]
  return this ++ (← SlotType.ofParameters (← JavaType.argumentTypes m.desc))

def addEntryFrame : MethodM Unit := do
  addFrame { offset := 0, locals := ← entryTypes, stack := [] }

def openFrame (f : FrameId) (maxLocals : Nat) : MethodM Unit := do
  let locals := (← entryTypes).flatMap SlotType.slots
  let tops := List.replicate (maxLocals - locals.length) SlotType.top
  SessionM.onFrame f <| modify fun frame =>
    { frame with inputLocals := some (locals ++ tops).toArray, inputStack := some #[] }

/-! ## Explicit frames -/

def failItem : PoolM Unit :=
  PoolM.fail .badArgument "VisitFrame" [.string "frame element"]

def itemType : FrameItem LabelId → SessionM SlotType
  | .number n => return .ofNumber n
  | .name t => SlotType.ofName t
  | .created l => do
    if ← requireResolved "VisitFrame" l then
      return .fresh (← SessionM.placeOfFresh [] (← SessionM.label l).position)
    else return .top
  | .invalid => do
    failItem
    return .top

def itemTypes : List (FrameItem LabelId) → SessionM (List SlotType)
  | [] => return []
  | i :: is => do
    let t ← itemType i
    return t :: (← itemTypes is)

def inputTypes : FrameItem LabelId → SessionM (List SlotType)
  | .number n => return if n = 3 ∨ n = 4 then [.ofNumber n, .top] else [.ofNumber n]
  | .name t => return [← SlotType.ofName t]
  | .created l => do
    return [.fresh (← SessionM.placeOfFresh [] (← SessionM.label l).position)]
  | .invalid => do
    failItem
    return [.top]

def allInputTypes : List (FrameItem LabelId) → SessionM (List SlotType)
  | [] => return []
  | i :: is => do
    let ts ← inputTypes i
    return ts ++ (← allInputTypes is)

def itemOf : FrameItem LabelId → SessionM (List MapItem)
  | .number n => return [.basic n]
  | .name t => return [.object (← PoolM.classRef t)]
  | .created l => do
    discard <| requireResolved "VisitFrame" l
    return [.fresh (← SessionM.label l).position]
  | .invalid => do
    failItem
    return []

def itemsOf : List (FrameItem LabelId) → SessionM (List MapItem)
  | [] => return []
  | i :: is => do
    let items ← itemOf i
    return items ++ (← itemsOf is)

def expandedFrame (locals stack : List (FrameItem LabelId)) : MethodM Unit := do
  if (← get).previousFrame.isNone then
    addEntryFrame
  modify fun m => { m with frameLocals := locals.length }
  let offset : Int := ← codeSize
  let ls ← itemTypes locals
  let ss ← itemTypes stack
  addFrame { offset, locals := ls, stack := ss }

def failFrame (reason : String) : PoolM Unit :=
  PoolM.fail .badArgument "VisitFrame" [.string (Text.ofString reason)]

def failDuplicate (offset : Nat) : PoolM Unit :=
  PoolM.fail .duplicateFrame "VisitFrame" [.int offset]

/-- Appends a compressed frame at a distance from the one before.  The result tells whether the
frame fits its kind. -/
def putCompressed (kind distance : Int) (locals stack : List (FrameItem LabelId)) :
    MethodM Bool := do
  let n := locals.length
  if kind = FrameEvent.full then
    modify fun m => { m with frameLocals := n }
    onStackMap fun b => do
      let ls ← itemsOf locals
      let ss ← itemsOf stack
      let b := MapItem.putAll ((b.putTagged 255 distance).putShort n) ls
      return MapItem.putAll (b.putShort stack.length) ss
    return true
  else if kind = FrameEvent.append then
    if n < 1 ∨ 3 < n then
      failFrame "append frame size"
      return false
    modify fun m => { m with frameLocals := m.frameLocals + n }
    onStackMap fun b => return MapItem.putAll (b.putTagged (251 + n) distance) (← itemsOf locals)
    return true
  else if kind = FrameEvent.chop then
    if n < 1 ∨ 3 < n then
      failFrame "chop frame size"
      return false
    modify fun m => { m with frameLocals := m.frameLocals - n }
    onStackMap fun b => return b.putTagged (251 - n) distance
    return true
  else if kind = FrameEvent.same then
    onStackMap fun b =>
      return if distance < 64 then b.putByte distance else b.putTagged 251 distance
    return true
  else if kind = FrameEvent.same1 then
    match stack with
    | [] =>
      failFrame "missing stack item"
      return false
    | i :: _ =>
      onStackMap fun b => do
        let items ← itemOf i
        let b := if distance < 64 then b.putByte (64 + distance) else b.putTagged 247 distance
        return MapItem.putAll b items
      return true
  else
    failFrame "frame type"
    return false

def compressedFrame (kind : Int) (locals stack : List (FrameItem LabelId)) : MethodM Bool := do
  let size ← codeSize
  let isFirst := (← get).stackMap.isNone
  let previous := (← get).previousOffset
  let distance : Int := if isFirst then size else size - previous - 1
  if distance < 0 then
    unless kind = FrameEvent.same do
      failDuplicate size
    return false
  else
    if isFirst then
      modify fun m => { m with stackMap := some {} }
    let taken ← putCompressed kind distance locals stack
    if taken then
      modify fun m => { m with previousOffset := size, frameCount := m.frameCount + 1 }
    return taken

/-- A frame of a method that is written again.  The first one sets up the frame that the method
begins with; each later one writes out the frame that is reached, which an expanded frame replaces
before. -/
def insertedFrame (kind : Int) (locals stack : List (FrameItem LabelId)) : MethodM Unit := do
  match (← get).currentBlock with
  | none => throw .missing
  | some block =>
    match (← SessionM.label block).frame with
    | none =>
      let f ← SessionM.newFrame block
      SessionM.onFrame f (modify fun frame => { frame with isEager := true })
      SessionM.modifyLabel block fun l => { l with frame := some f }
      openFrame f locals.length
      addEntryFrame
    | some f =>
      if kind = FrameEvent.expanded then
        let ls ← allInputTypes locals
        let ss ← allInputTypes stack
        SessionM.onFrame f <| modify fun frame =>
          let tops := List.replicate (frame.locals.size - ls.length) SlotType.top
          { frame with
            inputLocals := some (ls ++ tops).toArray
            inputStack := some ss.toArray
            outputStack := #[]
            initialized := #[] }
      addBlockFrame (← SessionM.frame f)

def admitFrame (stackCount : Int) : MethodM Unit :=
  modify fun m =>
    { m with
      maxStack := if m.maxStack < stackCount then stackCount else m.maxStack
      maxLocals := if m.maxLocals < m.frameLocals then m.frameLocals else m.maxLocals }

def frame (e : FrameEvent LabelId) : MethodM Unit := do
  if e.localCount < 0 ∨ e.stackCount < 0 ∨ e.locals.length < e.localCount
      ∨ e.stack.length < e.stackCount then
    failFrame "frame element count"
  else
    let locals := e.locals.take e.localCount.toNat
    let stack := e.stack.take e.stackCount.toNat
    match (← get).compute with
    | .frames => return
    | .inserted =>
      insertedFrame e.kind locals stack
      admitFrame e.stackCount
    | _ =>
      let offset ← codeSize
      if (← get).lastFrameOffset = some offset then
        unless e.kind = FrameEvent.same do
          failDuplicate offset
      else
        modify fun m => { m with lastFrameOffset := some offset }
        if e.kind = FrameEvent.expanded then
          expandedFrame locals stack
          admitFrame e.stackCount
        else if ← compressedFrame e.kind locals stack then
          admitFrame e.stackCount

end MethodM

end ClassAssembler
