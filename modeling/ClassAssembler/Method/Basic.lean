import ClassAssembler.Access
import ClassAssembler.Annotations
import ClassAssembler.Frame.Execute
import ClassAssembler.Instruction
import ClassAssembler.Method.Handler
import ClassAssembler.Opcode.StackChange

/-!
# Methods under construction

Depending on what is to be computed, the events of a method also build a control-flow graph of
basic blocks: with stack heights only, or with the frames of all blocks.
-/

namespace ClassAssembler

inductive Compute where
  | nothing
  | maxs
  | frames
  /-- The frames that have to be inserted while a method is written again. -/
  | inserted
deriving DecidableEq, Repr, Inhabited

namespace Compute

def followsTypes : Compute → Bool
  | frames | inserted => true
  | _ => false

end Compute

structure AnnotationLists where
  visible : Array AnnotationId := #[]
  invisible : Array AnnotationId := #[]
  visibleTypes : Array AnnotationId := #[]
  invisibleTypes : Array AnnotationId := #[]
deriving Repr, Inhabited

/-- Which of the lists have an attribute. -/
def AnnotationLists.wanted (l : AnnotationLists) : List Bool :=
  [!l.visible.isEmpty, !l.invisible.isEmpty, !l.visibleTypes.isEmpty, !l.invisibleTypes.isEmpty]

structure RawAttribute where
  name : Text
  content : List UInt8
deriving DecidableEq, Repr, Inhabited

structure LocalRow where
  start : Nat
  length : Int
  name : Nat
  desc : Nat
  slot : Int
deriving DecidableEq, Repr, Inhabited

structure LineRow where
  offset : Nat
  line : Int
deriving DecidableEq, Repr, Inhabited

structure MapFrame where
  offset : Int
  locals : List SlotType
  stack : List SlotType
deriving DecidableEq, Repr, Inhabited

structure Method where
  access : Flags := 0
  nameIndex : Nat := 0
  descIndex : Nat := 0
  name : Text := []
  desc : Text := []
  signature : Text := []
  exceptions : List Nat := []
  compute : Compute := .nothing
  parameterCount : Nat := 0
  parameters : Option Buffer := none
  defaultValue : Option AnnotationId := none
  annotations : AnnotationLists := {}
  visibleParameters : Option (Array (Array AnnotationId)) := none
  invisibleParameters : Option (Array (Array AnnotationId)) := none
  /-- The number of leading parameters that the source does not show. -/
  hiddenParameters : Nat := 0
  attributes : Array RawAttribute := #[]
  codeAttributes : Array RawAttribute := #[]
  code : Buffer := {}
  maxStack : Int := 0
  maxLocals : Int := 0
  frameLocals : Int := 0
  frameCount : Nat := 0
  stackMap : Option Buffer := none
  previousOffset : Int := 0
  /-- The frame that the next one is compared with. -/
  previousFrame : Option MapFrame := none
  lastFrameOffset : Option Nat := none
  handlers : Array Handler := #[]
  localRows : Array LocalRow := #[]
  localTypeRows : Array LocalRow := #[]
  lineRows : Array LineRow := #[]
  entry : Option LabelId := none
  lastBlock : Option LabelId := none
  currentBlock : Option LabelId := none
  subroutineCount : Nat := 0
  /-- The stack height in the current block relative to its entry, and the largest one. -/
  height : Int := 0
  peak : Int := 0
  forward : Array LabelId := #[]
  /-- Whether the code holds pending wide jumps. -/
  hasPending : Bool := false
  hasCode : Bool := false
  hasMaxs : Bool := false
  isEnded : Bool := false
deriving Inhabited

abbrev MethodM := StateT Method SessionM

namespace Method

def isStatic (m : Method) : Bool := m.access.has Access.static_

def isConstructor (m : Method) : Bool := m.access.has Access.constructor

end Method

def wrap64 (n : Int) : Int := Int.bmod n 0x10000000000000000

namespace MethodM

def isLive (op : String) : MethodM Bool := do
  if ← PoolM.hasFailed then return false
  else if (← get).isEnded then
    PoolM.fail .visitAfterEnd op [.string (Text.ofString op)]
    return false
  else return true

def isInCode (op : String) : MethodM Bool := do
  if ← isLive op then
    if !(← get).hasCode then
      PoolM.fail .insnBeforeCode op
      return false
    else if (← get).hasMaxs then
      PoolM.fail .visitAfterEnd op [.string (Text.ofString op)]
      return false
    else return true
  else return false

@[inline] def emit (f : Buffer → Buffer) : MethodM Unit :=
  modify fun m => { m with code := f m.code }

def codeSize : MethodM Nat := return (← get).code.size

def needLocals (n : Int) : MethodM Unit :=
  modify fun m => if n > m.maxLocals then { m with maxLocals := n } else m

def changeHeight (delta : Int) : MethodM Unit :=
  modify fun m =>
    let h := m.height + delta
    { m with height := h, peak := if h > m.peak then h else m.peak }

def stackChange (op : Int) : MethodM Int :=
  match Opcode.ofCode? op with
  | some o => return o.stackChange
  | none => throw .outOfRange

def follow (block : LabelId) (op arg : Int) (c : Option Constant) : MethodM Unit := do
  let f ← SessionM.frameOf block
  SessionM.onFrame f (FrameM.execute op arg c)

end MethodM

end ClassAssembler
