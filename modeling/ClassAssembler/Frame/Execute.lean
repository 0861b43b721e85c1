import ClassAssembler.Frame.Descriptor
import ClassAssembler.Frame.Effect
import ClassAssembler.Frame.Merge

/-!
# Following a block

The output of a frame is kept relative to its input, so that the instructions of a block are
followed once.  An eager frame makes its output the new input after every instruction.
-/

namespace ClassAssembler

abbrev FrameM := StateT Frame SessionM

namespace FrameM

/-! ## The stack -/

def push (t : SlotType) : FrameM Unit := do
  modify fun f => { f with outputStack := f.outputStack.push t }
  let owner := (← get).owner
  let height : Int := (← get).outputStack.size
  let l ← SessionM.label owner
  let top := l.inputHeight + height
  if top > l.peak then
    SessionM.modifyLabel owner fun l => { l with peak := top }

def pushAll : List SlotType → FrameM Unit
  | [] => return
  | t :: ts => do
    push t
    pushAll ts

/-- Takes the type on top of the stack.  When the block's own pushes are used up, that is a type
of the input stack. -/
def pop : FrameM SlotType := do
  match (← get).outputStack.back? with
  | some t =>
    modify fun f => { f with outputStack := f.outputStack.pop }
    return t
  | none =>
    let owner := (← get).owner
    SessionM.modifyLabel owner fun l => { l with inputHeight := l.inputHeight - 1 }
    return .entryStack (-(← SessionM.label owner).inputHeight).toNat

def popMany (n : Int) : FrameM Unit := do
  let size : Int := (← get).outputStack.size
  if n ≤ size then
    if 0 ≤ n then
      modify fun f => { f with outputStack := f.outputStack.shrink (size - n).toNat }
    else
      modify fun f => { f with outputStack := f.outputStack ++ Array.replicate (-n).toNat .unset }
  else
    modify fun f => { f with outputStack := #[] }
    SessionM.modifyLabel (← get).owner fun l =>
      { l with inputHeight := l.inputHeight - (n - size) }

def popList : Nat → FrameM (List SlotType)
  | 0 => return []
  | n + 1 => do
    let t ← pop
    return t :: (← popList n)

def pushDescribed (desc : Text) : FrameM Unit := do
  let t ← SlotType.ofDescriptor desc
  unless t = SlotType.unset do
    pushAll t.slots

def popDescribed (desc : Text) : FrameM Unit := do
  match desc with
  | [] => throw .outOfRange
  | b :: _ =>
    match Char.ofUInt8 b with
    | '(' => popMany ((← JavaType.callSize desc).arguments - 1)
    | 'J' | 'D' => popMany 2
    | _ => popMany 1

/-! ## Local variables -/

def getLocal (i : Int) : FrameM SlotType := do
  let locals := (← get).outputLocals
  if (locals.size : Int) ≤ i then return .entryLocal i.toNat
  else
    let t ← Checked.fetch locals i
    if t = SlotType.unset then return .entryLocal i.toNat else return t

def setLocal (i : Int) (t : SlotType) : FrameM Unit := do
  if i < 0 then throw .outOfRange
  modify fun f =>
    let missing := i.toNat + 1 - f.outputLocals.size
    { f with
      outputLocals :=
        (f.outputLocals ++ Array.replicate missing SlotType.unset).setIfInBounds i.toNat t }

/-- A store into a local variable destroys a two-slot value that begins just before it. -/
def spoilPrevious (i : Int) : FrameM Unit := do
  if 0 < i then
    let t ← getLocal (i - 1)
    if t.isWide then setLocal (i - 1) .top
    else if !t.isBase then setLocal (i - 1) { t with base := t.base.asSingle }

/-! ## Instructions -/

def operand (c : Option Constant) : FrameM Constant := Checked.need c

def constantType : Constant → FrameM (List SlotType)
  | .integer _ => return [.integer]
  | .long _ => return [.long, .top]
  | .float _ => return [.float]
  | .double _ => return [.double, .top]
  | .classRef _ => return [← SessionM.objectType "java/lang/Class"]
  | .string _ => return [← SessionM.objectType "java/lang/String"]
  | .methodType _ => return [← SessionM.objectType "java/lang/invoke/MethodType"]
  | _ => return [← SessionM.objectType "java/lang/invoke/MethodHandle"]

def newArrayElement (kind : Int) : SlotType :=
  match kind with
  | 4 => .boolean
  | 5 => .char
  | 6 => .float
  | 7 => .double
  | 8 => .byte
  | 9 => .short
  | 10 => .integer
  | _ => .long

def firstByte : Text → FrameM UInt8
  | [] => throw .outOfRange
  | b :: _ => return b

/-- Carries a frame over an effect; `arg` is the numeric operand of the instruction and `c` the
constant it refers to. -/
def apply (e : Effect) (arg : Int) (c : Option Constant) : FrameM Unit := do
  match e with
  | .replace taken pushed =>
    popMany taken
    pushAll pushed
  | .shuffle taken pushed =>
    let ts ← popList taken
    pushAll (pushed.map fun i => ts.getD i .unset)
  | .constant => pushAll (← constantType (← operand c))
  | .load => push (← getLocal arg)
  | .element =>
    popMany 1
    push (← pop).element
  | .store =>
    setLocal arg (← pop)
    spoilPrevious arg
  | .storeWide =>
    popMany 1
    setLocal arg (← pop)
    setLocal (arg + 1) .top
    spoilPrevious arg
  | .increment => setLocal arg .integer
  | .subroutine => PoolM.fail .subroutineInFrames "execute"
  | .getStatic => pushDescribed (← operand c).third
  | .putStatic => popDescribed (← operand c).third
  | .getField =>
    popMany 1
    pushDescribed (← operand c).third
  | .putField =>
    popDescribed (← operand c).third
    discard pop
  | .invokeStatic =>
    let m ← operand c
    popDescribed m.third
    pushDescribed m.third
  | .invoke =>
    let m ← operand c
    popDescribed m.third
    discard pop
    pushDescribed m.third
  | .invokeSpecial =>
    let m ← operand c
    popDescribed m.third
    let receiver ← pop
    if (← firstByte m.second) = 60 then
      modify fun f => { f with initialized := f.initialized.push receiver }
    pushDescribed m.third
  | .invokeDynamic =>
    let site ← operand c
    popDescribed site.second
    pushDescribed site.second
  | .new => push (.fresh (← SessionM.placeOfFresh (← operand c).first arg))
  | .newArray =>
    discard pop
    push (.array 1 (newArrayElement arg))
  | .newObjectArray =>
    let name := (← operand c).first
    discard pop
    if (← firstByte name) = JavaType.bracket then pushDescribed (JavaType.bracket :: name)
    else push (.array 1 (← SessionM.objectType name))
  | .cast =>
    let name := (← operand c).first
    discard pop
    if (← firstByte name) = JavaType.bracket then pushDescribed name
    else push (← SessionM.objectType name)
  | .multiArray =>
    popMany arg
    pushDescribed (← operand c).first

def settle : FrameM Unit := do
  let f ← get
  let height := (← SessionM.label f.owner).inputHeight
  let locals ← f.leavingLocals
  let stack ← f.leavingStack height
  set {
    owner := f.owner, inputLocals := some locals, inputStack := some stack, isEager := f.isEager
    : Frame }
  SessionM.modifyLabel f.owner fun l => { l with inputHeight := 0 }

def execute (opcode arg : Int) (c : Option Constant) : FrameM Unit := do
  apply (Opcode.effectOf opcode) arg c
  if (← get).isEager then settle

end FrameM

end ClassAssembler
