import ClassAssembler.Method.Flow

/-!
# Writing instructions

Every instruction first registers its constants, then tells its block what it does to the stack,
and then appends its bytes in the shortest form that fits.
-/

namespace ClassAssembler

namespace MethodM

/-- Tells the current block about an instruction: its frame is carried over the instruction, or
`heights` changes the stack height. -/
@[inline] def account (op arg : Int) (c : Option Constant) (heights : LabelId → MethodM Unit) :
    MethodM Unit := do
  match (← get).currentBlock with
  | none => return
  | some block =>
    if (← get).compute.followsTypes then follow block op arg c
    else heights block

/-! ## Operations without targets -/

def isReturn (op : Int) : Bool :=
  (Opcode.ireturn.code ≤ op && op ≤ Opcode.vreturn.code) || op == Opcode.athrow.code

def plain (op : Int) : MethodM Unit := do
  emit fun b => b.putByte op
  account op 0 none fun _ => do changeHeight (← stackChange op)
  if let some block := (← get).currentBlock then
    if isReturn op then
      endBlock block

def push (op operand : Int) : MethodM Unit := do
  account op operand none fun _ => do
    unless op = Opcode.newarray.code do
      changeHeight 1
  emit fun b => if op = Opcode.sipush.code then b.putTagged op operand else b.putPair op operand

def localsFor (isWide : Bool) (slot : Int) : Int := wrap64 (if isWide then slot + 2 else slot + 1)

def accessesWide (op : Int) : Bool :=
  op == Opcode.lload.code || op == Opcode.dload.code || op == Opcode.lstore.code
    || op == Opcode.dstore.code

def putVar (op slot : Int) (b : Buffer) : Buffer :=
  if slot < 4 ∧ op ≠ Opcode.ret.code then
    if op < Opcode.istore.code then
      b.putByte (Opcode.iload0.code + (op - Opcode.iload.code) * 4 + slot)
    else b.putByte (Opcode.istore0.code + (op - Opcode.istore.code) * 4 + slot)
  else if 256 ≤ slot then (b.putByte Opcode.wide.code).putTagged op slot
  else b.putPair op slot

def var (op slot : Int) : MethodM Unit := do
  account op slot none fun block => do
    if op = Opcode.ret.code then
      let height := (← get).height
      SessionM.modifyLabel block fun l =>
        { l with returnsFromSubroutine := true, inputHeight := height }
      endBlock block
    else changeHeight (← stackChange op)
  unless (← get).compute = .nothing do
    needLocals (localsFor (accessesWide op) slot)
  emit (putVar op slot)
  -- a handler may see the variable before and behind a store
  if Opcode.istore.code ≤ op ∧ (← get).compute = .frames ∧ !(← get).handlers.isEmpty then
    placeLabel (← SessionM.newLabel)

def type (op : Int) (name : Text) : MethodM Unit := do
  let i ← PoolM.classRef name
  account op (← codeSize) (some (.classRef name)) fun _ => do
    if op = Opcode.new.code then
      changeHeight 1
  emit fun b => b.putTagged op i

def fieldChange (op : Int) (isWide : Bool) : Int :=
  if op = Opcode.getstatic.code then if isWide then 2 else 1
  else if op = Opcode.putstatic.code then if isWide then -2 else -1
  else if op = Opcode.getfield.code then if isWide then 1 else 0
  else if isWide then -3 else -2

def isWideDescriptor (desc : Text) : Checked Bool :=
  match desc with
  | [] => .error .outOfRange
  | b :: _ => .ok (b = 68 || b = 74)

def field (op : Int) (owner name desc : Text) : MethodM Unit := do
  let i ← PoolM.fieldRef owner name desc
  account op 0 (some (.fieldRef owner name desc)) fun _ => do
    changeHeight (fieldChange op (← isWideDescriptor desc))
  emit fun b => b.putTagged op i

def invoke (op : Int) (owner name desc : Text) (ofInterface : Bool) : MethodM Unit := do
  let i ← PoolM.methodRef owner name desc ofInterface
  let size ← JavaType.callSize desc
  account op 0 (some (PoolM.methodConstant owner name desc ofInterface)) fun _ => do
    let change : Int := size.result - size.arguments
    changeHeight (if op = Opcode.invokestatic.code then change + 1 else change)
  emit fun b =>
    let b := b.putTagged op i
    if op = Opcode.invokeinterface.code then b.putPair size.arguments 0 else b

def dynamic (name desc : Text) (method : Handle) (args : List Value) : MethodM Unit := do
  let (i, c) ← PoolM.dynamicEntry name desc method args
  let op := Opcode.invokedynamic.code
  account op 0 (some c) fun _ => do
    let size ← JavaType.callSize desc
    changeHeight (size.result - size.arguments + 1)
  emit fun b => (b.putTagged op i).putShort 0

def constant (v : Value) : MethodM Unit := do
  if let some (i, c) ← PoolM.valueEntry v then
    account Opcode.ldc.code 0 (some c) fun _ => changeHeight c.width
    emit fun b =>
      if c.isWide then b.putTagged Opcode.ldc2W.code i
      else if 256 ≤ i then b.putTagged Opcode.ldcW.code i
      else b.putPair Opcode.ldc.code i

def increment (slot amount : Int) : MethodM Unit := do
  account Opcode.iinc.code slot none fun _ => return
  unless (← get).compute = .nothing do
    needLocals (localsFor false slot)
  emit fun b =>
    if 255 < slot ∨ 127 < amount ∨ amount < -128 then
      ((b.putByte Opcode.wide.code).putTagged Opcode.iinc.code slot).putShort amount
    else (b.putByte Opcode.iinc.code).putPair slot amount

def multiArray (desc : Text) (dims : Int) : MethodM Unit := do
  let i ← PoolM.classRef desc
  let op := Opcode.multianewarray.code
  account op dims (some (.classRef desc)) fun _ =>
    modify fun m => { m with height := wrap64 (m.height + 1 - dims) }
  emit fun b => (b.putTagged op i).putByte dims

/-! ## Jumps -/

def markTarget (l : LabelId) : SessionM Unit := do
  let block ← SessionM.blockOf l
  SessionM.modifyLabel block fun b => { b with isTarget := true }

/-- Tells the current block about a jump.  The result is the label behind a jump that control may
run past, where that begins a new block. -/
def accountJump (op : Int) (target : LabelId) : MethodM (Option LabelId) := do
  match (← get).currentBlock, (← get).compute with
  | none, _ => return none
  | some block, .frames =>
    follow block op 0 none
    markTarget target
    addEdge block (.flow 0) target
    if op = Opcode.goto.code then return none else return some (← SessionM.newLabel)
  | some block, .inserted =>
    follow block op 0 none
    return none
  | some block, _ =>
    if op = Opcode.jsr.code then
      unless (← SessionM.label target).startsSubroutine do
        SessionM.modifyLabel target fun l => { l with startsSubroutine := true }
        modify fun m => { m with subroutineCount := m.subroutineCount + 1 }
      SessionM.modifyLabel block fun l => { l with callsSubroutine := true }
      addEdge block (.flow ((← get).height + 1)) target
      return some (← SessionM.newLabel)
    else
      let change ← stackChange op
      modify fun m => { m with height := m.height + change }
      addEdge block (.flow (← get).height) target
      return none

def shortestBack : Int := -32768

/-- Appends the opposite of a condition and the operation of the wide jump it jumps over.  Unless
frames are computed, that wide jump is pending, because a frame has to be inserted behind it. -/
def openInverted (op : Int) : MethodM Unit := do
  emit fun b => b.putTagged (Opcode.invertJump op) 8
  if (← get).compute = .frames then emit fun b => b.putByte Opcode.gotoW.code
  else
    emit fun b => b.putByte Opcode.pendingGotoW
    modify fun m => { m with hasPending := true }

/-- Appends the operation of a jump that goes too far back for a short one.  A conditional jump
becomes the opposite one over a wide jump. -/
def openFarJump (op : Int) (next : Option LabelId) : MethodM Unit := do
  if op = Opcode.goto.code then emit fun b => b.putByte Opcode.gotoW.code
  else if op = Opcode.jsr.code then emit fun b => b.putByte Opcode.jsrW.code
  else
    if let some l := next then
      SessionM.modifyLabel l fun l => { l with isTarget := true }
    openInverted op

def putJump (op : Int) (isWide : Bool) (target : LabelId) (next : Option LabelId) :
    MethodM Unit := do
  let label ← SessionM.label target
  let size ← codeSize
  if label.isResolved ∧ (label.position : Int) - size < shortestBack then
    openFarJump op next
    emitDistance target ((← codeSize) - 1) true
  else
    emit fun b => b.putByte (if isWide then op + 33 else op)
    emitDistance target size isWide

def afterJump (op : Int) (next : Option LabelId) : MethodM Unit := do
  if let some block := (← get).currentBlock then
    if let some l := next then
      placeLabel l
    if op = Opcode.goto.code then
      endBlock block

def jump (op : Int) (target : LabelId) : MethodM Unit := do
  let isWide := Opcode.gotoW.code ≤ op
  let op := if isWide then op - 33 else op
  let next ← accountJump op target
  putJump op isWide target next
  afterJump op next

def accountSwitch (targets : List LabelId) : MethodM Unit := do
  if let some block := (← get).currentBlock then
    match (← get).compute with
    | .frames =>
      follow block Opcode.lookupswitch.code 0 none
      for l in targets do
        addEdge block (.flow 0) l
        markTarget l
    | .inserted => follow block Opcode.lookupswitch.code 0 none
    | _ =>
      modify fun m => { m with height := m.height - 1 }
      let height := (← get).height
      for l in targets do
        addEdge block (.flow height) l
    endBlock block

def openSwitch (op : Int) : MethodM Nat := do
  let source ← codeSize
  emit fun b =>
    let b := b.putByte op
    b.putList (List.replicate ((4 - b.size % 4) % 4) 0)
  return source

def tableSwitch (low high : Int) (fallback : LabelId) (targets : List LabelId) : MethodM Unit := do
  let source ← openSwitch Opcode.tableswitch.code
  emitDistance fallback source true
  emit fun b => (b.putInt low).putInt high
  for l in targets do
    emitDistance l source true
  accountSwitch (fallback :: targets)

def lookupSwitch (fallback : LabelId) (keys : List Int) (targets : List LabelId) :
    MethodM Unit := do
  if keys.length ≠ targets.length then
    PoolM.fail .badArgument "VisitLookupSwitchInsn"
      [.string "keys and labels differ in length"]
  else
    let source ← openSwitch Opcode.lookupswitch.code
    emitDistance fallback source true
    emit fun b => b.putInt targets.length
    for (key, l) in keys.zip targets do
      emit fun b => b.putInt key
      emitDistance l source true
    accountSwitch (fallback :: targets)

/-! ## Labels and tables -/

def requireResolved (op : String) (l : LabelId) : SessionM Bool := do
  let label ← SessionM.label l
  if label.isResolved then return true
  else
    PoolM.fail .unresolvedLabel op [.string label.describe]
    return false

def label (l : LabelId) : MethodM Unit := do
  let label ← SessionM.label l
  if label.isResolved then
    PoolM.fail .labelTwice "VisitLabel" [.string label.describe]
  else placeLabel l

def tryCatch (start stop handler : LabelId) (caught : Text) : MethodM Unit := do
  let caughtIndex ← if caught.isEmpty then pure 0 else PoolM.classRef caught
  let row : Handler := { start, stop, handler, caught, caughtIndex }
  modify fun m => { m with handlers := m.handlers.push row }

def localRow (name desc : Text) (start stop slot : Int) : PoolM LocalRow := do
  let n ← PoolM.utf8 name
  let d ← PoolM.utf8 desc
  return { start := start.toNat, length := stop - start, name := n, desc := d, slot }

def localVariable (name desc signature : Text) (start stop : LabelId) (slot : Int) :
    MethodM Unit := do
  if ← requireResolved "VisitLocalVariable" start then
    if ← requireResolved "VisitLocalVariable" stop then
      let s : Int := (← SessionM.label start).position
      let e : Int := (← SessionM.label stop).position
      unless signature.isEmpty do
        let row ← localRow name signature s e slot
        modify fun m => { m with localTypeRows := m.localTypeRows.push row }
      let row ← localRow name desc s e slot
      modify fun m => { m with localRows := m.localRows.push row }
      unless (← get).compute = .nothing do
        needLocals (localsFor (← isWideDescriptor desc) slot)

def line (number : Int) (start : LabelId) : MethodM Unit := do
  if ← requireResolved "VisitLineNumber" start then
    let offset := (← SessionM.label start).position
    modify fun m => { m with lineRows := m.lineRows.push { offset, line := number } }

end MethodM

namespace Instruction

def operation {T : Type} : Instruction T → String
  | plain _ => "VisitInsn"
  | push .. => "VisitIntInsn"
  | var .. => "VisitVarInsn"
  | type .. => "VisitTypeInsn"
  | field .. => "VisitFieldInsn"
  | invoke .. => "VisitMethodInsn"
  | dynamic .. => "VisitInvokeDynamicInsn"
  | jump .. => "VisitJumpInsn"
  | constant _ => "VisitLdcInsn"
  | increment .. => "VisitIincInsn"
  | tableSwitch .. => "VisitTableSwitchInsn"
  | lookupSwitch .. => "VisitLookupSwitchInsn"
  | multiArray .. => "VisitMultiANewArrayInsn"

def write : Instruction LabelId → MethodM Unit
  | plain op => MethodM.plain op
  | push op n => MethodM.push op n
  | var op v => MethodM.var op v
  | type op n => MethodM.type op n
  | field op o n d => MethodM.field op o n d
  | invoke op o n d i => MethodM.invoke op o n d i
  | dynamic n d m args => MethodM.dynamic n d m args
  | jump op l => MethodM.jump op l
  | constant v => MethodM.constant v
  | increment v n => MethodM.increment v n
  | tableSwitch lo hi d ls => MethodM.tableSwitch lo hi d ls
  | lookupSwitch d ks ls => MethodM.lookupSwitch d ks ls
  | multiArray d n => MethodM.multiArray d n

end Instruction

end ClassAssembler
