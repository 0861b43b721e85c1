import ClassAssembler.Session

/-!
# Merging frames

Where two ways of control meet, the types of each slot are merged into one that covers both.
Merging the output of a block into the input of a successor tells whether that input changed.
-/

namespace ClassAssembler

namespace SlotType

def signedDims (d : Nat) : Int := if d < 8 then d else (d : Int) - 16

/-- The dimensions that are left when an array is seen as an array of objects: an array of a basic
type loses one. -/
def objectDims (t : SlotType) : Nat :=
  if t.dims ≠ 0 ∧ ¬t.isObject then (t.dims + 15) % 16 else t.dims

def objectArray (dims : Nat) : SessionM SlotType :=
  return { (← SessionM.objectType objectName) with dims }

/-- The type that covers a new type `t` and the type `u` of a slot that is known already; none
keeps the slot as it is. -/
def join (t u : SlotType) : SessionM (Option SlotType) := do
  if u.isReference then
    if t = null then return none
    else if t.dims = u.dims ∧ t.base.family = u.base.family then
      if u.isObject then
        return some ⟨t.dims, .object (← SessionM.mergedPlace t.base.value u.base.value)⟩
      else return some (← objectArray ((t.dims + 15) % 16))
    else if t.isReference then
      let dt := t.objectDims
      let du := u.objectDims
      return some (← objectArray (if signedDims du < signedDims dt then du else dt))
    else return some top
  else if u = null then return some (if t.isReference then t else top)
  else return some top

/-- The new type of a slot of type `u` that a value of type `t` reaches, or none if the slot
stays as it is. -/
def mergeInto (t u : SlotType) : SessionM (Option SlotType) := do
  if u = t then return none
  else
    let isNull := t.base = null.base
    if isNull ∧ u = null then return none
    else
      let t := if isNull then null else t
      if u = unset then return some t
      else
        match ← join t u with
        | some v => return if u = v then none else some v
        | none => return none

end SlotType

structure MergedSlots where
  slots : Array SlotType
  changed : Bool
deriving Inhabited

def MergedSlots.merge (m : MergedSlots) (t : SlotType) (i : Int) : SessionM MergedSlots := do
  if (m.slots.size : Int) ≤ i then return m
  else
    let u ← Checked.fetch m.slots i
    match ← t.mergeInto u with
    | none => return m
    | some v =>
      let ⟨slots, _⟩ := m
      return ⟨slots.setIfInBounds i.toNat v, true⟩

namespace Frame

def resolve (locals stack : Array SlotType) (s : SlotType) : Checked SlotType := do
  if s.isBase then return s
  else
    let (t, single) ←
      match s.base with
      | .entryLocal slot single => do
        pure ((← Checked.fetch locals slot).addDims s.dims, single)
      | .entryStack depth single => do
        pure ((← Checked.fetch stack (stack.size - depth)).addDims s.dims, single)
      | b => do
        pure ((← Checked.fetch stack (stack.size - b.bits % 0x800000 : Int)).addDims s.dims,
          b.bits / 0x800000 % 2 == 1)
    return if single ∧ t.isWide then SlotType.top else t

def resolveInitialized (locals stack : Array SlotType) (u : SlotType) : Checked SlotType := do
  match u.base with
  | .entryLocal slot _ => return (← Checked.fetch locals slot).addDims u.dims
  | .entryStack depth _ => return (← Checked.fetch stack (stack.size - depth)).addDims u.dims
  | _ => return u

def isInitialized (locals stack : Array SlotType) (t : SlotType) : List SlotType → Checked Bool
  | [] => return false
  | u :: us => do
    if t = (← resolveInitialized locals stack u) then return true
    else isInitialized locals stack t us

def afterInitialization (f : Frame) (locals stack : Array SlotType) (t : SlotType) :
    SessionM SlotType := do
  if f.initialized.isEmpty then return t
  else
    let class? : Option SlotType ←
      if t = SlotType.uninitializedThis then
        some <$> SessionM.objectType (← get).thisName
      else
        match t.dims, t.base with
        | 0, .fresh i => some <$> SessionM.objectType (← SessionM.typeAt i).name
        | _, _ => pure none
    match class? with
    | none => return t
    | some c =>
      if ← isInitialized locals stack t f.initialized.toList then return c else return t

/-! ## What a block leaves -/

def entering (t : SlotType) : SlotType :=
  if t.base = SlotType.null.base then SlotType.null else t

def leavingLocal (f : Frame) (i : Nat) : SessionM SlotType := do
  let s := (f.outputLocals[i]?).getD .unset
  let t ←
    if s = SlotType.unset then Checked.fetch f.locals i else resolve f.locals f.stack s
  return entering (← f.afterInitialization f.locals f.stack t)

def leavingLocalsFrom (f : Frame) : Nat → Nat → Array SlotType → SessionM (Array SlotType)
  | 0, _, acc => return acc
  | n + 1, i, acc => do
    f.leavingLocalsFrom n (i + 1) (acc.push (← f.leavingLocal i))

def leavingLocals (f : Frame) : SessionM (Array SlotType) := do
  if f.outputLocals.isEmpty ∧ f.initialized.isEmpty then return f.locals.map entering
  else f.leavingLocalsFrom f.locals.size 0 (Array.emptyWithCapacity f.locals.size)

/-- The stack types behind a block, for a list of types relative to its entry. -/
def leavingSlots (f : Frame) : List SlotType → Array SlotType → SessionM (Array SlotType)
  | [], acc => return acc
  | s :: ss, acc => do
    let t ← f.afterInitialization f.locals f.stack (← resolve f.locals f.stack s)
    f.leavingSlots ss (acc.push (entering t))

def leavingEntry (f : Frame) : List SlotType → Array SlotType → SessionM (Array SlotType)
  | [], acc => return acc
  | t :: ts, acc => do
    let t ← f.afterInitialization f.locals f.stack t
    f.leavingEntry ts (acc.push (entering t))

def leavingStack (f : Frame) (inputHeight : Int) : SessionM (Array SlotType) := do
  let kept : Int := f.stack.size + inputHeight
  if kept < 0 then throw .outOfRange
  f.leavingSlots f.outputStack.toList
    (← f.leavingEntry (f.stack.toList.take kept.toNat) #[])

/-! ## Merging -/

/-- The types on entry to a block whose output is merged.  A block that leads back to itself
reads the input that is being merged into. -/
structure Entry where
  locals : Array SlotType
  stack : Array SlotType

def mergeLocals (f : Frame) (entry : Array SlotType → Entry) :
    Nat → Nat → MergedSlots → SessionM MergedSlots
  | 0, _, m => return m
  | n + 1, i, m => do
    let s := (f.outputLocals[i]?).getD .unset
    let t ← do
      let e := entry m.slots
      let t ← if s = SlotType.unset then Checked.fetch e.locals i else resolve e.locals e.stack s
      f.afterInitialization e.locals e.stack t
    f.mergeLocals entry n (i + 1) (← m.merge t i)

def mergeEntryLocals (f : Frame) (entry : Array SlotType → Entry) :
    Nat → Nat → MergedSlots → SessionM MergedSlots
  | 0, _, m => return m
  | n + 1, i, m => do
    let t ← Checked.fetch (entry m.slots).locals i
    f.mergeEntryLocals entry n (i + 1) (← m.merge t i)

def mergeEntryStack (f : Frame) (entry : Array SlotType → Entry) :
    Nat → Nat → MergedSlots → SessionM MergedSlots
  | 0, _, m => return m
  | n + 1, i, m => do
    let t ← do
      let e := entry m.slots
      f.afterInitialization e.locals e.stack (← Checked.fetch e.stack i)
    f.mergeEntryStack entry n (i + 1) (← m.merge t i)

def mergeOutputStack (f : Frame) (entry : Array SlotType → Entry) (base : Int) :
    List SlotType → Nat → MergedSlots → SessionM MergedSlots
  | [], _, m => return m
  | s :: ss, i, m => do
    let t ← do
      let e := entry m.slots
      f.afterInitialization e.locals e.stack (← resolve e.locals e.stack s)
    f.mergeOutputStack entry base ss (i + 1) (← m.merge t (base + i))

def openInput (input : Option (Array SlotType)) (size : Nat) : MergedSlots :=
  match input with
  | none => ⟨Array.replicate size .unset, true⟩
  | some slots => ⟨slots, false⟩

/-- Merges the output of a block into the input of a successor, and tells whether that changed.
`inputHeight` is how far the block has gone down into its input stack, as a negative number.  On
an exception edge only the exception is on the stack, and the handler also sees the local
variables on entry. -/
def merge (f : Frame) (inputHeight : Int) (target : Frame) (isLoop : Bool) (edge : EdgeKind) :
    SessionM (Frame × Bool) := do
  let n := f.locals.size
  let ⟨owner, inputLocals, inputStack, outputLocals, outputStack, initialized, isEager⟩ := target
  let oldStack := inputStack.getD #[]
  let entry (locals : Array SlotType) : Entry :=
    if isLoop then ⟨locals, oldStack⟩ else ⟨f.locals, f.stack⟩
  let locals ← f.mergeLocals entry n 0 (openInput inputLocals n)
  let (locals, stack) ← do
    match edge with
    | .exception caught =>
      let locals ← f.mergeEntryLocals entry n 0 locals
      pure (locals, ← (openInput inputStack 1).merge caught 0)
    | .flow _ =>
      let kept : Int := f.stack.size + inputHeight
      let height := kept + f.outputStack.size
      if inputStack.isNone ∧ height < 0 then throw .outOfRange
      let entry (stack : Array SlotType) : Entry :=
        if isLoop then ⟨locals.slots, stack⟩ else ⟨f.locals, f.stack⟩
      let stack ← f.mergeEntryStack entry kept.toNat 0 (openInput inputStack height.toNat)
      pure (locals, ← f.mergeOutputStack entry kept f.outputStack.toList 0 stack)
  let merged : Frame :=
    { owner, inputLocals := some locals.slots, inputStack := some stack.slots,
      outputLocals, outputStack, initialized, isEager }
  return (merged, locals.changed || stack.changed)

end Frame

end ClassAssembler
