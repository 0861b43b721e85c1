import Std.Data.HashSet
import ClassAssembler.Instruction
import ClassAssembler.Listing.Error
import ClassAssembler.Listing.Token
import ClassAssembler.Number.Literal
import ClassAssembler.Opcode.Format

/-!
# Listings

A listing gives the code of a method, one instruction, label or table entry to a line.  Reading it
collects all its errors.
-/

namespace ClassAssembler

structure Listing where
  events : List (CodeEvent Text) := []
  maxStack : Int := 0
  maxLocals : Int := 0
deriving Inhabited

namespace Listing

structure Reading where
  method : Text
  line : Nat := 0
  labels : Std.HashSet Text := {}
  errors : Array LineError := #[]
  maxStack : Int := 0
  maxLocals : Int := 0
deriving Inhabited

abbrev ReadM := StateM Reading

abbrev PartM := OptionT ReadM

def report (fault : LineFault) : ReadM Unit :=
  modify fun r => { r with errors := r.errors.push ⟨r.method, r.line, fault⟩ }

def refuse {α : Type} (fault : OperandFault) : PartM α := do
  (report (.badOperand fault) : ReadM Unit)
  failure

/-! ## Operands -/

def attempt {α : Type} (p : PartM α) : PartM (Option α) := fun r => (do return some (← p.run)) r

def require {α : Type} : Option α → PartM α
  | some a => pure a
  | none => failure

def integer (t : Text) (low high : Int) : PartM Int := do
  match (Literal.integer? t).filter fun v => low ≤ v ∧ v ≤ high with
  | some v => return v
  | none => refuse (.notInteger t low high)

def unsigned16 (t : Text) : PartM Int := integer t 0 0xFFFF

def signed32 (t : Text) : PartM Int := integer t (-0x80000000) 0x7fffffff

def label (name : Text) : PartM Text := do
  if (← getThe Reading).labels.contains name then return name
  else
    (report (.undefinedLabel name) : ReadM Unit)
    failure

def labels : List Text → PartM (List (Option Text))
  | [] => return []
  | t :: ts => do
    let l ← attempt (label t)
    return l :: (← labels ts)

def requireAll {α : Type} : List (Option α) → PartM (List α)
  | [] => return []
  | a :: as => do
    let a ← require a
    return a :: (← requireAll as)

def wrongArity {α : Type} (expected : Nat) (args : List Text) : PartM α :=
  refuse (.arity expected args.length)

def number (t : Text) : PartM Value := do
  let lowered := t.toLower
  let long? :=
    if t.endsWith "L" then Literal.integer? t.dropLast else none
  let single? :=
    if lowered.endsWith "f" ∧ !Text.startsWith lowered.dropLast "0x" then
      Literal.float? Binary.single lowered.dropLast
    else none
  match long? with
  | some v => return .int64 (Int64.ofInt v)
  | none =>
    match Literal.integer? t with
    | some v =>
      if -0x80000000 ≤ v ∧ v < 0x80000000 then return .int32 (Int32.ofInt v)
      else refuse (.tooLargeForInt t)
    | none =>
      match single? with
      | some bits => return .float32 (UInt32.ofNat bits)
      | none =>
        match Literal.float? Binary.double (lowered.dropTail "d") with
        | some bits => return .float64 (UInt64.ofNat bits)
        | none => refuse (.badConstant t)

def constant : List Text → PartM Value
  | [t] =>
    match t with
    | [] => refuse (.badConstant t)
    | b :: r =>
      if b = quoteMark then
        match Text.unquote? r with
        | some (v, n) => if n = r.length then return .string v else refuse (.badLiteral t)
        | none => refuse (.badLiteral t)
      else number t
  | [word, t] =>
    if word = "class" then return .type (.ofName t)
    else if word = "methodtype" then return .type (.ofMethod t)
    else refuse .constantArity
  | _ => refuse .constantArity

def constants : List Text → PartM (List Value)
  | [] => return []
  | t :: ts => do
    if t = "class" ∨ t = "methodtype" then
      match ts with
      | [] => refuse (.missingAfter t)
      | u :: us =>
        let v ← constant [t, u]
        return v :: (← constants us)
    else
      let v ← constant [t]
      return v :: (← constants ts)

def arrayTypes : List (Text × Int) :=
  [("boolean", 4), ("char", 5), ("float", 6), ("double", 7), ("byte", 8), ("short", 9),
    ("int", 10), ("long", 11)].map fun (name, n) => (Text.ofString name, n)

def handleKinds : List (Text × Int) :=
  [("getfield", 1), ("getstatic", 2), ("putfield", 3), ("putstatic", 4), ("invokevirtual", 5),
    ("invokestatic", 6), ("invokespecial", 7), ("newinvokespecial", 8),
    ("invokeinterface", 9)].map fun (name, n) => (Text.ofString name, n)

/-! ## Instructions -/

def tableSwitch : List Text → PartM (Instruction Text)
  | low :: high :: fallback :: cases => do
    let lo? ← attempt (signed32 low)
    let hi? ← attempt (signed32 high)
    let lo ← require lo?
    let hi ← require hi?
    if hi < lo ∨ hi - lo + 1 ≠ cases.length then
      refuse (.tableSwitchRows lo hi cases.length)
    else
      let d ← attempt (label fallback)
      let ls ← labels cases
      return .tableSwitch lo hi (← require d) (← requireAll ls)
  | _ => refuse .tableSwitchArity

def switchCases : List Text → Option Int → PartM (List (Int × Option Text))
  | [], _ => return []
  | t :: ts, last => do
    match Text.cut? 58 t with
    | none => refuse (.badCase t)
    | some (key, target) =>
      let k ← signed32 key
      if last.any fun l => k ≤ l then refuse .keysNotIncreasing
      else
        let l ← attempt (label target)
        return (k, l) :: (← switchCases ts (some k))

def lookupSwitch : List Text → PartM (Instruction Text)
  | [] => refuse .lookupSwitchArity
  | fallback :: cases => do
    let d ← attempt (label fallback)
    let cs ← switchCases cases none
    return .lookupSwitch (← require d) (cs.map Prod.fst) (← requireAll (cs.map Prod.snd))

def dynamic : List Text → PartM (Instruction Text)
  | name :: desc :: kind :: owner :: method :: methodDesc :: args => do
    match handleKinds.lookup kind.toLower with
    | none => refuse (.unknownHandleKind kind)
    | some k =>
      let h := Handle.make k owner method methodDesc false
      return .dynamic name desc h (← constants args)
  | _ => refuse .dynamicArity

def invoke (op : Opcode) (args : List Text) : PartM (Instruction Text) := do
  let isInterface := op == .invokeinterface
  match args with
  | [owner, name, desc] => return .invoke op.code owner name desc isInterface
  | [owner, name, desc, mark] =>
    if mark = "itf" then return .invoke op.code owner name desc true
    else refuse (.invokeArity op)
  | _ => refuse (.invokeArity op)

def instruction (op : Opcode) (args : List Text) : PartM (Instruction Text) := do
  match op, args with
  | .bipush, [n] => return .push op.code (← integer n (-128) 127)
  | .sipush, [n] => return .push op.code (← integer n (-32768) 32767)
  | .newarray, [t] =>
    match arrayTypes.lookup t.toLower with
    | some n => return .push op.code n
    | none => refuse (.unknownArrayType t)
  | .ldc, args => return .constant (← constant args)
  | .iinc, [v, n] =>
    let slot? ← attempt (unsigned16 v)
    let amount? ← attempt (integer n (-32768) 32767)
    return .increment (← require slot?) (← require amount?)
  | .tableswitch, args => tableSwitch args
  | .lookupswitch, args => lookupSwitch args
  | .multianewarray, [desc, n] => return .multiArray desc (← integer n 1 255)
  | .invokedynamic, args => dynamic args
  | op, args =>
    match op.format, args with
    | .var, [v] => return .var op.code (← unsigned16 v)
    | .type, [t] => return .type op.code t
    | .field, [owner, name, desc] => return .field op.code owner name desc
    | .method, args => invoke op args
    | .interfaceMethod, args => invoke op args
    | .label, [l] => return .jump op.code (← label l)
    | .plain, [] => return .plain op.code
    | .field, args => wrongArity 3 args
    | .iinc, args => wrongArity 2 args
    | .multiArray, args => wrongArity 2 args
    | .plain, args => wrongArity 0 args
    | _, args => wrongArity 1 args

/-! ## Lines -/

def definedLabel? : List Text → Option Text
  | [t] => if 1 < t.length ∧ t.endsWith [58] then some t.dropLast else none
  | [word, name] => if word.toLower = "label" then some name else none
  | _ => none

def maxs : List Text → PartM Unit
  | [s, l] => do
    let stack? ← attempt (unsigned16 s)
    let locals? ← attempt (unsigned16 l)
    let maxStack ← require stack?
    let maxLocals ← require locals?
    modifyThe Reading fun r => { r with maxStack, maxLocals }
  | args => wrongArity 2 args

def lineNumber : List Text → PartM (CodeEvent Text)
  | [n, l] => do
    let number? ← attempt (unsigned16 n)
    let start? ← attempt (label l)
    return .line (← require number?) (← require start?)
  | args => wrongArity 2 args

def tryCatch (args : List Text) : PartM (CodeEvent Text) := do
  let read (start stop handler caught : Text) : PartM (CodeEvent Text) := do
    let s ← attempt (label start)
    let e ← attempt (label stop)
    let h ← attempt (label handler)
    return .tryCatch (← require s) (← require e) (← require h) caught
  match args with
  | [start, stop, handler] => read start stop handler []
  | [start, stop, handler, caught] => read start stop handler caught
  | _ => refuse .tryCatchArity

def localVariable (args : List Text) : PartM (CodeEvent Text) := do
  let read (name desc start stop slot signature : Text) : PartM (CodeEvent Text) := do
    let s ← attempt (label start)
    let e ← attempt (label stop)
    let i ← attempt (unsigned16 slot)
    return .localVariable name desc signature (← require s) (← require e) (← require i)
  match args with
  | [name, desc, start, stop, slot] => read name desc start stop slot []
  | [name, desc, start, stop, slot, signature] => read name desc start stop slot signature
  | _ => refuse .localArity

def statement (word : Text) (args : List Text) : PartM (CodeEvent Text) := do
  let name := word.toLower
  if name = "maxs" then
    maxs args
    failure
  else if name = "line" then lineNumber args
  else if name = "trycatch" then tryCatch args
  else if name = "local" then localVariable args
  else
    match Opcode.lookup? name with
    | some op => return .instruction (← instruction op args)
    | none =>
      (report (.unknownInstruction word) : ReadM Unit)
      failure

def event? (words : Except Text (List Text)) : ReadM (Option (CodeEvent Text)) := do
  match words with
  | .error rest =>
    report (.badOperand (.badLiteral rest))
    return none
  | .ok [] => return none
  | .ok (w :: ws) =>
    match definedLabel? (w :: ws) with
    | some name => return some (.label name)
    | none => (statement w ws).run

def collectLabel (words : Except Text (List Text)) : ReadM Unit := do
  if let .ok ws := words then
    if let some name := definedLabel? ws then
      if (← get).labels.contains name then report (.badOperand (.labelTwice name))
      else modify fun r => { r with labels := r.labels.insert name }

def goTo (line : Nat) : ReadM Unit := modify fun r => { r with line }

def collectLabels : List (Except Text (List Text)) → Nat → ReadM Unit
  | [], _ => return
  | l :: ls, n => do
    goTo n
    collectLabel l
    collectLabels ls (n + 1)

def readEvents : List (Except Text (List Text)) → Nat → Array (CodeEvent Text) →
    ReadM (Array (CodeEvent Text))
  | [], _, events => return events
  | l :: ls, n, events => do
    goTo n
    match ← event? l with
    | some e => readEvents ls (n + 1) (events.push e)
    | none => readEvents ls (n + 1) events

def read (method code : Text) : Listing × List LineError :=
  let lines := (code.split 10).map tokens
  let (events, r) := (do
    collectLabels lines 1
    readEvents lines 1 #[]).run { method }
  ({ events := events.toList, maxStack := r.maxStack, maxLocals := r.maxLocals },
    r.errors.toList)

end Listing

end ClassAssembler
