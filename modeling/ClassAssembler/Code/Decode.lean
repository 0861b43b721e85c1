import ClassAssembler.Code.Basic
import ClassAssembler.Instruction
import ClassAssembler.Pool

/-!
# Decoding instructions

Constants are looked up and targets are offsets.  A pending jump is read as what has to stand in
its place: a wide jump, or the opposite condition over one.
-/

namespace ClassAssembler

namespace Pool

def fetch (p : Pool) (i : Nat) : Checked Constant := Checked.need (p.at? i)

def valueOf : Constant → Value
  | .integer v => .int32 v
  | .float bits => .float32 bits
  | .long v => .int64 v
  | .double bits => .float64 bits
  | .string t => .string t
  | .classRef n => .type (.ofName n)
  | .methodType d => .type (.ofMethod d)
  | .methodHandle kind owner name desc ofInterface =>
    .handle { kind, owner, name, desc, ofInterface }
  | c =>
    .handle
      { kind := (c.tag : Int) - 20, owner := c.first, name := c.second, desc := c.third,
        ofInterface := false }

/-- The words of the bootstrap method with a number, in a list of words that begins with the
handle of the first: a handle, the number of arguments, and the arguments. -/
def bootstrapWords : Nat → List Nat → Checked (Nat × List Nat)
  | 0, handle :: count :: rest =>
    if rest.length < count then .error .outOfRange else .ok (handle, rest.take count)
  | n + 1, _ :: count :: rest => bootstrapWords n (rest.drop count)
  | _, _ => .error .outOfRange

def wordsOf : List UInt8 → List Nat
  | high :: low :: rest => (high.toNat * 256 + low.toNat) :: wordsOf rest
  | _ => []

def fetchValues (p : Pool) (is : List Nat) : Checked (List Value) :=
  is.mapM fun i => return valueOf (← p.fetch i)

def bootstrapAt (p : Pool) (n : Nat) : Checked (Handle × List Value) := do
  let (h, args) ← bootstrapWords n (wordsOf p.bootstrapBytes.toList)
  match valueOf (← p.fetch h) with
  | .handle h => return (h, ← p.fetchValues args)
  | _ => throw .missing

end Pool

structure DecodedStep where
  instructions : List (Instruction Int)
  next : Int
  wantsFrame : Bool := false
deriving Inhabited

namespace Code

def signed32s (c : Code) (stride : Int) : Nat → Int → Checked (List Int)
  | 0, _ => return []
  | n + 1, p => do
    let v ← c.signed32 p
    return v :: (← c.signed32s stride n (p + stride))

def pendingJump (op : Nat) : Int :=
  if op < Opcode.pendingIfnull then (op : Int) - Opcode.pendingShift
  else (op : Int) - Opcode.pendingNullShift

def decodeJump (c : Code) (i : Int) (op : Nat) : Checked DecodedStep := do
  let next := i + 3
  if op < Opcode.pendingIfeq then
    return { instructions := [.jump op (i + (← c.signed16 (i + 1)))], next }
  else
    let target := i + (← c.unsigned16 (i + 1))
    let jump := pendingJump op
    if jump = Opcode.goto.code ∨ jump = Opcode.jsr.code then
      return { instructions := [.jump (jump + 33) target], next }
    else
      return {
        instructions :=
          [.jump (Opcode.invertJump jump) next, .jump Opcode.gotoW.code target]
        next, wantsFrame := true }

def decodeWideJump (c : Code) (i : Int) (op : Nat) : Checked DecodedStep := do
  let target := i + (← c.signed32 (i + 1))
  if op = Opcode.pendingGotoW then
    return { instructions := [.jump Opcode.gotoW.code target], next := i + 5, wantsFrame := true }
  else return { instructions := [.jump op target], next := i + 5 }

def decodeWide (c : Code) (i : Int) : Checked DecodedStep := do
  let op ← c.unsigned8 (i + 1)
  let slot ← c.unsigned16 (i + 2)
  if op = Opcode.iinc.code then
    return { instructions := [.increment slot (← c.signed16 (i + 4))], next := i + 6 }
  else return { instructions := [.var op slot], next := i + 4 }

def decodeImplicit (i : Int) (op : Nat) : DecodedStep :=
  let (first, base) :=
    if Opcode.istore.code < op then (Opcode.istore.code, Opcode.istore0.code)
    else (Opcode.iload.code, Opcode.iload0.code)
  let n := op - base
  { instructions := [.var ((first + n / 4 : Nat) : Int) ((n % 4 : Nat) : Int)], next := i + 1 }

def decodeTableSwitch (c : Code) (i : Int) : Checked DecodedStep := do
  let p := switchOperands i
  let fallback ← c.signed32 p
  let low ← c.signed32 (p + 4)
  let high ← c.signed32 (p + 8)
  let n := high - low + 1
  if n < 0 then throw .negativeLength
  let rows ← c.signed32s 4 n.toNat (p + 12)
  return {
    instructions := [.tableSwitch low high (i + fallback) (rows.map (i + ·))]
    next := p + 12 + 4 * n }

def decodeLookupSwitch (c : Code) (i : Int) : Checked DecodedStep := do
  let p := switchOperands i
  let fallback ← c.signed32 p
  let n ← c.signed32 (p + 4)
  if n < 0 then throw .negativeLength
  let keys ← c.signed32s 8 n.toNat (p + 8)
  let rows ← c.signed32s 8 n.toNat (p + 12)
  return {
    instructions := [.lookupSwitch (i + fallback) keys (rows.map (i + ·))]
    next := p + 8 + 8 * n }

def decodeAt (c : Code) (pool : Pool) (i : Int) : Checked DecodedStep := do
  let op ← c.unsigned8 i
  let single (n : Int) (x : Instruction Int) : DecodedStep :=
    { instructions := [x], next := i + n }
  match ← c.formatAt i with
  | .plain => return single 1 (.plain op)
  | .implicitVar => return decodeImplicit i op
  | .label => c.decodeJump i op
  | .wideLabel => c.decodeWideJump i op
  | .wide => c.decodeWide i
  | .tableSwitch => c.decodeTableSwitch i
  | .lookupSwitch => c.decodeLookupSwitch i
  | .var => return single 2 (.var op (← c.unsigned8 (i + 1)))
  | .byte => return single 2 (.push op (← c.signed8 (i + 1)))
  | .short => return single 3 (.push op (← c.signed16 (i + 1)))
  | .ldc => return single 2 (.constant (Pool.valueOf (← pool.fetch (← c.unsigned8 (i + 1)))))
  | .ldcW => return single 3 (.constant (Pool.valueOf (← pool.fetch (← c.unsigned16 (i + 1)))))
  | .field =>
    let f ← pool.fetch (← c.unsigned16 (i + 1))
    return single 3 (.field op f.first f.second f.third)
  | .method =>
    let m ← pool.fetch (← c.unsigned16 (i + 1))
    return single 3 (.invoke op m.first m.second m.third (m.tag == 11))
  | .interfaceMethod =>
    let m ← pool.fetch (← c.unsigned16 (i + 1))
    return single 5 (.invoke op m.first m.second m.third (m.tag == 11))
  | .dynamic =>
    let site ← pool.fetch (← c.unsigned16 (i + 1))
    let number := match site with
      | .invokeDynamic _ _ n => n
      | _ => 0
    let (h, args) ← pool.bootstrapAt number
    return single 5 (.dynamic site.first site.second h args)
  | .type => return single 3 (.type op (← pool.fetch (← c.unsigned16 (i + 1))).first)
  | .iinc =>
    return single 3 (.increment (← c.unsigned8 (i + 1)) (← c.signed8 (i + 2)))
  | .multiArray =>
    let t ← pool.fetch (← c.unsigned16 (i + 1))
    return single 4 (.multiArray t.first (← c.unsigned8 (i + 3)))

def decodeFrom (c : Code) (pool : Pool) :
    Nat → Int → Array (Int × DecodedStep) → Checked (Array (Int × DecodedStep))
  | 0, _, acc => return acc
  | n + 1, i, acc => do
    if c.size ≤ i then return acc
    else
      let step ← c.decodeAt pool i
      c.decodeFrom pool n step.next (acc.push (i, step))

def decode (c : Code) (pool : Pool) : Checked (Array (Int × DecodedStep)) :=
  c.decodeFrom pool (c.size + 1) 0 #[]

end Code

end ClassAssembler
