import ClassAssembler.Code.Basic
import ClassAssembler.Number.Shortest
import ClassAssembler.Opcode.Lookup
import ClassAssembler.Reader.Pool
import ClassAssembler.Text.Quoted

/-!
# Disassembly

One instruction to a line: its offset, its name and its operands, with a remark on what an index of
the constant pool stands for.
-/

namespace ClassAssembler

namespace ReadPool

def bareIndex (i : Nat) : Text := 35 :: Text.ofNat i

def pair? (a b : Option Text) : Option Text := do
  let a ← a
  let b ← b
  return a ++ 58 :: b

def describeMember (p : ReadPool) (owner nameAndType : Nat) : Checked Text := do
  let owner := (← p.className? owner).getD (bareIndex owner)
  if nameAndType = 0 ∨ p.size < nameAndType then return owner ++ ".?"
  else
    match p.entry? nameAndType with
    | some (.nameAndType name desc) =>
      let name ← p.utf8? name
      let desc ← p.utf8? desc
      return owner ++ 46 :: (pair? name desc).getD [63]
    | _ => return owner ++ 46 :: bareIndex nameAndType

/-- The text of the entry at an index.  A dynamic entry may refer to another one; the fuel bounds
how often. -/
def describeFrom (p : ReadPool) : Nat → Nat → Checked Text
  | 0, _ => .error .endless
  | fuel + 1, i => do
    match p.entry? i with
    | some (.classRef name) => return (← p.utf8? name).getD (bareIndex i)
    | some (.string text) => return ((← p.utf8? text).map Text.quoted).getD (bareIndex i)
    | some (.member owner nameAndType) => p.describeMember owner nameAndType
    | some (.nameAndType name desc) =>
      let name ← p.utf8? name
      let desc ← p.utf8? desc
      return (pair? name desc).getD (bareIndex i)
    | some (.integer v) => return Text.ofInt v
    | some (.float bits) => return Binary.describe Binary.single bits ++ [102]
    | some (.long v) => return Text.ofInt v ++ [76]
    | some (.utf8 t) => return t
    | some (.invokeDynamic bootstrap nameAndType) =>
      let rest ← p.describeFrom fuel nameAndType
      return "InvokeDynamic #" ++ Text.ofNat bootstrap ++ 58 :: rest
    | some .other | none => return bareIndex i

def describe (p : ReadPool) (i : Nat) : Checked Text := p.describeFrom (p.size + 1) i

def remark (p : ReadPool) (i : Nat) (more : Text) : Checked Text :=
  return bareIndex i ++ more ++ " // " ++ (← p.describe i)

end ReadPool

namespace Code

def column (n : Nat) : Text :=
  let t := Text.ofNat n
  List.replicate (4 - t.length) 32 ++ t

def padded (t : Text) : Text := t ++ List.replicate (16 - t.length) 32

def operandPair (a b : Text) : Text := a ++ ", " ++ b

def tableRows (c : Code) (i row : Int) : Nat → Int → Checked (List Text)
  | 0, _ => return []
  | n + 1, key => do
    let target := i + (← c.signed32 row)
    let text := Text.ofInt key ++ ": " ++ Text.ofInt target
    return text :: (← tableRows c i (row + 4) n (key + 1))

def lookupRows (c : Code) (i row : Int) : Nat → Checked (List Text)
  | 0 => return []
  | n + 1 => do
    let key ← c.signed32 row
    let target := i + (← c.signed32 (row + 4))
    let text := Text.ofInt key ++ ": " ++ Text.ofInt target
    return text :: (← lookupRows c i (row + 8) n)

def switchText (c : Code) (i : Int) (rows : List Text) : Checked Text := do
  let fallback := "default: " ++ Text.ofInt (i + (← c.signed32 (switchOperands i)))
  return [0x7B, 32] ++ Text.join ", " (rows ++ [fallback]) ++ [32, 0x7D]

def operandText? (c : Code) (p : ReadPool) (i : Int) (op : Opcode) : Checked (Option Text) := do
  let byte (k : Int) : Checked Text := return Text.ofNat (← c.unsigned8 (i + k))
  match op, op.format with
  | .bipush, _ => return some (Text.ofInt (← c.signed8 (i + 1)))
  | .sipush, _ => return some (Text.ofInt (← c.signed16 (i + 1)))
  | .wide, _ =>
    let wideOp ← c.unsigned8 (i + 1)
    let slot := Opcode.nameOf wideOp ++ 32 :: Text.ofNat (← c.unsigned16 (i + 2))
    if wideOp = Opcode.iinc.code then
      return some (operandPair slot (Text.ofInt (← c.signed16 (i + 4))))
    else return some slot
  | _, .byte | _, .var => return some (← byte 1)
  | _, .ldc => return some (← p.remark (← c.unsigned8 (i + 1)) [])
  | _, .ldcW | _, .field | _, .method | _, .type | _, .dynamic =>
    return some (← p.remark (← c.unsigned16 (i + 1)) [])
  | _, .interfaceMethod | _, .multiArray =>
    let more := ", " ++ (← byte 3)
    return some (← p.remark (← c.unsigned16 (i + 1)) more)
  | _, .iinc => return some (operandPair (← byte 1) (Text.ofInt (← c.signed8 (i + 2))))
  | _, .label => return some (Text.ofInt (i + (← c.signed16 (i + 1))))
  | _, .wideLabel => return some (Text.ofInt (i + (← c.signed32 (i + 1))))
  | _, .tableSwitch =>
    let operands := switchOperands i
    let low ← c.signed32 (operands + 4)
    let high ← c.signed32 (operands + 8)
    let rows ← c.tableRows i (operands + 12) (high - low + 1).toNat low
    return some (← c.switchText i rows)
  | _, .lookupSwitch =>
    let operands := switchOperands i
    let rows ← c.lookupRows i (operands + 8) (← c.signed32 (operands + 4)).toNat
    return some (← c.switchText i rows)
  | _, _ => return none

def lineAt (c : Code) (p : ReadPool) (i : Nat) : Checked Text := do
  let byte ← c.unsigned8 i
  let start := column i ++ ": "
  let name := Opcode.nameOf byte
  match Opcode.ofCode? byte with
  | none => return start ++ name
  | some op =>
    match ← c.operandText? p i op with
    | some operands => return start ++ padded name ++ 32 :: operands
    | none => return start ++ name

/-- The lines of code from an offset on.  An instruction of no length would never end; the fuel
bounds the number of instructions. -/
def linesFrom (c : Code) (p : ReadPool) : Nat → Nat → Array Text → Checked (Array Text)
  | 0, _, _ => .error .endless
  | fuel + 1, i, done => do
    if c.size ≤ i then return done
    else
      let length ← c.lengthAt i
      if c.size < i + length then
        let name := Opcode.nameOf (← c.unsigned8 i)
        return done.push (column i ++ ": " ++ name ++ " <truncated>")
      else
        let line ← c.lineAt p i
        if i + length < 0 then throw .outOfRange
        linesFrom c p fuel (i + length).toNat (done.push line)

def disassemble (c : Code) (p : ReadPool) : Checked (List Text) :=
  return (← c.linesFrom p (c.size + 1) 0 #[]).toList

end Code

end ClassAssembler
