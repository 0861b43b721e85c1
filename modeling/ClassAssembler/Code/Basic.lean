import ClassAssembler.Fault
import ClassAssembler.Opcode.Format

/-!
# The bytes of a method's code

Reading numbers out of code, and the length of the instruction at an offset.
-/

namespace ClassAssembler

abbrev Code := Array UInt8

namespace Code

def unsigned8 (c : Code) (i : Int) : Checked Nat := return (← Checked.fetch c i).toNat

def signed8 (c : Code) (i : Int) : Checked Int := return Int.bmod (← c.unsigned8 i) 0x100

def unsigned16 (c : Code) (i : Int) : Checked Nat := do
  let high ← c.unsigned8 i
  let low ← c.unsigned8 (i + 1)
  return high * 256 + low

def signed16 (c : Code) (i : Int) : Checked Int := return Int.bmod (← c.unsigned16 i) 0x10000

def signed32 (c : Code) (i : Int) : Checked Int := do
  let high ← c.unsigned16 i
  let low ← c.unsigned16 (i + 2)
  return Int.bmod (high * 65536 + low) 0x100000000

def formatAt (c : Code) (i : Int) : Checked Opcode.Format :=
  return .ofByte (← Checked.fetch c i)

def switchOperands (i : Int) : Int := i + 4 - i % 4

def fixedLength (c : Code) (i : Int) : Checked Nat := do
  match ← c.formatAt i with
  | .var | .byte | .ldc => return 2
  | .short | .ldcW | .field | .method | .type | .iinc | .label => return 3
  | .multiArray => return 4
  | .interfaceMethod | .dynamic | .wideLabel => return 5
  | .wide => return if (← c.unsigned8 (i + 1)) = Opcode.iinc.code then 6 else 4
  | .plain | .implicitVar | .tableSwitch | .lookupSwitch => return 1

/-- The length of the instruction at an offset.  The number of rows of a switch is a signed number
of thirty-two bits, so that a malformed switch can have a negative length. -/
def lengthAt (c : Code) (i : Int) : Checked Int := do
  match ← c.formatAt i with
  | .tableSwitch =>
    let p := switchOperands i
    let low ← c.signed32 (p + 4)
    let high ← c.signed32 (p + 8)
    return p + 12 + 4 * Int.bmod (high - low + 1) 0x100000000 - i
  | .lookupSwitch =>
    let p := switchOperands i
    return p + 8 + 8 * (← c.signed32 (p + 4)) - i
  | _ => return ← c.fixedLength i

end Code

end ClassAssembler
