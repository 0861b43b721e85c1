import ClassAssembler.Opcode.Basic

/-!
# Operand formats

Besides the operations of the machine the code may hold pending wide jumps: a jump whose distance
did not fit keeps its place under a number of its own until the method is written again.
-/

namespace ClassAssembler

namespace Opcode

/-- The distance from a jump between `ifeq` and `jsr` to its pending form. -/
def pendingShift : Nat := 49

def pendingNullShift : Nat := 20

def pendingIfeq : Nat := 202

def pendingIfnull : Nat := 218

def pendingGotoW : Nat := 220

inductive Format where
  | plain
  | implicitVar
  | label
  | wideLabel
  | wide
  | byte
  | short
  | var
  | ldc
  | ldcW
  | field
  | method
  | interfaceMethod
  | dynamic
  | type
  | iinc
  | tableSwitch
  | lookupSwitch
  | multiArray
deriving DecidableEq, Repr, Inhabited

def format : Opcode → Format
  | bipush | newarray => .byte
  | sipush => .short
  | ldc => .ldc
  | ldcW | ldc2W => .ldcW
  | iload | lload | fload | dload | aload | istore | lstore | fstore | dstore | astore | ret => .var
  | iload0 | iload1 | iload2 | iload3 | lload0 | lload1 | lload2 | lload3
  | fload0 | fload1 | fload2 | fload3 | dload0 | dload1 | dload2 | dload3
  | aload0 | aload1 | aload2 | aload3
  | istore0 | istore1 | istore2 | istore3 | lstore0 | lstore1 | lstore2 | lstore3
  | fstore0 | fstore1 | fstore2 | fstore3 | dstore0 | dstore1 | dstore2 | dstore3
  | astore0 | astore1 | astore2 | astore3 => .implicitVar
  | ifeq | ifne | iflt | ifge | ifgt | ifle | ifIcmpeq | ifIcmpne | ifIcmplt | ifIcmpge
  | ifIcmpgt | ifIcmple | ifAcmpeq | ifAcmpne | goto | jsr | ifnull | ifnonnull => .label
  | gotoW | jsrW => .wideLabel
  | wide => .wide
  | iinc => .iinc
  | tableswitch => .tableSwitch
  | lookupswitch => .lookupSwitch
  | getstatic | putstatic | getfield | putfield => .field
  | invokevirtual | invokespecial | invokestatic => .method
  | invokeinterface => .interfaceMethod
  | invokedynamic => .dynamic
  | new | anewarray | checkcast | instanceof => .type
  | multianewarray => .multiArray
  | _ => .plain

def Format.ofByte (b : UInt8) : Format :=
  match ofCode? b.toNat with
  | some op => op.format
  | none =>
    if b.toNat < pendingGotoW then .label
    else if b.toNat = pendingGotoW then .wideLabel
    else .plain

def invertJump (op : Int) : Int :=
  let flip (n : Int) : Int := if n % 2 = 0 then n + 1 else n - 1
  if op ≤ 0xA6 then flip (op + 1) - 1 else flip op

end Opcode

end ClassAssembler
