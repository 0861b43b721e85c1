import ClassAssembler.Frame.SlotType
import ClassAssembler.Opcode.Basic

/-!
# Effects of operations on frames

Most operations take a number of slots from the stack and push types that are always the same; the
rest depend on an operand.
-/

namespace ClassAssembler

inductive Effect where
  | replace (taken : Nat) (pushed : List SlotType)
  /-- Takes slots and pushes them again in the listed order, the topmost being number zero. -/
  | shuffle (taken : Nat) (pushed : List Nat)
  | constant
  | load
  | element
  | store
  | storeWide
  /-- Makes a local variable an integer. -/
  | increment
  | subroutine
  | getStatic
  | putStatic
  | getField
  | putField
  | invokeStatic
  | invokeSpecial
  | invoke
  | invokeDynamic
  | new
  | newArray
  | newObjectArray
  | cast
  | multiArray
deriving DecidableEq, Repr, Inhabited

namespace Opcode

open SlotType in
def effect : Opcode → Effect
  | nop | ineg | lneg | fneg | dneg | i2b | i2c | i2s | goto | vreturn => .replace 0 []
  | aconstNull => .replace 0 [null]
  | iconstM1 | iconst0 | iconst1 | iconst2 | iconst3 | iconst4 | iconst5 | bipush | sipush
  | iload => .replace 0 [integer]
  | lconst0 | lconst1 | lload => .replace 0 [long, top]
  | fconst0 | fconst1 | fconst2 | fload => .replace 0 [float]
  | dconst0 | dconst1 | dload => .replace 0 [double, top]
  | ldc => .constant
  | aload => .load
  | iaload | baload | caload | saload => .replace 2 [integer]
  | laload | d2l => .replace 2 [long, top]
  | faload => .replace 2 [float]
  | daload | l2d => .replace 2 [double, top]
  | aaload => .element
  | istore | fstore | astore => .store
  | lstore | dstore => .storeWide
  | iastore | bastore | castore | sastore | fastore | aastore => .replace 3 []
  | lastore | dastore => .replace 4 []
  | pop | ifeq | ifne | iflt | ifge | ifgt | ifle | ireturn | freturn | areturn | tableswitch
  | lookupswitch | athrow | monitorenter | monitorexit | ifnull | ifnonnull => .replace 1 []
  | pop2 | ifIcmpeq | ifIcmpne | ifIcmplt | ifIcmpge | ifIcmpgt | ifIcmple | ifAcmpeq | ifAcmpne
  | lreturn | dreturn => .replace 2 []
  | dup => .shuffle 1 [0, 0]
  | dupX1 => .shuffle 2 [0, 1, 0]
  | dupX2 => .shuffle 3 [0, 2, 1, 0]
  | dup2 => .shuffle 2 [1, 0, 1, 0]
  | dup2X1 => .shuffle 3 [1, 0, 2, 1, 0]
  | dup2X2 => .shuffle 4 [1, 0, 3, 2, 1, 0]
  | swap => .shuffle 2 [0, 1]
  | iadd | isub | imul | idiv | irem | iand | ior | ixor | ishl | ishr | iushr | l2i | d2i | fcmpl
  | fcmpg => .replace 2 [integer]
  | ladd | lsub | lmul | ldiv | lrem | land | lor | lxor => .replace 4 [long, top]
  | fadd | fsub | fmul | fdiv | frem | l2f | d2f => .replace 2 [float]
  | dadd | dsub | dmul | ddiv | drem => .replace 4 [double, top]
  | lshl | lshr | lushr => .replace 3 [long, top]
  | iinc => .increment
  | i2l | f2l => .replace 1 [long, top]
  | i2f => .replace 1 [float]
  | i2d | f2d => .replace 1 [double, top]
  | f2i | arraylength | instanceof => .replace 1 [integer]
  | lcmp | dcmpl | dcmpg => .replace 4 [integer]
  | jsr | ret => .subroutine
  | getstatic => .getStatic
  | putstatic => .putStatic
  | getfield => .getField
  | putfield => .putField
  | invokevirtual | invokeinterface => .invoke
  | invokespecial => .invokeSpecial
  | invokestatic => .invokeStatic
  | invokedynamic => .invokeDynamic
  | new => .new
  | newarray => .newArray
  | anewarray => .newObjectArray
  | checkcast => .cast
  | _ => .multiArray

def effectOf (n : Int) : Effect :=
  match ofCode? n with
  | some op => op.effect
  | none => .multiArray

end Opcode

end ClassAssembler
