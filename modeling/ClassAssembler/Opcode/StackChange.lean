import ClassAssembler.Opcode.Basic

/-!
# Stack heights

How the operations change the height of the operand stack, in slots.
-/

namespace ClassAssembler

namespace Opcode

def dependsOnOperands : Int := 1024

def stackChange : Opcode → Int
  | lastore | dastore => -4
  | iastore | fastore | aastore | bastore | castore | sastore | lcmp | dcmpl | dcmpg => -3
  | lstore | dstore | lstore0 | lstore1 | lstore2 | lstore3 | dstore0 | dstore1 | dstore2
  | dstore3 | pop2 | ladd | dadd | lsub | dsub | lmul | dmul | ldiv | ddiv | lrem | drem | land
  | lor | lxor | ifIcmpeq | ifIcmpne | ifIcmplt | ifIcmpge | ifIcmpgt | ifIcmple | ifAcmpeq
  | ifAcmpne | lreturn | dreturn => -2
  | iaload | faload | aaload | baload | caload | saload | istore | fstore | astore | istore0
  | istore1 | istore2 | istore3 | fstore0 | fstore1 | fstore2 | fstore3 | astore0 | astore1
  | astore2 | astore3 | pop | iadd | fadd | isub | fsub | imul | fmul | idiv | fdiv | irem
  | frem | ishl | lshl | ishr | lshr | iushr | lushr | iand | ior | ixor | l2i | l2f | d2i
  | d2f | fcmpl | fcmpg | ifeq | ifne | iflt | ifge | ifgt | ifle | tableswitch | lookupswitch
  | ireturn | freturn | areturn | athrow | monitorenter | monitorexit | ifnull | ifnonnull => -1
  | nop | laload | daload | swap | ineg | lneg | fneg | dneg | iinc | i2f | l2d | f2i | d2l
  | i2b | i2c | i2s | goto | ret | vreturn | newarray | anewarray | arraylength | checkcast
  | instanceof | gotoW => 0
  | aconstNull | iconstM1 | iconst0 | iconst1 | iconst2 | iconst3 | iconst4 | iconst5 | fconst0
  | fconst1 | fconst2 | bipush | sipush | ldc | ldcW | iload | fload | aload | iload0 | iload1
  | iload2 | iload3 | fload0 | fload1 | fload2 | fload3 | aload0 | aload1 | aload2 | aload3
  | dup | dupX1 | dupX2 | i2l | i2d | f2l | f2d | jsr | new | jsrW => 1
  | lconst0 | lconst1 | dconst0 | dconst1 | ldc2W | lload | dload | lload0 | lload1 | lload2
  | lload3 | dload0 | dload1 | dload2 | dload3 | dup2 | dup2X1 | dup2X2 => 2
  | getstatic | putstatic | getfield | putfield | invokevirtual | invokespecial | invokestatic
  | invokeinterface | invokedynamic | wide | multianewarray => dependsOnOperands

end Opcode

end ClassAssembler
