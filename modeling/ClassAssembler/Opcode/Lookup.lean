import ClassAssembler.Opcode.Basic
import ClassAssembler.Text.Lowercase

/-!
# Opcodes by name

Forms that the encoder chooses by itself, such as `iload_0`, `ldc_w` or `goto_w`, have a name but
are not found by it.
-/

namespace ClassAssembler

namespace Opcode

def isChosenByEncoder (op : Opcode) : Bool :=
  let n := op.code
  op = ldcW || op = ldc2W || op = wide || op = gotoW || op = jsrW
    || (iload0.code ≤ n && n < iaload.code) || (istore0.code ≤ n && n < iastore.code)

def nameOf (n : Int) : Text :=
  match ofCode? n with
  | some op => Text.ofString op.mnemonic
  | none => "unknown(" ++ Text.ofInt n ++ ")"

def named : List (Text × Opcode) :=
  (all.toList.filter fun op => !op.isChosenByEncoder).map fun op =>
    (Text.ofString op.mnemonic, op)

def lookup? (name : Text) : Option Opcode := named.lookup name.toLower

end Opcode

end ClassAssembler
