import ClassAssembler.Message.Fill
import ClassAssembler.Opcode.Lookup

/-!
# Errors in listings

Every error knows its method and its line, and all errors of a class source are reported together.
-/

namespace ClassAssembler

inductive OperandFault where
  | labelTwice (name : Text)
  | badLiteral (rest : Text)
  | arity (expected got : Nat)
  | notInteger (t : Text) (low high : Int)
  | tryCatchArity
  | localArity
  | unknownArrayType (name : Text)
  | invokeArity (op : Opcode)
  | tableSwitchArity
  | tableSwitchRows (low high : Int) (got : Nat)
  | lookupSwitchArity
  | badCase (t : Text)
  | keysNotIncreasing
  | dynamicArity
  | unknownHandleKind (name : Text)
  | missingAfter (word : Text)
  | constantArity
  | tooLargeForInt (t : Text)
  | badConstant (t : Text)
deriving DecidableEq, Repr, Inhabited

namespace OperandFault

def message : OperandFault → Text
  | labelTwice name => "label " ++ name ++ " defined twice"
  | badLiteral rest => "bad string literal " ++ rest
  | arity expected got =>
    "expected " ++ Text.ofNat expected ++ " operands, got "
      ++ Text.ofNat got
  | notInteger t low high =>
    t ++ " is not an integer in [" ++ Text.ofInt low ++ ", "
      ++ Text.ofInt high ++ "]"
  | tryCatchArity => "trycatch takes start, end, handler and an optional type"
  | localArity =>
    "local takes name, desc, start, end, index and an optional signature"
  | unknownArrayType name => "unknown primitive array type " ++ name.quoted
  | invokeArity op =>
    Text.ofString op.mnemonic ++ " takes owner, name, desc and an optional itf"
  | tableSwitchArity =>
    "tableswitch takes min, max, default label and case labels"
  | tableSwitchRows low high got =>
    "tableswitch " ++ Text.ofInt low ++ ".." ++ Text.ofInt high
      ++ " needs " ++ Text.ofInt (high - low + 1)
      ++ " case labels, got " ++ Text.ofNat got
  | lookupSwitchArity => "lookupswitch takes a default label and key:label pairs"
  | badCase t => "lookupswitch case " ++ t.quoted ++ " is not key:label"
  | keysNotIncreasing => "lookupswitch keys must be increasing"
  | dynamicArity =>
    Text.ofString
      "invokedynamic takes name, desc and a bootstrap handle kind, owner, name, desc"
  | unknownHandleKind name => "unknown handle kind " ++ name.quoted
  | missingAfter word => "missing operand after " ++ word
  | constantArity => "ldc takes one constant"
  | tooLargeForInt t =>
    t ++ " does not fit in an int, use " ++ t ++ "L"
  | badConstant t => "bad constant " ++ t

end OperandFault

inductive LineFault where
  | unknownInstruction (name : Text)
  | undefinedLabel (name : Text)
  | badOperand (fault : OperandFault)
deriving DecidableEq, Repr, Inhabited

namespace LineFault

def kind : LineFault → String
  | unknownInstruction _ => "unknown instruction"
  | undefinedLabel _ => "undefined label"
  | badOperand _ => "bad operand"

end LineFault

structure LineError where
  method : Text
  line : Nat
  fault : LineFault
deriving DecidableEq, Repr, Inhabited

namespace LineError

def message (e : LineError) (language : Language) : Text :=
  let (m, last) : Message × Text :=
    match e.fault with
    | .unknownInstruction name => (.sourceInsn, name)
    | .undefinedLabel name => (.sourceNoLabel, name)
    | .badOperand fault => (.sourceOperand, fault.message)
  m.say language [.string e.method, .int e.line, .string last]

end LineError

end ClassAssembler
